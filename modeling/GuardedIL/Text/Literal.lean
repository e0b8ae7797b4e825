/-!
# String literals

A literal is written between double quotes. A backslash and a double quote get a backslash in front,
a line feed is written `\n`, every other control character of ASCII is written `\x` with two
hexadecimal digits, and all else stands for itself. The characters from 0x80 up are treated alike,
so the rules hold of bytes as well as of code points.
-/

namespace GuardedIL.Text.Literal

/-- The upper-case hexadecimal digit of a number below 16. -/
def hexDigit (n : Nat) : Char :=
  if n < 10 then Char.ofNat (48 + n) else Char.ofNat (55 + n)

/-- Control characters of ASCII, which cannot stand for themselves. -/
def isControl (c : Char) : Bool :=
  c.toNat < 0x20 || c.toNat == 0x7F

def escapeChar (c : Char) : List Char :=
  if c = '\\' ∨ c = '"' then ['\\', c]
  else if c = '\n' then ['\\', 'n']
  else if isControl c then ['\\', 'x', hexDigit (c.toNat / 16), hexDigit (c.toNat % 16)]
  else [c]

def escape (s : String) : String :=
  String.ofList (s.toList.flatMap escapeChar)

def quote (s : String) : String :=
  "\"" ++ escape s ++ "\""

end GuardedIL.Text.Literal

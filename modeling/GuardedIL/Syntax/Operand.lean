import GuardedIL.Text.Literal

/-!
# Operands

What an instruction may read: a temporary, a literal, or the address of a global. The text of an
operand tells the six forms apart.
-/

namespace GuardedIL

/-- The number of a temporary within its function. -/
abbrev TempId := UInt32

inductive Operand where
  | temp (id : TempId)
  | int (value : Int64)
  | bool (value : Bool)
  | str (value : String)
  | global (name : String)
  | null
  deriving DecidableEq, Repr, Inhabited

/-- A temporary as it is written, such as `%t3`. -/
def TempId.text (id : TempId) : String :=
  "%t" ++ toString id.toNat

namespace Operand

def text : Operand → String
  | temp id => TempId.text id
  | int value => toString value.toInt
  | bool true => "true"
  | bool false => "false"
  | str value => Text.Literal.quote value
  | global name => "@" ++ name
  | null => "null"

def isNumeric : Operand → Bool
  | int _ | bool _ => true
  | _ => false

end Operand

end GuardedIL

import GuardedIL.Diagnostic
import GuardedIL.Text

/-!
# Exempt packages

Some packages are not guarded. A set of exemptions has exact paths, and directories that stand for
themselves and for every path below them. Its text lists the paths with commas between them, a
directory with `/*` behind it.
-/

namespace GuardedIL

/-- One exemption: a single package, or a directory with all that is below it. -/
inductive Exemption where
  | exact (path : String)
  | below (dir : String)
  deriving DecidableEq, Repr

/-- Both lists are in order and free of repetition. -/
structure Exemptions where
  exact : List String := []
  below : List String := []
  deriving DecidableEq, Repr, Inhabited

def isBelow (path dir : String) : Bool :=
  path = dir ∨ (dir.toList ++ ['/']).isPrefixOf path.toList

def dropTrailingSlashes (s : String) : String :=
  String.ofList (s.toList.reverse.dropWhile (· = '/')).reverse

namespace Exemptions

def ofList (entries : List Exemption) : Exemptions :=
  { exact := Text.sortDistinct (entries.filterMap fun
      | .exact path => some path
      | .below _ => none)
    below := Text.sortDistinct (entries.filterMap fun
      | .exact _ => none
      | .below dir => some (dropTrailingSlashes dir)) }

/-- The packages of the language itself. -/
def standard : Exemptions :=
  ofList [.exact "runtime", .exact "sync", .exact "os", .exact "syscall", .below "internal",
    .exact "math", .exact "unsafe"]

def isExempt (e : Exemptions) (path : String) : Bool :=
  Text.containsSorted path e.exact || e.below.any (isBelow path)

def shouldGuard (e : Exemptions) (path : String) : Bool :=
  !e.isExempt path

/-! ### Text -/

/-- Adds an item; a comma comes before it unless nothing is written yet. -/
def appendItem (written item : String) : String :=
  if written.isEmpty then item else written ++ "," ++ item

def text (e : Exemptions) : String :=
  (e.exact ++ e.below.map (· ++ "/*")).foldl appendItem ""

inductive ParseError where
  | empty
  | leadingSlash (entry : String)
  | invalid (entry : String)
  deriving DecidableEq, Repr

def ParseError.message : ParseError → String
  | empty => "empty exemption entry"
  | leadingSlash entry => "exemption entry '" ++ entry ++ "' must not start with '/'"
  | invalid entry => "invalid exemption entry '" ++ entry ++ "'"

def ParseError.diagnostic (e : ParseError) : Diagnostic :=
  { message := e.message }

/-- The pieces between commas; a text without commas is one piece. -/
def pieces : List Char → List (List Char)
  | [] => [[]]
  | c :: cs =>
    if c = ',' then [] :: pieces cs
    else
      match pieces cs with
      | [] => [[c]]
      | piece :: rest => (c :: piece) :: rest

def isBlank (c : Char) : Bool :=
  c = ' ' || c = '\t'

def trim (cs : List Char) : List Char :=
  ((cs.dropWhile isBlank).reverse.dropWhile isBlank).reverse

/-- The directory of an entry that ends in `/*`. -/
def directory? (cs : List Char) : Option (List Char) :=
  match cs.reverse with
  | '*' :: '/' :: dir => some dir.reverse
  | _ => none

/-- Reads one entry without blanks around it. -/
def parseEntry (cs : List Char) : Except ParseError Exemption :=
  let entry := String.ofList cs
  if cs.isEmpty then .error .empty
  else if cs.head? = some '/' then .error (.leadingSlash entry)
  else
    match directory? cs with
    | some dir =>
      if dir.isEmpty ∨ dir.contains '*' then .error (.invalid entry)
      else .ok (.below (String.ofList dir))
    | none =>
      if cs.contains '*' then .error (.invalid entry) else .ok (.exact entry)

def parseEntries : List (List Char) → Except ParseError (List Exemption)
  | [] => .ok []
  | piece :: rest => do
    let entry ← parseEntry (trim piece)
    let entries ← parseEntries rest
    return entry :: entries

/-- Reads a list of exemptions. The error is that of the first entry that is wrong. -/
def parse (s : String) : Except ParseError Exemptions := do
  let entries ← parseEntries (pieces s.toList)
  return ofList entries

end Exemptions

end GuardedIL

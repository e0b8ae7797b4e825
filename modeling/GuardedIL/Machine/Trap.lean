import GuardedIL.Syntax.Operand
import GuardedIL.Text

/-!
# Traps

A run that goes wrong ends in a trap: a cause and the site of the instruction that was running. What
is reported about a cause is its fault, whose message ends at the first NUL; only the name of an
unknown entry function is reported whole.
-/

namespace GuardedIL

inductive TrapKind where
  | divideByZero | overflow | domainError | runtimeError
  deriving DecidableEq, Repr, Inhabited

def TrapKind.name : TrapKind → String
  | divideByZero => "DivideByZero"
  | overflow => "Overflow"
  | domainError => "DomainError"
  | runtimeError => "RuntimeError"

/-- The kind with a number; numbers without a kind of their own are runtime errors. -/
def TrapKind.ofNumber (n : Int) : TrapKind :=
  if n = 0 then divideByZero
  else if n = 1 then overflow
  else if n = 2 then domainError
  else runtimeError

/-- What is raised. A fault may have an instruction index other than zero and a line that is not
negative of its own, which then count instead of those of the site. -/
structure Fault where
  kind : TrapKind := .runtimeError
  code : Int32 := 0
  message : String := ""
  ip : Nat := 0
  line : Int32 := -1
  deriving DecidableEq, Repr, Inhabited

/-- The place of an instruction in a run. A negative line is unknown. -/
structure Site where
  func : String := ""
  block : String := ""
  ip : Nat := 0
  line : Int32 := -1
  deriving DecidableEq, Repr, Inhabited

/-- A fault as it is shown to the user. -/
def Fault.textAt (f : Fault) (s : Site) : String :=
  let func := if s.func.isEmpty then "<unknown>" else s.func
  let block := if s.block.isEmpty then "" else ":" ++ s.block
  let ip := if f.ip = 0 then s.ip else f.ip
  let line := if 0 ≤ f.line then f.line else s.line
  let lineText := if 0 ≤ line then " line " ++ toString line.toInt else ""
  let message := if f.message.isEmpty then "" else ": " ++ f.message
  "Trap @" ++ func ++ block ++ "#" ++ toString ip ++ lineText ++ ": " ++ f.kind.name ++
    " (code=" ++ toString f.code.toInt ++ ")" ++ message

/-- Why a run ends in a trap. `malformed` is an instruction that lacks an operand or a label. -/
inductive Cause where
  | undefinedTemp (id : TempId)
  | globalAsValue (name : String)
  | divisionByZero
  | unknownGlobal (name : String)
  | unresolvedExtern (name : String)
  | unknownBlock (label : String)
  | branchArgCount (label : String)
  | noTerminator (label : String)
  | trapInstr
  | depthExceeded (func : String)
  | noBody (func : String)
  | argCount (func : String)
  | malformed
  | unknownFunc (name : String)
  | raised (fault : Fault)
  deriving DecidableEq, Repr

namespace Cause

def runtimeFault (message : String) : Fault :=
  { message := Text.untilNul message }

def fault : Cause → Fault
  | undefinedTemp id => runtimeFault ("use of undefined temporary " ++ TempId.text id)
  | globalAsValue name => runtimeFault ("global address of @" ++ name ++ " used as a value")
  | divisionByZero => { kind := .divideByZero, message := "integer divide by zero" }
  | unknownGlobal name => runtimeFault ("unknown global @" ++ name)
  | unresolvedExtern name => runtimeFault ("unresolved extern @" ++ name)
  | unknownBlock label => runtimeFault ("unknown block '" ++ label ++ "'")
  | branchArgCount label => runtimeFault ("branch argument count mismatch for '" ++ label ++ "'")
  | noTerminator label => runtimeFault ("block '" ++ label ++ "' has no terminator")
  | trapInstr => { kind := .domainError, message := "trap" }
  | depthExceeded func => runtimeFault ("call depth exceeded in @" ++ func)
  | noBody func => runtimeFault ("function @" ++ func ++ " has no body")
  | argCount func => runtimeFault ("argument count mismatch calling @" ++ func)
  | malformed => runtimeFault "malformed instruction"
  | unknownFunc name => { message := "unknown function @" ++ name }
  | raised f => { f with message := Text.untilNul f.message }

end Cause

structure Trap where
  cause : Cause
  site : Site := {}
  deriving DecidableEq, Repr

def Trap.text (t : Trap) : String :=
  t.cause.fault.textAt t.site

end GuardedIL

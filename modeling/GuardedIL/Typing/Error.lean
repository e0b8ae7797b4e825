import GuardedIL.Diagnostic
import GuardedIL.Text
import GuardedIL.Typing.Scope

/-!
# Typing errors

The reasons for which a program is rejected, and their wording. An error inside a function names the
function, the block and the instruction; only errors of instructions have a place in the source.
-/

namespace GuardedIL

/-- An instruction as diagnostics show it. -/
def Instr.snippet (i : Instr) : String :=
  let result := match i.result with
    | none => ""
    | some id => TempId.text id ++ " = "
  let callee := if i.op = .call then " @" ++ i.callee else ""
  let args := if i.args.isEmpty then "" else " " ++ Text.commaList (i.args.map Operand.text)
  result ++ i.op.name ++ callee ++ args

namespace Typing

/-- A message behind the place it is about. -/
def located (place message : String) : String :=
  if message.isEmpty then place else place ++ ": " ++ message

def inBlock (func label message : String) : String :=
  located (func ++ ":" ++ label) message

def inInstr (func label : String) (i : Instr) (message : String) : String :=
  located (func ++ ":" ++ label ++ ": " ++ i.snippet) message

inductive InstrError where
  | operandCount
  | missingResult
  | unexpectedResult
  | successorCount
  | integerRequired
  | arithmeticOnI1
  | signedDivision
  | unsignedDivision
  | undefinedValue (operand : Operand)
  | operandMismatch
  | comparisonResult
  | castWidth
  | constStrForm
  | unknownGlobal (name : String)
  | unknownCallee (name : String)
  | callArgCount
  | callArgMismatch
  | callResultMismatch
  | voidCallResult
  | conditionType
  | returnForm
  | returnMismatch
  | misplacedTerminator
  | unknownLabel (label : String)
  | branchArgCount
  | branchArgMismatch
  | redefinition (id : TempId)
  deriving DecidableEq, Repr

def InstrError.message : InstrError → String
  | operandCount => "invalid operand count"
  | missingResult => "missing result"
  | unexpectedResult => "unexpected result"
  | successorCount => "invalid successor count"
  | integerRequired => "integer type required"
  | arithmeticOnI1 => "arithmetic on i1"
  | signedDivision => "signed division requires a signed type"
  | unsignedDivision => "unsigned division requires an unsigned type"
  | undefinedValue operand => "use of undefined value " ++ operand.text
  | operandMismatch => "operand type mismatch"
  | comparisonResult => "comparison must produce i1"
  | castWidth => "invalid cast width"
  | constStrForm => "const_str requires a global operand and str result"
  | unknownGlobal name => "unknown global @" ++ name
  | unknownCallee name => "unknown callee @" ++ name
  | callArgCount => "call argument count mismatch"
  | callArgMismatch => "call argument type mismatch"
  | callResultMismatch => "call result type mismatch"
  | voidCallResult => "void call cannot produce a result"
  | conditionType => "branch condition must be i1"
  | returnForm => "return value does not match function type"
  | returnMismatch => "return type mismatch"
  | misplacedTerminator => "terminator not at end of block"
  | unknownLabel label => "unknown label " ++ label
  | branchArgCount => "branch argument count mismatch"
  | branchArgMismatch => "branch argument type mismatch"
  | redefinition id => "redefinition of " ++ TempId.text id

inductive BlockError where
  | duplicateLabel
  | empty
  | missingTerminator
  | redefinition (id : TempId)
  deriving DecidableEq, Repr

def BlockError.message : BlockError → String
  | duplicateLabel => "duplicate label"
  | empty => "empty block"
  | missingTerminator => "missing terminator"
  | redefinition id => "redefinition of " ++ TempId.text id

inductive FuncError where
  | noBlocks
  | emptyLabel
  | duplicateParam (id : TempId)
  | block (label : String) (error : BlockError)
  | instr (label : String) (instr : Instr) (error : InstrError)
  deriving DecidableEq, Repr

def FuncError.message (func : String) : FuncError → String
  | noBlocks => func ++ ": function has no blocks"
  | emptyLabel => func ++ ": empty block label"
  | duplicateParam id => func ++ ": duplicate parameter " ++ TempId.text id
  | block label error => inBlock func label error.message
  | instr label i error => inInstr func label i error.message

def FuncError.loc : FuncError → Loc
  | instr _ i _ => i.loc
  | _ => {}

inductive ProgramError where
  | duplicateExtern (name : String)
  | duplicateFunc (name : String)
  | duplicateGlobal (name : String)
  | globalType (name : String)
  | func (name : String) (error : FuncError)
  deriving DecidableEq, Repr

def ProgramError.message : ProgramError → String
  | duplicateExtern name => "duplicate extern @" ++ name
  | duplicateFunc name => "duplicate function @" ++ name
  | duplicateGlobal name => "duplicate global @" ++ name
  | globalType name => "global @" ++ name ++ " must be str"
  | func name error => error.message name

def ProgramError.loc : ProgramError → Loc
  | func _ error => error.loc
  | _ => {}

def FuncError.diagnostic (func : String) (e : FuncError) : Diagnostic :=
  { message := e.message func, loc := e.loc }

def ProgramError.diagnostic (e : ProgramError) : Diagnostic :=
  { message := e.message, loc := e.loc }

/-- Fails with `e` unless the condition holds. -/
def require {ε : Type} (condition : Bool) (e : ε) : Except ε Unit :=
  if condition then .ok () else .error e

end Typing

end GuardedIL

import GuardedIL.Syntax.Opcode
import GuardedIL.Syntax.Operand
import GuardedIL.Syntax.Ty

/-!
# Programs

A program is one compilation unit. Nothing here demands that it is well formed: labels may repeat,
operands may be missing and branches may lead nowhere. Where a name is looked up, the first
declaration of that name counts.
-/

namespace GuardedIL

/-- A place in a source file. Line zero means that the place is unknown. -/
structure Loc where
  file : UInt32 := 0
  line : UInt32 := 0
  column : UInt32 := 0
  deriving DecidableEq, Repr, Inhabited

/-- One instruction. `labelArgs` holds the arguments passed to each successor of `labels`; `checked`
marks arithmetic that a guard protects and `wraps` the helper arithmetic inside a guard. -/
structure Instr where
  result : Option TempId := none
  op : Opcode
  ty : Ty := .void
  args : List Operand := []
  callee : String := ""
  labels : List String := []
  labelArgs : List (List Operand) := []
  loc : Loc := {}
  checked : Bool := false
  wraps : Bool := false
  deriving DecidableEq, Repr, Inhabited

structure Param where
  name : String := ""
  ty : Ty := .void
  id : TempId := 0
  deriving DecidableEq, Repr, Inhabited

structure Block where
  label : String := ""
  params : List Param := []
  instrs : List Instr := []
  terminated : Bool := false
  deriving DecidableEq, Repr, Inhabited

/-- A function with its blocks, of which the first is the entry. -/
structure Func where
  name : String := ""
  ret : Ty := .void
  params : List Param := []
  blocks : List Block := []
  valueNames : List String := []
  deriving DecidableEq, Repr, Inhabited

structure Extern where
  name : String := ""
  ret : Ty := .void
  params : List Ty := []
  deriving DecidableEq, Repr, Inhabited

structure Global where
  name : String := ""
  ty : Ty := .str
  init : String := ""
  deriving DecidableEq, Repr, Inhabited

structure Program where
  version : String := "0.1"
  package : String := ""
  externs : List Extern := []
  globals : List Global := []
  funcs : List Func := []
  deriving DecidableEq, Repr, Inhabited

/-- The arguments passed to successor number `n`, none if the instruction lists none. -/
def Instr.argsTo (i : Instr) (n : Nat) : List Operand :=
  i.labelArgs.getD n []

def Func.blockLabelled? (f : Func) (label : String) : Option Block :=
  f.blocks.find? (·.label == label)

/-- The instructions of a function in the order of the text. -/
def Func.instrs (f : Func) : List Instr :=
  f.blocks.flatMap (·.instrs)

def Func.instrCount (f : Func) : Nat :=
  f.instrs.length

namespace Program

/-- The instructions of a program in the order of the text. -/
def instrs (p : Program) : List Instr :=
  p.funcs.flatMap Func.instrs

def instrCount (p : Program) : Nat :=
  p.instrs.length

def funcNamed? (p : Program) (name : String) : Option Func :=
  p.funcs.find? (·.name == name)

def externNamed? (p : Program) (name : String) : Option Extern :=
  p.externs.find? (·.name == name)

def globalNamed? (p : Program) (name : String) : Option Global :=
  p.globals.find? (·.name == name)

end Program

end GuardedIL

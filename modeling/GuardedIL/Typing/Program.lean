import GuardedIL.Typing.Instr

/-!
# Typing of programs

`Program.verify` accepts a program whose names are unique, whose blocks end in their only terminator
and whose instructions are well typed and branch to existing blocks with fitting arguments. It
reports the first rule that is broken, in the order of the text.
-/

namespace GuardedIL

namespace Typing

/-- The first item whose name an earlier item or a name of `seen` has. -/
def firstRepeated? {α : Type} (name : α → String) (seen : List String) : List α → Option α
  | [] => none
  | x :: xs =>
    if name x ∈ seen then some x else firstRepeated? name (name x :: seen) xs

/-- Successor number `n` exists and takes the arguments passed to it. -/
def checkTarget (c : Context) (i : Instr) (n : Nat) (label : String) : Except InstrError Unit :=
  match c.func.blockLabelled? label with
  | none => .error (.unknownLabel label)
  | some target => do
    let args := i.argsTo n
    require (args.length = target.params.length) .branchArgCount
    (target.params.zip args).forM fun (param, o) =>
      require (c.scope.operandTy? param.ty o = some param.ty) .branchArgMismatch

def checkTargets (c : Context) (i : Instr) : Except InstrError Unit :=
  i.labels.zipIdx.forM fun (label, n) => checkTarget c i n label

/-- An instruction in its place: `last` says whether it ends the block. -/
def checkPlaced (c : Context) (last : Bool) (i : Instr) : Except InstrError Unit := do
  require (i.op.isTerminator → last) .misplacedTerminator
  checkInstr c i
  checkTargets c i

def checkInstrs (c : Context) (label : String) : List Instr → Except FuncError Unit
  | [] => .ok ()
  | i :: rest => do
    (checkPlaced c rest.isEmpty i).mapError (FuncError.instr label i)
    checkInstrs c label rest

def checkBlock (c : Context) (b : Block) : Except FuncError Unit :=
  match b.instrs.getLast? with
  | none => .error (.block b.label .empty)
  | some last => do
    require last.op.isTerminator (.block b.label .missingTerminator)
    checkInstrs c b.label b.instrs

/-- Labels are not empty and do not repeat. -/
def checkLabels (seen : List String) : List Block → Except FuncError Unit
  | [] => .ok ()
  | b :: rest => do
    require (b.label ≠ "") .emptyLabel
    require (b.label ∉ seen) (.block b.label .duplicateLabel)
    checkLabels (b.label :: seen) rest

def redefinition (d : Def) : FuncError :=
  match d.origin with
  | .param => .duplicateParam d.id
  | .blockParam label => .block label (.redefinition d.id)
  | .result label i => .instr label i (.redefinition d.id)

end Typing

open Typing

/-- The temporaries defined before the first repetition, and the error of that repetition. -/
def Func.collect (f : Func) : Scope × Option FuncError :=
  let (scope, repeated) := Scope.collect [] f.defs
  (scope, repeated.map redefinition)

namespace Program

def checkFunc (p : Program) (f : Func) : Except FuncError Unit := do
  require (¬ f.blocks.isEmpty) .noBlocks
  checkLabels [] f.blocks
  match f.collect with
  | (_, some e) => .error e
  | (scope, none) => f.blocks.forM (checkBlock ⟨p, f, scope⟩)

/-- External functions and functions share their names; globals have their own and are strings. -/
def checkNames (p : Program) : Except ProgramError Unit := do
  match firstRepeated? Extern.name [] p.externs with
  | some e => .error (.duplicateExtern e.name)
  | none => .ok ()
  match firstRepeated? Func.name (p.externs.map Extern.name) p.funcs with
  | some f => .error (.duplicateFunc f.name)
  | none => .ok ()

def checkGlobals (seen : List String) : List Global → Except ProgramError Unit
  | [] => .ok ()
  | g :: rest => do
    require (g.name ∉ seen) (.duplicateGlobal g.name)
    require (g.ty = .str) (.globalType g.name)
    checkGlobals (g.name :: seen) rest

def verify (p : Program) : Except ProgramError Unit := do
  p.checkNames
  checkGlobals [] p.globals
  p.funcs.forM fun f => (p.checkFunc f).mapError (ProgramError.func f.name)

end Program

end GuardedIL

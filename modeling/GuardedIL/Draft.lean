import GuardedIL.Syntax.Program
import GuardedIL.Text

/-!
# Drafts

A draft is a program that is being written, with the place where the next instruction goes. Every
function has its own counter for temporaries, which starts at zero with the function, and a name,
possibly empty, for each of them. Numbers are 32-bit words.

The place stands for a reference to a block, which is good only until the next block or function is made:
make the blocks of a function first, then choose a place. Instructions may be added at a good place only;
what they do elsewhere means nothing.
-/

namespace GuardedIL

/-- `callees` holds the return type of everything that can be called, the latest first. The place is
the number of a function and of a block in it. -/
structure Draft where
  program : Program := {}
  callees : List (String × Ty) := []
  nextTemp : TempId := 0
  current : Option Nat := none
  place : Option (Nat × Nat) := none
  deriving DecidableEq, Repr, Inhabited

inductive DraftError where
  | unknownCallee (name : String)
  deriving DecidableEq, Repr

/-- The wording ends at the first NUL. -/
def DraftError.message : DraftError → String
  | unknownCallee name => Text.untilNul ("emitCall: unknown callee '" ++ name ++ "'")

/-- A list of names of length `count`: cut, or filled with empty names. -/
def resizeNames (names : List String) (count : Nat) : List String :=
  names.take count ++ List.replicate (count - names.length) ""

/-- Makes room for the name of a temporary. -/
def coverName (names : List String) (id : TempId) : List String :=
  if names.length ≤ id.toNat then resizeNames names (id + 1).toNat else names

namespace Draft

/-- A draft that goes on with a program. External functions hide functions of the same name. -/
def ofProgram (p : Program) : Draft :=
  { program := p
    callees := (p.funcs.map (fun f => (f.name, f.ret)) ++
      p.externs.map (fun e => (e.name, e.ret))).reverse }

def modifyFunc (d : Draft) (n : Nat) (change : Func → Func) : Draft :=
  { d with program := { d.program with funcs := d.program.funcs.modify n change } }

def modifyCurrent (d : Draft) (change : Func → Func) : Draft :=
  match d.current with
  | none => d
  | some n => d.modifyFunc n change

/-! ### Declarations -/

def addExtern (d : Draft) (e : Extern) : Draft :=
  { d with
    program := { d.program with externs := d.program.externs ++ [e] }
    callees := (e.name, e.ret) :: d.callees }

def addGlobal (d : Draft) (name init : String) : Draft :=
  { d with program := { d.program with globals := d.program.globals ++ [{ name, init }] } }

def numberParams (next : TempId) : List Param → List Param × TempId
  | [] => ([], next)
  | p :: rest =>
    let (others, next') := numberParams (next + 1) rest
    ({ p with id := next } :: others, next')

/-- Starts a function; there is no place for instructions until one is chosen. -/
def startFunc (d : Draft) (name : String) (ret : Ty) (params : List Param) : Draft :=
  let (params, next) := numberParams 0 params
  let f : Func := { name, ret, params, valueNames := params.map (·.name) }
  { d with
    program := { d.program with funcs := d.program.funcs ++ [f] }
    callees := (name, ret) :: d.callees
    nextTemp := next
    current := some d.program.funcs.length
    place := none }

def nameParam (names : List String) (p : Param) : List String :=
  (coverName names p.id).set p.id.toNat p.name

def addBlock (d : Draft) (n : Nat) (label : String) (params : List Param) : Draft :=
  let (params, next) := numberParams d.nextTemp params
  let b : Block := { label, params }
  { d with nextTemp := next }.modifyFunc n fun f =>
    { f with
      blocks := f.blocks ++ [b]
      valueNames := params.foldl nameParam f.valueNames }

def setPlace (d : Draft) (func block : Nat) : Draft :=
  { d with place := some (func, block) }

/-! ### Instructions -/

def reserve (d : Draft) : TempId × Draft :=
  let d' := d.modifyCurrent fun f => { f with valueNames := coverName f.valueNames d.nextTemp }
  (d.nextTemp, { d' with nextTemp := d.nextTemp + 1 })

/-- Adds an instruction at the chosen place, which must be good. A terminator ends the block. -/
def append (d : Draft) (i : Instr) : Draft :=
  match d.place with
  | none => d
  | some (func, block) =>
    d.modifyFunc func fun f =>
      { f with blocks := f.blocks.modify block fun b =>
        { b with
          instrs := b.instrs ++ [i]
          terminated := b.terminated || i.op.isTerminator } }

def emit (d : Draft) (i : Instr) : Operand × Draft :=
  let (id, d) := d.reserve
  (.temp id, d.append { i with result := some id })

def binary (d : Draft) (op : Opcode) (ty : Ty) (a b : Operand) (loc : Loc) : Operand × Draft :=
  d.emit { op, ty, args := [a, b], loc }

def compare (d : Draft) (op : Opcode) (a b : Operand) (loc : Loc) : Operand × Draft :=
  d.emit { op, ty := .i1, args := [a, b], loc }

def cast (d : Draft) (op : Opcode) (ty : Ty) (a : Operand) (loc : Loc) : Operand × Draft :=
  d.emit { op, ty, args := [a], loc }

def br (d : Draft) (target : Block) (args : List Operand) : Draft :=
  d.append { op := .br, labels := [target.label], labelArgs := [args] }

def cbr (d : Draft) (condition : Operand) (yes : Block) (yesArgs : List Operand) (no : Block)
    (noArgs : List Operand) : Draft :=
  d.append
    { op := .cbr, args := [condition], labels := [yes.label, no.label]
      labelArgs := [yesArgs, noArgs] }

def ret (d : Draft) (value : Option Operand) (loc : Loc) : Draft :=
  d.append { op := .ret, args := value.toList, loc }

def trap (d : Draft) (loc : Loc) : Draft :=
  d.append { op := .trap, loc }

/-- Moves the counter past a temporary that was chosen by hand. -/
def passOver (d : Draft) (id : TempId) : Draft :=
  if id < d.nextTemp then d
  else
    { d with nextTemp := id + 1 }.modifyCurrent fun f =>
      { f with valueNames := coverName f.valueNames id }

/-- Adds a call of something that is declared; its result, if any, goes to a given temporary. -/
def call (d : Draft) (callee : String) (args : List Operand) (result : Option TempId) (loc : Loc) :
    Except DraftError Draft :=
  match d.callees.lookup callee with
  | none => .error (.unknownCallee callee)
  | some ty =>
    let d := match result with
      | none => d
      | some id => d.passOver id
    .ok (d.append { op := .call, ty, callee, args, result, loc })

end Draft

end GuardedIL

import GuardedIL.Machine.Host
import GuardedIL.Overflow.FreshNames
import GuardedIL.Overflow.Predicate

/-!
# Guards

A guard computes the predicate of an instruction ahead of it, branches to a fault block if the
predicate holds, and goes on with the instruction in a block of its own otherwise. Splitting a block
at the instruction puts the guard in its place.
-/

namespace GuardedIL.Overflow

/-- The global that holds the text of the fault. -/
def messageGlobal : String := "ovf.msg"

def overflowMessage : String := "integer overflow"

structure Guard where
  check : List Instr
  condition : Operand
  guarded : Instr
  faultLabel : String
  contLabel : String
  fault : List Instr
  deriving DecidableEq, Repr, Inhabited

/-! ### Lowering a predicate -/

def tyOfBits (bits : Int) : Ty :=
  if bits = 1 then .i1
  else if bits = 8 then .i8
  else if bits = 16 then .i16
  else if bits = 32 then .i32
  else .i64

def StepOp.opcode : StepOp → Opcode
  | add => .arith .add
  | sub => .arith .sub
  | mul => .arith .mul
  | sdiv => .arith .sdiv
  | bitOr | or => .bitwise .or
  | and => .bitwise .and
  | eq => .compare .eq
  | ne => .compare .ne
  | lt => .compare .slt
  | le => .compare .sle
  | gt => .compare .sgt
  | ge => .compare .sge

/-- An operand of the guarded instruction; an integer literal is read at the width. -/
def atWidth (bits : Int) : Operand → Operand
  | .int v => .int (Word.signExtend bits v)
  | o => o

/-- The operands that hold the values of the steps so far, and the instructions that compute them. -/
structure Lowering where
  values : Array Operand := #[]
  instrs : List Instr := []
  names : FreshNames

namespace Lowering

def operandAt (l : Lowering) (n : Option Nat) : Operand :=
  (n.bind (l.values[·]?)).getD (.temp 0)

/-- A step whose value an operand holds already. -/
def reuse (l : Lowering) (o : Operand) : Lowering :=
  { l with values := l.values.push o }

/-- A step whose value an instruction computes into a fresh temporary. -/
def emit (l : Lowering) (op : Opcode) (bits : Int) (args : List Operand) (loc : Loc) : Lowering :=
  let (id, names) := l.names.takeTemp
  let i : Instr := { result := some id, op, ty := tyOfBits bits, args, loc, wraps := true }
  { values := l.values.push (.temp id), instrs := l.instrs ++ [i], names }

/-- Lowers one step for the instruction `i`. A literal is its own sign extension. -/
def step (i : Instr) (l : Lowering) (s : Step) : Lowering :=
  match s.kind with
  | .left => l.reuse (atWidth s.bits (i.args.getD 0 (.temp 0)))
  | .right => l.reuse (atWidth s.bits (i.args.getD 1 (.temp 0)))
  | .const => l.reuse (.int s.value)
  | .sext =>
    let a := l.operandAt s.lhs
    if a.isNumeric then l.reuse a else l.emit (.cast .sext) s.bits [a] i.loc
  | .zext => l.emit (.cast .zext) s.bits [l.operandAt s.lhs] i.loc
  | .op o => l.emit o.opcode s.bits [l.operandAt s.lhs, l.operandAt s.rhs] i.loc

end Lowering

def faultInstrs (id : TempId) (loc : Loc) : List Instr :=
  [{ result := some id, op := .constStr, ty := .str, args := [.global messageGlobal], loc },
    { op := .call, callee := Host.panicName, args := [.temp id], loc },
    { op := .trap, loc }]

namespace Guard

/-- The guard of an instruction. Temporaries of the check come first, then the labels, then the
temporary of the fault. -/
def ofInstr (i : Instr) (p : Predicate) (names : FreshNames) : Guard × FreshNames :=
  let lowered := p.steps.foldl (Lowering.step i) { names }
  let ((faultLabel, contLabel), names) := lowered.names.takeLabels
  let (id, names) := names.takeTemp
  ({ check := lowered.instrs
     condition := lowered.values.back?.getD (.temp 0)
     guarded := { i with checked := true }
     faultLabel
     contLabel
     fault := faultInstrs id i.loc }, names)

def branch (g : Guard) : Instr :=
  { op := .cbr, args := [g.condition], labels := [g.faultLabel, g.contLabel], labelArgs := [[], []]
    loc := g.guarded.loc }

/-- The block up to the guarded instruction: `before` it, then the check. -/
def headBlock (g : Guard) (b : Block) (before : List Instr) : Block :=
  { b with instrs := before ++ g.check ++ [g.branch], terminated := true }

def faultBlock (g : Guard) : Block :=
  { label := g.faultLabel, instrs := g.fault, terminated := true }

def contBlock (g : Guard) (b : Block) (after : List Instr) : Block :=
  { label := g.contLabel, instrs := g.guarded :: after, terminated := b.terminated }

end Guard

end GuardedIL.Overflow

namespace GuardedIL

open Overflow

def Block.split (b : Block) (n : Nat) (g : Guard) : List Block :=
  [g.headBlock b (b.instrs.take n), g.faultBlock, g.contBlock b (b.instrs.drop (n + 1))]

/-- Splits block number `k` at instruction number `n`; also returns the number of the block in which
the instruction is now. -/
def Func.splice (f : Func) (k n : Nat) (g : Guard) : Func × Nat :=
  let pieces := (f.blocks[k]?.map (·.split n g)).getD []
  ({ f with blocks := f.blocks.take k ++ pieces ++ f.blocks.drop (k + 1) }, k + 2)

end GuardedIL

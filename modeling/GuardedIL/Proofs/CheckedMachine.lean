import GuardedIL.Proofs.Preservation
import GuardedIL.Proofs.Check

/-!
# The checked machine

The checked machine runs a program as the machine does, but stops ahead of every instruction whose
exact result does not fit. It says what guards are for without any guard: whether an instruction
overflows is a fact about integers, and the predicate of a candidate decides it.
-/

namespace GuardedIL.Overflow

open Typing Machine

variable {σ : Type}

/-- What the checked machine raises. -/
def overflowFault : Fault :=
  { kind := .overflow, message := overflowMessage }

/-- The next instruction is a candidate whose exact result, on its operands as it reads them, does
not fit its width. -/
def overflowsAt (fr : Frame) (i : Instr) : Bool :=
  match GuardOp.ofOpcode? i.op, Width.ofTy? i.ty, i.args with
  | some op, some width, a :: b :: _ =>
    if i.checked ∨ i.wraps then false
    else
      match fr.readWord i.ty a, fr.readWord i.ty b with
      | .ok x, .ok y => (⟨op, width⟩ : Candidate).Overflows x.toInt y.toInt
      | _, _ => false
  | _, _, _ => false

/-- Runs the next instruction, unless it overflows. -/
def checkedStep (p : Program) (host : Host σ) (c : Config σ) : Machine.Step σ :=
  match c.frame.block.instrs[c.frame.ip]? with
  | none => step p host c
  | some i =>
    if overflowsAt (c.frame.advance i) i then
      .halt (.trapped ⟨.raised overflowFault, (c.frame.advance i).site⟩) c.state
    else step p host c

/-- Runs a function of the program on the checked machine. -/
def checkedRun (p : Program) (host : Host σ) (bound : Nat) (name : String) (args : List Value)
    (state : σ) : Option (Outcome × σ) :=
  match start p name args state with
  | .error cause => some (.trapped ⟨cause, {}⟩, state)
  | .ok c => iterate (checkedStep p host) bound c

/-- The same value is returned, or a trap has the same cause in the same function on the same line.
Only the block and the index of its site may differ. -/
inductive Agrees : Outcome → Outcome → Prop
  | returned (v : Option Value) : Agrees (.returned v) (.returned v)
  | trapped (cause : Cause) (site site' : Site) (func : site'.func = site.func)
    (line : site'.line = site.line) : Agrees (.trapped ⟨cause, site⟩) (.trapped ⟨cause, site'⟩)

/-- A checked run ends in one way only, whatever bound it is given. -/
theorem checkedRun_unique {p : Program} {host : Host σ} {bound bound' : Nat} {name : String}
    {args : List Value} {state : σ} {result result' : Outcome × σ}
    (one : checkedRun p host bound name args state = some result)
    (two : checkedRun p host bound' name args state = some result') : result = result' := by
  unfold checkedRun at one two
  cases starts : start p name args state with
  | error cause =>
    rw [starts] at one two
    exact Option.some.inj (one.symm.trans two)
  | ok c =>
    rw [starts] at one two
    exact iterate_unique one two

/-! ### Overflow of an instruction -/

theorem candidate?_of_typed {context : Context} {i : Instr} {op : GuardOp} {width : Width}
    (typed : Typed context i) (isOp : GuardOp.ofOpcode? i.op = some op)
    (ty : Width.ofTy? i.ty = some width) (unmarked : ¬ (i.checked = true ∨ i.wraps = true)) :
    candidate? i = some ⟨op, width⟩ := by
  cases typed with
  | arith arithOp a b opcode args result labels integer number signed unsigned left right =>
    have noResult : i.result.isNone = false := by
      simpa [Option.isNone_iff_eq_none, Option.isSome_iff_ne_none] using result
    rw [opcode] at isOp
    have signs : ¬ (arithOp.dividesSigned = true ∧ i.ty.isSigned = false) ∧
        ¬ (arithOp.dividesUnsigned = true ∧ i.ty.isSigned = true) :=
      ⟨fun ⟨divides, sign⟩ => by simp [signed divides] at sign,
        fun ⟨divides, sign⟩ => unsigned divides sign⟩
    simp only [candidate?, classify, opcode, integer, number, args, noResult, unmarked, isOp, ty]
    simp [signs]
  | _ => simp_all [GuardOp.ofOpcode?]

theorem overflowsAt_other {context : Context} {fr : Frame} {i : Instr} (typed : Typed context i)
    (other : candidate? i = none) : overflowsAt fr i = false := by
  unfold overflowsAt
  split
  · rename_i op width a b rest isOp ty args
    split
    · rfl
    · rename_i unmarked
      rw [candidate?_of_typed typed isOp ty unmarked] at other
      exact absurd other (by simp)
  · rfl

theorem overflowsAt_candidate {fr : Frame} {i : Instr} {c : Candidate} {a b : Operand} {x y : Int64}
    (candidate : IsCandidate i c) (args : i.args = [a, b]) (readA : fr.readWord i.ty a = .ok x)
    (readB : fr.readWord i.ty b = .ok y) :
    overflowsAt fr i = decide (c.Overflows x.toInt y.toInt) := by
  simp only [overflowsAt, candidate.op, ofTy?_eq_some.mpr candidate.ty, args, candidate.unchecked,
    candidate.exact, readA, readB]
  simp

theorem toInt_bmod_normal {w : Width} {x : Int64} (normal : w.ty.normalize x = x) :
    x.toInt.bmod (2 ^ w.bits) = x.toInt := by
  have bound := w.bits_le
  rw [← tyOfBits_width, normalize_word w.bits_mem] at normal
  rw [← Word.toInt_signExtend w.bits_pos (by omega), normal]

theorem evaluate_normal (c : Candidate) (s : MulStrategy) {x y : Int64}
    (normalX : c.width.ty.normalize x = x) (normalY : c.width.ty.normalize y = y) :
    (c.predicate s).evaluate x y = decide (c.Overflows x.toInt y.toInt) := by
  rw [evaluate_predicate, toInt_bmod_normal normalX, toInt_bmod_normal normalY]

end GuardedIL.Overflow

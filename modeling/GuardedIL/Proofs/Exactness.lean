import GuardedIL.Proofs.Schedules

/-!
# Predicates are exact

A candidate overflows if the exact result of its operands, read at the width, is not a number of the
width. `predicate_exact` shows that the predicates say so on every pair of words.
-/

namespace GuardedIL.Overflow

/-- The exact result of an operation. There is no quotient by zero. -/
def GuardOp.exactResult? : GuardOp → Int → Int → Option Int
  | add, a, b => some (a + b)
  | sub, a, b => some (a - b)
  | mul, a, b => some (a * b)
  | div, a, b => if b = 0 then none else some (a.tdiv b)

/-- The signed numbers of a width. -/
def Width.Holds (w : Width) (z : Int) : Prop :=
  -2 ^ (w.bits - 1) ≤ z ∧ z ≤ 2 ^ (w.bits - 1) - 1

instance (w : Width) (z : Int) : Decidable (w.Holds z) :=
  inferInstanceAs (Decidable (_ ∧ _))

/-- The exact result exists and is not a number of the width. -/
def Candidate.Overflows (c : Candidate) (a b : Int) : Prop :=
  ∃ z ∈ c.op.exactResult? a b, ¬ c.width.Holds z

instance (c : Candidate) (a b : Int) : Decidable (c.Overflows a b) :=
  inferInstanceAs (Decidable (∃ z ∈ c.op.exactResult? a b, ¬ c.width.Holds z))

/-! ### Conditions as truth values -/

@[simp] theorem truth_and (p q : Bool) : truth p &&& truth q = truth (p && q) := by
  cases p <;> cases q <;> decide

@[simp] theorem truth_or (p q : Bool) : truth p ||| truth q = truth (p || q) := by
  cases p <;> cases q <;> decide

@[simp] theorem truth_and_one (p : Bool) : truth p &&& 1 = truth p := by
  cases p <;> decide

theorem truth_ne_zero (p : Bool) : decide (truth p ≠ 0) = p := by
  cases p <;> decide

/-! ### Integers modulo an even number

`h` is half of the modulus: the numbers of a width are those from `-h` up to `h - 1`. -/

theorem bmod_eq_self {h : Nat} {z : Int} (lower : -h ≤ z) (upper : z < h) :
    z.bmod (2 * h) = z := by
  apply Int.bmod_eq_of_le <;> push_cast <;> omega

section Half

variable {h : Nat} {a b : Int} (lowerA : -h ≤ a) (upperA : a < h) (lowerB : -h ≤ b) (upperB : b < h)
include lowerA upperA lowerB upperB

theorem add_misses_iff :
    (0 ≤ b ∧ (h - 1 - b).bmod (2 * h) < a) ∨ (b < 0 ∧ a < (-h - b).bmod (2 * h)) ↔
      ¬ (-h ≤ a + b ∧ a + b ≤ h - 1) := by
  rcases lt_or_ge b 0 with negative | positive
  · rw [bmod_eq_self (z := -h - b) (by omega) (by omega)]
    omega
  · rw [bmod_eq_self (z := h - 1 - b) (by omega) (by omega)]
    omega

theorem sub_misses_iff :
    (b ≤ 0 ∧ (h - 1 + b).bmod (2 * h) < a) ∨ (0 < b ∧ a < (-h + b).bmod (2 * h)) ↔
      ¬ (-h ≤ a - b ∧ a - b ≤ h - 1) := by
  rcases le_or_gt b 0 with negative | positive
  · rw [bmod_eq_self (z := h - 1 + b) (by omega) (by omega)]
    omega
  · rw [bmod_eq_self (z := -h + b) (by omega) (by omega)]
    omega

omit lowerB upperB in
/-- The only quotient of numbers of a width that is not one is `-h / -1`. -/
theorem tdiv_eq_half (edge : a.tdiv b = h) : b = -1 ∧ a = -h := by
  have unit : b.natAbs = 1 := by
    have quotient : (h : Int).natAbs = a.natAbs / b.natAbs := edge ▸ Int.natAbs_tdiv a b
    rw [Int.natAbs_natCast] at quotient
    by_contra other
    rcases Nat.eq_zero_or_pos b.natAbs with zero | positive
    · rw [zero, Nat.div_zero] at quotient
      omega
    · have smaller : a.natAbs / b.natAbs ≤ a.natAbs / 2 :=
        Nat.div_le_div_left (by omega) (by decide)
      omega
  rcases Int.natAbs_eq b with plus | minus
  · rw [plus, unit, Nat.cast_one, Int.tdiv_one] at edge
    omega
  · rw [minus, unit, Nat.cast_one, Int.tdiv_neg, Int.tdiv_one] at edge
    omega

omit lowerA upperA in
/-- A wrapped product divides back to the other factor only if it did not wrap, or if the quotient
itself wraps. -/
theorem mul_fits_of_divides_back (nonzero : b ≠ 0)
    (back : (((a * b).bmod (2 * h)).tdiv b).bmod (2 * h) = a) (regular : ¬ (a = -h ∧ b = -1)) :
    -h ≤ a * b ∧ a * b ≤ h - 1 := by
  have wrapped := Int.bmod_add_bdiv (a * b) (2 * h)
  have lower := Int.le_bmod (x := a * b) (m := 2 * h) (by omega)
  have upper := Int.bmod_lt (x := a * b) (m := 2 * h) (by omega)
  generalize (a * b).bmod (2 * h) = p at *
  generalize (a * b).bdiv (2 * h) = k at *
  push_cast at lower upper wrapped
  have size : (p.tdiv b).natAbs ≤ p.natAbs := Int.natAbs_tdiv_le_natAbs p b
  by_cases edge : p.tdiv b = h
  · -- The quotient wraps only at `-h / -1`.
    have wraps : (h : Int).bmod (2 * h) = -h := by
      rw [Int.bmod_def, Int.emod_eq_of_lt (by omega) (by push_cast; omega), if_neg (by push_cast; omega)]
      push_cast
      omega
    rw [edge, wraps] at back
    exact (regular ⟨back.symm, (tdiv_eq_half (by omega) (by omega) edge).1⟩).elim
  · -- The remainder is a multiple of the modulus and smaller than the divisor.
    rw [bmod_eq_self (by omega) (by omega)] at back
    have division := Int.mul_tdiv_add_tmod p b
    have remainder : (p.tmod b).natAbs < b.natAbs := by
      rw [Int.natAbs_tmod]
      exact Nat.mod_lt _ (by omega)
    rw [back] at division
    have multiple : (2 * h : Int) ∣ p.tmod b := ⟨-k, by linarith⟩
    have zero : p.tmod b = 0 := Int.eq_zero_of_dvd_of_natAbs_lt_natAbs multiple (by omega)
    have exact : a * b = p := by linarith
    omega

theorem mul_misses_iff (nonzero : b ≠ 0) :
    a ≠ 0 ∧ ((((a * b).bmod (2 * h)).tdiv b).bmod (2 * h) ≠ a ∨ (a = -h ∧ b = -1)) ↔
      ¬ (-h ≤ a * b ∧ a * b ≤ h - 1) := by
  constructor
  · rintro ⟨_, wrong | ⟨rfl, rfl⟩⟩ fits
    · apply wrong
      rw [bmod_eq_self (z := a * b) fits.1 (by omega), Int.mul_tdiv_cancel a nonzero]
      exact bmod_eq_self lowerA upperA
    · omega
  · intro misses
    refine ⟨?_, ?_⟩
    · rintro rfl
      omega
    · by_contra regular
      simp only [not_or, not_not] at regular
      exact misses (mul_fits_of_divides_back lowerB upperB nonzero regular.1 regular.2)

omit lowerB upperB in
theorem div_misses_iff :
    b = -1 ∧ a = -h ↔ b ≠ 0 ∧ ¬ (-h ≤ a.tdiv b ∧ a.tdiv b ≤ h - 1) := by
  constructor
  · rintro ⟨rfl, rfl⟩
    rw [Int.tdiv_neg, Int.tdiv_one]
    omega
  · rintro ⟨_, misses⟩
    have size : (a.tdiv b).natAbs ≤ a.natAbs := Int.natAbs_tdiv_le_natAbs a b
    exact tdiv_eq_half lowerA upperA (by omega)

theorem wide_mul_fits : -(2 * h * h : Nat) ≤ a * b ∧ a * b < (2 * h * h : Nat) := by
  constructor <;> push_cast <;> nlinarith

end Half

/-! ### Steps at a width -/

/-- The number of negative numbers of a width. -/
def Width.half (w : Width) : Nat :=
  2 ^ (w.bits - 1)

theorem Width.bits_pos (w : Width) : 0 < w.bits := by
  cases w <;> decide

theorem Width.bits_le (w : Width) : 2 * w.bits ≤ 64 := by
  cases w <;> decide

theorem Width.two_pow_bits (w : Width) : 2 ^ w.bits = 2 * w.half := by
  cases w <;> decide

theorem Width.two_pow_wide (w : Width) : 2 ^ (2 * w.bits) = 2 * (2 * w.half * w.half) := by
  cases w <;> decide

theorem Width.half_pos (w : Width) : 0 < w.half := by
  cases w <;> decide

theorem Width.holds_iff (w : Width) (z : Int) :
    w.Holds z ↔ -w.half ≤ z ∧ z ≤ w.half - 1 := by
  simp [Width.Holds, Width.half]

section Steps

variable {n : Nat} (positive : 0 < n) (wide : n ≤ 64) (a b : Expr) (l r : Int64)
include positive wide

theorem toInt_add : ((Expr.op .add n a b).value l r).toInt =
    ((a.value l r).toInt + (b.value l r).toInt).bmod (2 ^ n) := by
  rw [Expr.value, StepOp.apply, Word.toInt_signExtend positive wide, Int64.toInt_add,
    Int.bmod_bmod_of_dvd (Nat.pow_dvd_pow 2 wide)]

theorem toInt_sub : ((Expr.op .sub n a b).value l r).toInt =
    ((a.value l r).toInt - (b.value l r).toInt).bmod (2 ^ n) := by
  rw [Expr.value, StepOp.apply, Word.toInt_signExtend positive wide, Int64.toInt_sub,
    Int.bmod_bmod_of_dvd (Nat.pow_dvd_pow 2 wide)]

theorem toInt_mul : ((Expr.op .mul n a b).value l r).toInt =
    ((a.value l r).toInt * (b.value l r).toInt).bmod (2 ^ n) := by
  rw [Expr.value, StepOp.apply, Word.toInt_signExtend positive wide, Int64.toInt_mul,
    Int.bmod_bmod_of_dvd (Nat.pow_dvd_pow 2 wide)]

theorem toInt_sdiv (nonzero : b.value l r ≠ 0) : ((Expr.op .sdiv n a b).value l r).toInt =
    ((a.value l r).toInt.tdiv (b.value l r).toInt).bmod (2 ^ n) := by
  rw [Expr.value, StepOp.apply, if_neg nonzero, Word.toInt_signExtend positive wide,
    Int64.toInt_div, Int.bmod_bmod_of_dvd (Nat.pow_dvd_pow 2 wide)]

end Steps

section Operands

variable (w : Width) (l r : Int64)

theorem toInt_left : ((Expr.left w.bits).value l r).toInt = l.toInt.bmod (2 * w.half) := by
  have bound := w.bits_le
  rw [Expr.value, Word.toInt_signExtend w.bits_pos (by omega), w.two_pow_bits]

theorem toInt_right : ((Expr.right w.bits).value l r).toInt = r.toInt.bmod (2 * w.half) := by
  have bound := w.bits_le
  rw [Expr.value, Word.toInt_signExtend w.bits_pos (by omega), w.two_pow_bits]

theorem toInt_const {n : Nat} {v : Int64} (positive : 0 < n) (wide : n ≤ 64)
    (lower : -2 ^ (n - 1) ≤ v.toInt) (upper : v.toInt < 2 ^ (n - 1)) :
    ((Expr.const n v).value l r).toInt = v.toInt := by
  rw [Expr.value, Word.signExtend_eq_self positive wide lower upper]

theorem toInt_minConst {n : Nat} (le : w.bits ≤ n) (wide : n ≤ 64) :
    ((Expr.minConst w n).value l r).toInt = -w.half := by
  have positive := w.bits_pos
  have narrow := w.bits_le
  have power : (2 : Int) ^ (w.bits - 1) ≤ 2 ^ (n - 1) := by gcongr; decide
  have value := Word.toInt_minOf w.bits_pos (by omega)
  have half : (0 : Int) < 2 ^ (w.bits - 1) := by positivity
  rw [Expr.minConst, toInt_const l r (by omega) wide (by omega) (by omega), value]
  simp [Width.half]

theorem toInt_maxConst {n : Nat} (le : w.bits ≤ n) (wide : n ≤ 64) :
    ((Expr.maxConst w n).value l r).toInt = w.half - 1 := by
  have positive := w.bits_pos
  have narrow := w.bits_le
  have power : (2 : Int) ^ (w.bits - 1) ≤ 2 ^ (n - 1) := by gcongr; decide
  have value := Word.toInt_maxOf w.bits_pos (by omega)
  have half : (0 : Int) < 2 ^ (w.bits - 1) := by positivity
  rw [Expr.maxConst, toInt_const l r (by omega) wide (by omega) (by omega), value]
  simp [Width.half]

theorem value_zero : (Expr.number w 0).value l r = 0 := by
  cases w <;> rfl

theorem value_minusOne : (Expr.number w (-1)).value l r = -1 := by
  cases w <;> rfl

end Operands

/-! ### Conditions -/

section Compare

variable (a b : Expr) (l r : Int64)

theorem value_both : (Expr.both a b).value l r = a.value l r &&& b.value l r := rfl

theorem value_sext (bits : Int) : (Expr.sext bits a).value l r = a.value l r := rfl

theorem value_zext (bits : Int) : (Expr.zext bits a).value l r = a.value l r &&& 1 := rfl

theorem value_op (o : StepOp) (bits : Int) :
    (Expr.op o bits a b).value l r = o.apply bits (a.value l r) (b.value l r) := rfl

theorem value_either : (Expr.either a b).value l r = a.value l r ||| b.value l r := rfl

theorem value_lt : (Expr.compare .lt a b).value l r =
    truth (decide ((a.value l r).toInt < (b.value l r).toInt)) := by
  simp [Expr.compare, Expr.value, StepOp.apply, Int64.lt_iff_toInt_lt]

theorem value_gt : (Expr.compare .gt a b).value l r =
    truth (decide ((b.value l r).toInt < (a.value l r).toInt)) := by
  simp [Expr.compare, Expr.value, StepOp.apply, Int64.lt_iff_toInt_lt]

theorem value_le : (Expr.compare .le a b).value l r =
    truth (decide ((a.value l r).toInt ≤ (b.value l r).toInt)) := by
  simp [Expr.compare, Expr.value, StepOp.apply, Int64.le_iff_toInt_le]

theorem value_ge : (Expr.compare .ge a b).value l r =
    truth (decide ((b.value l r).toInt ≤ (a.value l r).toInt)) := by
  simp [Expr.compare, Expr.value, StepOp.apply, Int64.le_iff_toInt_le]

theorem value_eq : (Expr.compare .eq a b).value l r =
    truth (decide ((a.value l r).toInt = (b.value l r).toInt)) := by
  simp [Expr.compare, Expr.value, StepOp.apply, Int64.toInt_inj]

theorem value_ne : (Expr.compare .ne a b).value l r =
    truth (decide ((a.value l r).toInt ≠ (b.value l r).toInt)) := by
  simp [Expr.compare, Expr.value, StepOp.apply, Int64.toInt_inj]

end Compare

section Width

variable (w : Width) (l r : Int64)

/-- The operands as the candidate reads them are numbers of the width. -/
theorem operands_range :
    -w.half ≤ ((Expr.left w.bits).value l r).toInt ∧ ((Expr.left w.bits).value l r).toInt < w.half ∧
    -w.half ≤ ((Expr.right w.bits).value l r).toInt ∧
      ((Expr.right w.bits).value l r).toInt < w.half := by
  have bound := w.bits_le
  have left := Word.signExtend_range w.bits_pos (by omega) l
  have right := Word.signExtend_range w.bits_pos (by omega) r
  simp only [Expr.value, Width.half]
  push_cast
  exact ⟨left.1, left.2, right.1, right.2⟩

theorem addOverflows_value :
    (Expr.addOverflows w).value l r = truth (decide (¬ w.Holds
      (((Expr.left w.bits).value l r).toInt + ((Expr.right w.bits).value l r).toInt))) := by
  have bound := w.bits_le
  obtain ⟨lowerL, upperL, lowerR, upperR⟩ := operands_range w l r
  simp only [Expr.addOverflows, value_either, value_both, value_lt, value_gt, value_ge, truth_and,
    truth_or, value_zero, Int64.toInt_zero, ← Bool.decide_and, ← Bool.decide_or]
  congr 1
  rw [decide_eq_decide, w.holds_iff, ← add_misses_iff lowerL upperL lowerR upperR,
    toInt_sub w.bits_pos (by omega), toInt_sub w.bits_pos (by omega),
    toInt_maxConst w l r le_rfl (by omega), toInt_minConst w l r le_rfl (by omega), w.two_pow_bits]

theorem subOverflows_value :
    (Expr.subOverflows w).value l r = truth (decide (¬ w.Holds
      (((Expr.left w.bits).value l r).toInt - ((Expr.right w.bits).value l r).toInt))) := by
  have bound := w.bits_le
  obtain ⟨lowerL, upperL, lowerR, upperR⟩ := operands_range w l r
  simp only [Expr.subOverflows, value_either, value_both, value_lt, value_gt, value_le, truth_and,
    truth_or, value_zero, Int64.toInt_zero, ← Bool.decide_and, ← Bool.decide_or]
  congr 1
  rw [decide_eq_decide, w.holds_iff, ← sub_misses_iff lowerL upperL lowerR upperR,
    toInt_add w.bits_pos (by omega), toInt_add w.bits_pos (by omega),
    toInt_maxConst w l r le_rfl (by omega), toInt_minConst w l r le_rfl (by omega), w.two_pow_bits]

theorem mulOverflowsWide_value :
    (Expr.mulOverflowsWide w).value l r = truth (decide (¬ w.Holds
      (((Expr.left w.bits).value l r).toInt * ((Expr.right w.bits).value l r).toInt))) := by
  have bound := w.bits_le
  have positive := w.bits_pos
  obtain ⟨lowerL, upperL, lowerR, upperR⟩ := operands_range w l r
  obtain ⟨lower, upper⟩ := wide_mul_fits lowerL upperL lowerR upperR
  have wide : (2 * w.bits : Int) = (2 * w.bits : Nat) := by push_cast; rfl
  simp only [Expr.mulOverflowsWide, wide, value_either, value_lt, value_gt, truth_or,
    ← Bool.decide_or]
  congr 1
  rw [decide_eq_decide, w.holds_iff, toInt_mul (by omega) bound,
    toInt_maxConst w l r (by omega) bound, toInt_minConst w l r (by omega) bound, w.two_pow_wide]
  rw [value_sext, value_sext, bmod_eq_self lower upper]
  omega

/-- The divisor of the wrapped product is the right factor, or one where that is zero. -/
theorem divisor_value : (Expr.op .bitOr w.bits (.right w.bits)
    (.zext w.bits (.compare .eq (.right w.bits) (.number w 0)))).value l r =
      if (Expr.right w.bits).value l r = 0 then 1 else (Expr.right w.bits).value l r := by
  have again : Word.signExtend w.bits ((Expr.right w.bits).value l r) =
      (Expr.right w.bits).value l r :=
    Word.signExtend_idem w.bits r
  rw [value_op, value_zext, value_eq, truth_and_one, value_zero]
  simp only [Int64.toInt_inj]
  split
  next zero =>
    rw [zero]
    cases w <;> rfl
  next nonzero => simpa [nonzero, truth, StepOp.apply] using again

theorem divisor_ne_zero : (Expr.op .bitOr w.bits (.right w.bits)
    (.zext w.bits (.compare .eq (.right w.bits) (.number w 0)))).value l r ≠ 0 := by
  rw [divisor_value]
  split
  · decide
  · assumption

theorem mulOverflowsBack_value :
    (Expr.mulOverflowsBack w).value l r = truth (decide (¬ w.Holds
      (((Expr.left w.bits).value l r).toInt * ((Expr.right w.bits).value l r).toInt))) := by
  have bound := w.bits_le
  obtain ⟨lowerL, upperL, lowerR, upperR⟩ := operands_range w l r
  simp only [Expr.mulOverflowsBack, value_either, value_both, value_ne, value_eq, truth_and,
    truth_or, value_zero, value_minusOne, Int64.toInt_zero, ← Bool.decide_and, ← Bool.decide_or]
  congr 1
  rw [decide_eq_decide, w.holds_iff, toInt_sdiv w.bits_pos (by omega) _ _ _ _ (divisor_ne_zero w l r),
    toInt_mul w.bits_pos (by omega), divisor_value, toInt_minConst w l r le_rfl (by omega),
    w.two_pow_bits]
  by_cases zero : ((Expr.right w.bits).value l r).toInt = 0
  · have half := w.half_pos
    simp only [zero, mul_zero]
    omega
  · have word : (Expr.right w.bits).value l r ≠ 0 := fun same => zero (by rw [same]; rfl)
    rw [if_neg word, ← mul_misses_iff lowerL upperL lowerR upperR zero]
    simp [zero]

theorem divOverflows_value :
    (Expr.divOverflows w).value l r = truth (decide (((Expr.right w.bits).value l r).toInt ≠ 0 ∧
      ¬ w.Holds (((Expr.left w.bits).value l r).toInt.tdiv
        ((Expr.right w.bits).value l r).toInt))) := by
  have bound := w.bits_le
  obtain ⟨lowerL, upperL, lowerR, upperR⟩ := operands_range w l r
  simp only [Expr.divOverflows, value_both, value_eq, truth_and, value_minusOne, ← Bool.decide_and]
  congr 1
  rw [decide_eq_decide, w.holds_iff, toInt_minConst w l r le_rfl (by omega)]
  exact div_misses_iff lowerL upperL

end Width

/-! ### Predicates -/

/-- Only the division that checks a product is by something that could be zero. -/
theorem overflows_dividesNonzero (op : GuardOp) (w : Width) (s : MulStrategy) (l r : Int64) :
    (Expr.overflows op w s).DividesNonzero l r := by
  have divisor := divisor_ne_zero w l r
  cases op <;> cases s <;>
    simp [Expr.overflows, Expr.addOverflows, Expr.subOverflows, Expr.divOverflows,
      Expr.mulOverflowsWide, Expr.mulOverflowsBack, Expr.either, Expr.both, Expr.compare,
      Expr.minConst, Expr.maxConst, Expr.number, Expr.DividesNonzero]
  simpa only [Expr.compare, Expr.number] using divisor

theorem overflows_value (c : Candidate) (s : MulStrategy) (l r : Int64) :
    (Expr.overflows c.op c.width s).value l r = truth (decide (c.Overflows
      (l.toInt.bmod (2 ^ c.width.bits)) (r.toInt.bmod (2 ^ c.width.bits)))) := by
  obtain ⟨op, w⟩ := c
  rw [w.two_pow_bits, ← toInt_left w l r, ← toInt_right w l r]
  cases op with
  | add => simpa [Candidate.Overflows, GuardOp.exactResult?, Expr.overflows] using addOverflows_value w l r
  | sub => simpa [Candidate.Overflows, GuardOp.exactResult?, Expr.overflows] using subOverflows_value w l r
  | mul =>
    cases s with
    | widen =>
      simpa [Candidate.Overflows, GuardOp.exactResult?, Expr.overflows] using mulOverflowsWide_value w l r
    | backDivision =>
      simpa [Candidate.Overflows, GuardOp.exactResult?, Expr.overflows] using mulOverflowsBack_value w l r
  | div =>
    rw [Expr.overflows, divOverflows_value]
    congr 2
    simp only [Candidate.Overflows, GuardOp.exactResult?]
    split <;> simp_all

theorem evaluate_predicate (c : Candidate) (s : MulStrategy) (l r : Int64) :
    (c.predicate s).evaluate l r = decide (c.Overflows
      (l.toInt.bmod (2 ^ c.width.bits)) (r.toInt.bmod (2 ^ c.width.bits))) := by
  have last := (schedule_sound _ (overflows_dividesNonzero c.op c.width s l r)).1
  rw [overflows_value] at last
  rw [Predicate.evaluate, Candidate.predicate, last]
  exact truth_ne_zero _

theorem predicate_divisorsNonzero (c : Candidate) (s : MulStrategy) (l r : Int64) :
    DivisorsNonzero (c.predicate s).steps l r :=
  (schedule_sound _ (overflows_dividesNonzero c.op c.width s l r)).2

/-- A predicate holds exactly if the candidate overflows on its operands, read at the width. So both
strategies agree, and neither ever divides by zero. -/
theorem predicate_exact (c : Candidate) (s : MulStrategy) (l r : Int64) :
    ((c.predicate s).evaluate l r = true ↔ c.Overflows
      (l.toInt.bmod (2 ^ c.width.bits)) (r.toInt.bmod (2 ^ c.width.bits))) ∧
    (c.predicate .widen).evaluate l r = (c.predicate .backDivision).evaluate l r ∧
    DivisorsNonzero (c.predicate s).steps l r := by
  refine ⟨?_, ?_, predicate_divisorsNonzero c s l r⟩
  · rw [evaluate_predicate, decide_eq_true_iff]
  · rw [evaluate_predicate, evaluate_predicate]

end GuardedIL.Overflow

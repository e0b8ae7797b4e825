import GuardedIL.Proofs.Words
import Mathlib

/-!
# Narrowing at every width

A width of zero or less has a single word and a width of 64 or more has them all, so the number of
words of a width is a power of two in each case. Modulo that number the cases are one: `signExtend`
is `Int.bmod`, and the range of a width is where `Int.bmod` changes nothing. `narrowing_modular`
collects what follows for wrapping, for checked narrowing and for arithmetic on narrowed words.
-/

namespace GuardedIL.Word

/-- The number of words of a width. -/
def modulus (bits : Int) : Nat :=
  2 ^ (min bits 64).toNat

theorem width_cases (bits : Int) :
    bits ≤ 0 ∨ (∃ n : Nat, bits = n ∧ 0 < n ∧ n < 64) ∨ 64 ≤ bits := by
  by_cases inner : 0 < bits ∧ bits < 64
  · exact .inr (.inl ⟨bits.toNat, by omega, by omega, by omega⟩)
  · omega

theorem modulus_of_nonpos {bits : Int} (empty : bits ≤ 0) : modulus bits = 1 := by
  rw [modulus, Int.toNat_of_nonpos (by omega), pow_zero]

theorem modulus_natCast {n : Nat} (wide : n ≤ 64) : modulus n = 2 ^ n := by
  rw [modulus, min_eq_left (by omega), Int.toNat_natCast]

theorem modulus_of_wide {bits : Int} (wide : 64 ≤ bits) : modulus bits = 2 ^ 64 := by
  rw [modulus, min_eq_right wide]
  rfl

theorem modulus_pos (bits : Int) : 0 < modulus bits :=
  Nat.two_pow_pos _

theorem modulus_dvd {a b : Int} (le : a ≤ b) : modulus a ∣ modulus b :=
  Nat.pow_dvd_pow 2 (by omega)

theorem modulus_dvd_two_pow (bits : Int) : modulus bits ∣ 2 ^ 64 :=
  Nat.pow_dvd_pow 2 (by omega)

/-! ### The range of a width -/

theorem toInt_signExtend_eq_bmod (bits : Int) (v : Int64) :
    (signExtend bits v).toInt = v.toInt.bmod (modulus bits) := by
  obtain empty | ⟨n, rfl, positive, narrow⟩ | wide := width_cases bits
  · rw [signExtend, if_neg (by omega), if_pos empty, modulus_of_nonpos empty, Int.bmod_one]
    rfl
  · rw [modulus_natCast narrow.le]
    exact toInt_signExtend positive narrow.le v
  · rw [signExtend, if_pos wide, modulus_of_wide wide]
    exact v.toInt_bmod.symm

theorem toInt_minOf_eq (bits : Int) : (minOf bits).toInt = -(modulus bits / 2) := by
  obtain empty | ⟨n, rfl, positive, narrow⟩ | wide := width_cases bits
  · rw [minOf, if_pos empty, modulus_of_nonpos empty]
    rfl
  · obtain ⟨k, rfl⟩ : ∃ k, n = k + 1 := ⟨n - 1, by omega⟩
    rw [toInt_minOf positive narrow, modulus_natCast narrow.le, Nat.add_sub_cancel]
    push_cast [pow_succ]
    omega
  · rw [minOf, if_neg (by omega), if_pos wide, modulus_of_wide wide]
    rfl

theorem toInt_maxOf_eq (bits : Int) : (maxOf bits).toInt = (modulus bits + 1) / 2 - 1 := by
  obtain empty | ⟨n, rfl, positive, narrow⟩ | wide := width_cases bits
  · rw [maxOf, if_pos empty, modulus_of_nonpos empty]
    rfl
  · obtain ⟨k, rfl⟩ : ∃ k, n = k + 1 := ⟨n - 1, by omega⟩
    rw [toInt_maxOf positive narrow, modulus_natCast narrow.le, Nat.add_sub_cancel]
    push_cast [pow_succ]
    omega
  · rw [maxOf, if_neg (by omega), if_pos wide, modulus_of_wide wide]
    rfl

/-- A word wraps to the one number in the range of the width that it is congruent to. -/
theorem toInt_signExtend_eq_iff (bits : Int) (v : Int64) (z : Int) :
    (signExtend bits v).toInt = z ↔
      (minOf bits).toInt ≤ z ∧ z ≤ (maxOf bits).toInt ∧ z ≡ v.toInt [ZMOD modulus bits] := by
  rw [toInt_signExtend_eq_bmod, Int.bmod_eq_iff (modulus_pos bits), toInt_minOf_eq, toInt_maxOf_eq,
    Int.modEq_comm, Int.modEq_iff_dvd, Int.le_sub_one_iff]

theorem fits_iff (bits : Int) (v : Int64) :
    fits bits v = true ↔ minOf bits ≤ v ∧ v ≤ maxOf bits := by
  rw [fits, Bool.and_eq_true, decide_eq_true_iff, decide_eq_true_iff]

theorem fits_iff_signExtend_eq (bits : Int) (v : Int64) :
    fits bits v = true ↔ signExtend bits v = v := by
  rw [fits_iff, Int64.le_iff_toInt_le, Int64.le_iff_toInt_le, ← Int64.toInt_inj,
    toInt_signExtend_eq_iff, and_iff_left (Int.ModEq.refl v.toInt)]

/-! ### Checked narrowing -/

/-- The widths that skip the test hold every word. -/
theorem narrow_eq (bits : Int) (v : Int64) :
    narrow bits v =
      if v < minOf bits then .error .underflow
      else if maxOf bits < v then .error .overflow
      else .ok v := by
  rw [narrow]
  split
  case isTrue wide =>
    have held : signExtend bits v = v := by rw [signExtend, if_pos wide]
    obtain ⟨lower, upper⟩ := (fits_iff bits v).mp ((fits_iff_signExtend_eq bits v).mpr held)
    rw [if_neg (Int64.not_lt.mpr lower), if_neg (Int64.not_lt.mpr upper)]
  case isFalse => rfl

theorem narrow_eq_ok_iff (bits : Int) (v : Int64) : narrow bits v = .ok v ↔ fits bits v = true := by
  rw [narrow_eq, fits_iff, ← Int64.not_lt, ← Int64.not_lt]
  split_ifs with below above <;> simp [*]

theorem narrow_misses {bits : Int} {v : Int64} (misses : ¬ fits bits v = true) :
    (v < minOf bits ∧ narrow bits v = .error .underflow) ∨
      (maxOf bits < v ∧ narrow bits v = .error .overflow) := by
  rw [fits_iff, not_and_or, Int64.not_le, Int64.not_le] at misses
  rw [narrow_eq]
  by_cases below : v < minOf bits
  · exact .inl ⟨below, if_pos below⟩
  · have above := misses.resolve_left below
    exact .inr ⟨above, by rw [if_neg below, if_pos above]⟩

/-! ### Narrowing twice, and arithmetic on narrowed words -/

theorem signExtend_signExtend (a b : Int) (v : Int64) :
    signExtend b (signExtend a v) = signExtend (min a b) v := by
  rw [← Int64.toInt_inj, toInt_signExtend_eq_bmod, toInt_signExtend_eq_bmod,
    toInt_signExtend_eq_bmod]
  obtain le | le := le_total a b
  · -- What the first step leaves is in the range of the second.
    have lower := Int.le_bmod (x := v.toInt) (modulus_pos a)
    have upper := Int.bmod_lt (x := v.toInt) (modulus_pos a)
    have fewer := Nat.le_of_dvd (modulus_pos b) (modulus_dvd le)
    rw [min_eq_left le]
    exact Int.bmod_eq_of_le (by omega) (by omega)
  · rw [min_eq_right le]
    exact Int.bmod_bmod_of_dvd (modulus_dvd le)

theorem signExtend_idem (bits : Int) (v : Int64) :
    signExtend bits (signExtend bits v) = signExtend bits v := by
  rw [signExtend_signExtend, min_self]

/-- A word that a width holds is held by every greater width. -/
theorem signExtend_eq_self_of_le {a b : Int} {v : Int64} (le : a ≤ b) (held : signExtend a v = v) :
    signExtend b v = v := by
  rw [← held, signExtend_signExtend, min_eq_left le]

theorem signExtend_modEq (bits : Int) (v : Int64) :
    (signExtend bits v).toInt ≡ v.toInt [ZMOD modulus bits] :=
  ((toInt_signExtend_eq_iff bits v _).mp rfl).2.2

theorem signExtend_congr {bits : Int} {x y : Int64} (same : x.toInt ≡ y.toInt [ZMOD modulus bits]) :
    signExtend bits x = signExtend bits y := by
  obtain ⟨lower, upper, kept⟩ := (toInt_signExtend_eq_iff bits y _).mp rfl
  exact Int64.toInt_inj.mp
    ((toInt_signExtend_eq_iff bits x _).mpr ⟨lower, upper, kept.trans same.symm⟩)

/-- Operands may be narrowed first if an operation on words is one on integers modulo `2 ^ 64` that
respects congruence. The number of words of a width divides `2 ^ 64`, so no residue is lost. -/
theorem signExtend_op_signExtend {op : Int64 → Int64 → Int64} {onInts : Int → Int → Int}
    (wraps : ∀ x y, (op x y).toInt = (onInts x.toInt y.toInt).bmod (2 ^ 64))
    (respects : ∀ {m a a' b b' : Int}, a ≡ a' [ZMOD m] → b ≡ b' [ZMOD m] →
      onInts a b ≡ onInts a' b' [ZMOD m]) (bits : Int) (x y : Int64) :
    signExtend bits (op (signExtend bits x) (signExtend bits y)) = signExtend bits (op x y) := by
  have computes (u w : Int64) : (op u w).toInt ≡ onInts u.toInt w.toInt [ZMOD modulus bits] := by
    rw [wraps]
    exact Int.ModEq.of_dvd (mod_cast modulus_dvd_two_pow bits) Int.bmod_emod
  apply signExtend_congr
  calc (op (signExtend bits x) (signExtend bits y)).toInt
      ≡ onInts (signExtend bits x).toInt (signExtend bits y).toInt [ZMOD modulus bits] := computes _ _
    _ ≡ onInts x.toInt y.toInt [ZMOD modulus bits] :=
      respects (signExtend_modEq bits x) (signExtend_modEq bits y)
    _ ≡ (op x y).toInt [ZMOD modulus bits] := (computes x y).symm

/-- Wrapped to a width from 1 to 63, a word is the one number of the signed range that has its residue.
Greater widths leave the word and lesser ones leave zero. Checked narrowing returns the words that
wrapping leaves alone, and for any other it names the side of the range. Two widths in a row come to
the lesser one, and the operands of a sum, a difference or a product may be narrowed first. -/
theorem narrowing_modular (bits : Int) (v : Int64) :
    (1 ≤ bits → bits ≤ 63 →
      (minOf bits).toInt = -2 ^ (bits.toNat - 1) ∧ (maxOf bits).toInt = 2 ^ (bits.toNat - 1) - 1 ∧
      ∀ z : Int, z = (signExtend bits v).toInt ↔
        (minOf bits).toInt ≤ z ∧ z ≤ (maxOf bits).toInt ∧ z ≡ v.toInt [ZMOD 2 ^ bits.toNat]) ∧
    (64 ≤ bits → signExtend bits v = v) ∧
    (bits ≤ 0 → signExtend bits v = 0) ∧
    (narrow bits v = .ok v ↔ fits bits v = true) ∧
    (fits bits v = true ↔ signExtend bits v = v) ∧
    (¬ fits bits v = true →
      (v < minOf bits ∧ narrow bits v = .error .underflow) ∨
        (maxOf bits < v ∧ narrow bits v = .error .overflow)) ∧
    (∀ b, signExtend b (signExtend bits v) = signExtend (min bits b) v) ∧
    ∀ w, signExtend bits (signExtend bits v + signExtend bits w) = signExtend bits (v + w) ∧
      signExtend bits (signExtend bits v - signExtend bits w) = signExtend bits (v - w) ∧
      signExtend bits (signExtend bits v * signExtend bits w) = signExtend bits (v * w) := by
  refine ⟨fun one narrow => ?_, fun wide => ?_, fun empty => ?_, narrow_eq_ok_iff bits v,
    fits_iff_signExtend_eq bits v, narrow_misses, fun b => signExtend_signExtend bits b v,
    fun w => ⟨?_, ?_, ?_⟩⟩
  · obtain ⟨n, rfl⟩ := Int.eq_ofNat_of_zero_le (show 0 ≤ bits by omega)
    have power : (modulus n : Int) = 2 ^ n := by exact_mod_cast modulus_natCast (show n ≤ 64 by omega)
    rw [Int.toNat_natCast]
    refine ⟨toInt_minOf (by omega) (by omega), toInt_maxOf (by omega) (by omega), fun z => ?_⟩
    rw [eq_comm, toInt_signExtend_eq_iff, power]
  · rw [signExtend, if_pos wide]
  · rw [signExtend, if_neg (by omega), if_pos empty]
  · exact signExtend_op_signExtend Int64.toInt_add Int.ModEq.add bits v w
  · exact signExtend_op_signExtend Int64.toInt_sub Int.ModEq.sub bits v w
  · exact signExtend_op_signExtend Int64.toInt_mul Int.ModEq.mul bits v w

/-- A byte holds 200 as -56, and 200 itself is above its range. -/
theorem narrowing_modular_byte :
    (1 : Int) ≤ 8 ∧ (8 : Int) ≤ 63 ∧ (signExtend 8 200).toInt = -56 ∧
    ((minOf 8).toInt ≤ -56 ∧ -56 ≤ (maxOf 8).toInt ∧ -56 ≡ (200 : Int64).toInt [ZMOD 2 ^ 8]) ∧
    ¬ fits 8 200 = true ∧ maxOf 8 < 200 ∧ narrow 8 200 = .error .overflow := by
  have wrapped : (signExtend 8 200).toInt = -56 := by decide +kernel
  have misses : ¬ fits 8 200 = true := by decide +kernel
  have notBelow : ¬ (200 < minOf 8 ∧ narrow 8 200 = .error .underflow) := by decide +kernel
  obtain ⟨residue, -, -, -, -, side, -⟩ := narrowing_modular 8 200
  obtain ⟨-, -, only⟩ := residue (by decide) (by decide)
  exact ⟨by decide, by decide, wrapped, (only (-56)).mp wrapped.symm, misses,
    (side misses).resolve_left notBelow⟩

end GuardedIL.Word

import GuardedIL.Machine.Arith
import Mathlib

/-!
# Words as integers

`signExtend` reads a word modulo `2 ^ bits` into the signed range of the width. From there on the
arithmetic of words is that of `Int.bmod`, and a word in range is left alone.
-/

namespace GuardedIL.Word

theorem toNat_shiftLeft_one {n : Nat} (narrow : n < 64) :
    ((1 : UInt64) <<< n.toUInt64).toNat = 2 ^ n := by
  have amount : n.toUInt64.toNat = n := by
    rw [UInt64.toNat_ofNat']
    exact Nat.mod_eq_of_lt (by omega)
  have bound : 2 ^ n < 2 ^ 64 := Nat.pow_lt_pow_right (by decide) narrow
  rw [UInt64.toNat_shiftLeft, amount, Nat.mod_eq_of_lt narrow, UInt64.toNat_one,
    Nat.one_shiftLeft, Nat.mod_eq_of_lt bound]

theorem toNat_mask {n : Nat} (positive : 0 < n) (narrow : n < 64) :
    (mask n).toNat = 2 ^ n - 1 := by
  have shifted := toNat_shiftLeft_one narrow
  have one : (1 : UInt64) ≤ 1 <<< n.toUInt64 := by
    rw [UInt64.le_iff_toNat_le, shifted]
    exact Nat.one_le_two_pow
  rw [mask, if_neg (by omega), if_neg (by omega), Int.toNat_natCast, UInt64.toNat_sub_of_le _ _ one,
    shifted, UInt64.toNat_one]

theorem toNat_signBit {n : Nat} (positive : 0 < n) (wide : n ≤ 64) :
    (signBit n).toNat = 2 ^ (n - 1) := by
  rw [signBit, Int.toNat_natCast]
  exact toNat_shiftLeft_one (by omega)

theorem getLsbD_mask {n : Nat} (positive : 0 < n) (narrow : n < 64) (i : Nat) :
    (mask n).toBitVec.getLsbD i = decide (i < n) := by
  rw [BitVec.getLsbD, UInt64.toNat_toBitVec, toNat_mask positive narrow,
    Nat.testBit_two_pow_sub_one]

/-- The low bits of a word, as an unsigned number. -/
theorem zeroExtend_toBitVec {n : Nat} (positive : 0 < n) (wide : n ≤ 64) (v : Int64) :
    (zeroExtend n v).toBitVec = (v.toBitVec.setWidth n).setWidth 64 := by
  rw [zeroExtend]
  split
  · have same : n = 64 := by omega
    subst same
    simp
  · apply BitVec.eq_of_getLsbD_eq
    intro i inside
    have bits := getLsbD_mask positive (by omega) i
    simp [bits, inside, Bool.and_comm, -BitVec.getLsbD_eq_getElem]

theorem and_signBit_eq_zero {n : Nat} (positive : 0 < n) (wide : n ≤ 64) (u : UInt64) :
    u &&& signBit n = 0 ↔ u.toBitVec.getLsbD (n - 1) = false := by
  rw [← UInt64.toNat_inj, UInt64.toNat_and, toNat_signBit positive wide, UInt64.toNat_zero,
    Nat.and_two_pow, BitVec.getLsbD, UInt64.toNat_toBitVec]
  cases u.toNat.testBit (n - 1) <;> simp

/-- The low bits of a word, as a signed number. -/
theorem signExtend_toBitVec {n : Nat} (positive : 0 < n) (wide : n ≤ 64) (v : Int64) :
    (signExtend n v).toBitVec = (v.toBitVec.setWidth n).signExtend 64 := by
  rw [signExtend]
  split
  · have same : n = 64 := by omega
    subst same
    simp
  · have bits := getLsbD_mask positive (show n < 64 by omega)
    rw [if_neg (by omega)]
    simp only [and_signBit_eq_zero positive wide]
    apply BitVec.eq_of_getLsbD_eq
    intro i inside
    have top : (v.toUInt64 &&& mask n).toBitVec.getLsbD (n - 1) = v.toBitVec.getLsbD (n - 1) := by
      simp [bits, positive]
    rw [BitVec.getLsbD_signExtend, BitVec.msb_setWidth, top]
    -- Above the width the bits are those of the sign.
    cases sign : v.toBitVec.getLsbD (n - 1) <;> by_cases low : i < n <;>
      simp [bits, inside, low, positive, -BitVec.getLsbD_eq_getElem]

theorem toInt_signExtend {n : Nat} (positive : 0 < n) (wide : n ≤ 64) (v : Int64) :
    (signExtend n v).toInt = v.toInt.bmod (2 ^ n) := by
  rw [← Int64.toInt_toBitVec, signExtend_toBitVec positive wide, BitVec.toInt_signExtend_of_le wide,
    BitVec.toInt_setWidth, ← Int64.toInt_toBitVec, BitVec.toInt_eq_toNat_bmod,
    Int.bmod_bmod_of_dvd (Nat.pow_dvd_pow 2 wide)]

/-- The signed numbers of a width are `2 ^ (n - 1)` below zero and as many from zero on. -/
theorem signExtend_range {n : Nat} (positive : 0 < n) (wide : n ≤ 64) (v : Int64) :
    -2 ^ (n - 1) ≤ (signExtend n v).toInt ∧ (signExtend n v).toInt < 2 ^ (n - 1) := by
  obtain ⟨k, rfl⟩ : ∃ k, n = k + 1 := ⟨n - 1, by omega⟩
  have lower := Int.le_bmod (x := v.toInt) (m := 2 ^ (k + 1)) (by positivity)
  have upper := Int.bmod_lt (x := v.toInt) (m := 2 ^ (k + 1)) (by positivity)
  rw [toInt_signExtend positive wide]
  rw [Nat.add_sub_cancel]
  push_cast [pow_succ] at lower upper ⊢
  omega

theorem signExtend_eq_self {n : Nat} (positive : 0 < n) (wide : n ≤ 64) {v : Int64}
    (lower : -2 ^ (n - 1) ≤ v.toInt) (upper : v.toInt < 2 ^ (n - 1)) : signExtend n v = v := by
  obtain ⟨k, rfl⟩ : ∃ k, n = k + 1 := ⟨n - 1, by omega⟩
  rw [← Int64.toInt_inj, toInt_signExtend positive wide]
  simp only [Nat.add_sub_cancel] at lower upper
  apply Int.bmod_eq_of_le <;> push_cast [pow_succ] <;> omega

theorem toInt_toInt64 {u : UInt64} (small : u.toNat < 2 ^ 63) : u.toInt64.toInt = u.toNat := by
  rw [← Int64.toInt_toBitVec, UInt64.toBitVec_toInt64, BitVec.toInt_eq_toNat_of_lt]
  · rfl
  · rw [UInt64.toNat_toBitVec]
    omega

theorem toInt_minOf {n : Nat} (positive : 0 < n) (narrow : n < 64) :
    (minOf n).toInt = -2 ^ (n - 1) := by
  have sign := toNat_signBit positive narrow.le
  have bound : 2 ^ (n - 1) ≤ 2 ^ 62 := Nat.pow_le_pow_right (by decide) (by omega)
  have word : (signBit n).toInt64.toInt = 2 ^ (n - 1) := by
    rw [toInt_toInt64 (by omega), sign]
    push_cast
    rfl
  rw [minOf, if_neg (by omega), if_neg (by omega), Int64.toInt_neg, word]
  apply Int.bmod_eq_of_le <;> norm_cast <;> omega

theorem toInt_maxOf {n : Nat} (positive : 0 < n) (narrow : n < 64) :
    (maxOf n).toInt = 2 ^ (n - 1) - 1 := by
  have sign := toNat_signBit positive narrow.le
  have bound : 2 ^ (n - 1) ≤ 2 ^ 62 := Nat.pow_le_pow_right (by decide) (by omega)
  have one : (1 : UInt64) ≤ signBit n := by
    rw [UInt64.le_iff_toNat_le, sign]
    exact Nat.one_le_two_pow
  have payload : (signBit n - 1).toNat = 2 ^ (n - 1) - 1 := by
    rw [UInt64.toNat_sub_of_le _ _ one, sign, UInt64.toNat_one]
  rw [maxOf, if_neg (by omega), if_neg (by omega), toInt_toInt64 (by omega), payload,
    Nat.cast_sub Nat.one_le_two_pow]
  push_cast
  rfl

end GuardedIL.Word

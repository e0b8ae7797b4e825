import GuardedIL.Proofs.Accepted
import GuardedIL.Proofs.Check

/-!
# Machine arithmetic on bit vectors

The machine computes every integer type with 64-bit words. At a type of width `w` a word stands for its
low `w` bits, `Ty.bits`, and bits are stored as the word `Ty.word`. Through these two the operations of
the machine are those on bit vectors of width `w` (`words_compute_bits`): each operation is followed to its
low bits first, and normalising a word only reads these.
-/

namespace GuardedIL

/-! ### Words and bits -/

/-- The bits of a word that count at a type. -/
def Ty.bits (t : Ty) (v : Int64) : BitVec t.width :=
  v.toBitVec.setWidth t.width

/-- The word in which bits are stored: sign-extended at a signed type, zero-extended at any other. -/
def Ty.word (t : Ty) (x : BitVec t.width) : Int64 :=
  Int64.ofBitVec (if t.isSigned then x.signExtend 64 else x.zeroExtend 64)

theorem setWidth_signExtend {w n m : Nat} (x : BitVec w) (le : m ≤ n) :
    (x.signExtend n).setWidth m = x.signExtend m := by
  ext i inside
  rw [BitVec.getElem_setWidth, BitVec.getLsbD_signExtend, BitVec.getElem_signExtend]
  by_cases low : i < w
  · simp [low, show i < n by omega]
  · simp [low, show i < n by omega]

namespace Ty

variable {t : Ty}

theorem bits_word (x : BitVec t.width) : t.bits (t.word x) = x := by
  unfold bits word
  rw [Int64.toBitVec_ofBitVec]
  split
  · rw [setWidth_signExtend x t.width_le, BitVec.signExtend_eq]
  · rw [BitVec.zeroExtend_eq_setWidth, BitVec.setWidth_setWidth_of_le x t.width_le, BitVec.setWidth_eq]

/-- Normalising a word keeps its bits and rebuilds the rest from them. -/
theorem normalize_eq_word (integer : t.isInteger = true) (v : Int64) : t.normalize v = t.word (t.bits v) := by
  have positive := width_pos integer
  unfold normalize word bits
  rw [← Int64.toBitVec_inj, Int64.toBitVec_ofBitVec]
  split
  · exact Word.signExtend_toBitVec positive t.width_le v
  · exact Word.zeroExtend_toBitVec positive t.width_le v

theorem bits_normalize (integer : t.isInteger = true) (v : Int64) : t.bits (t.normalize v) = t.bits v := by
  rw [normalize_eq_word integer, bits_word]

theorem toInt_word (signed : t.isSigned = true) (x : BitVec t.width) : (t.word x).toInt = x.toInt := by
  unfold word
  rw [if_pos signed, ← Int64.toInt_toBitVec, Int64.toBitVec_ofBitVec,
    BitVec.toInt_signExtend_of_le t.width_le]

theorem toInt_bits (v : Int64) : (t.bits v).toInt = v.toInt.bmod (2 ^ t.width) := by
  unfold bits
  rw [BitVec.toInt_setWidth, ← Int64.toInt_toBitVec, BitVec.toInt_eq_toNat_bmod,
    Int.bmod_bmod_of_dvd (Nat.pow_dvd_pow 2 t.width_le)]

theorem wordWidth_eq (integer : t.isInteger = true) : t.wordWidth = t.width := by
  unfold wordWidth
  rw [if_pos integer]

theorem toBitVec_lowBits (integer : t.isInteger = true) (v : Int64) :
    (t.lowBits v).toBitVec = (t.bits v).setWidth 64 := by
  unfold lowBits bits
  rw [wordWidth_eq integer, ← Word.zeroExtend_toBitVec (width_pos integer) t.width_le]
  unfold Word.zeroExtend
  split
  · have full : (t.width : Int) = 64 := by
      have := t.width_le
      omega
    rw [full, show Word.mask 64 = -1 by decide, UInt64.and_neg_one, Int64.toBitVec_toUInt64]
  · rw [UInt64.toBitVec_toInt64]

theorem toNat_lowBits (integer : t.isInteger = true) (v : Int64) :
    (t.lowBits v).toNat = (t.bits v).toNat := by
  rw [← UInt64.toNat_toBitVec, toBitVec_lowBits integer, BitVec.toNat_setWidth_of_le t.width_le]

theorem lowBits_eq_zero (integer : t.isInteger = true) (v : Int64) : t.lowBits v = 0 ↔ t.bits v = 0 := by
  rw [← UInt64.toNat_inj, toNat_lowBits integer, UInt64.toNat_zero, BitVec.toNat_eq]
  simp

theorem toBitVec_signedBits (integer : t.isInteger = true) (v : Int64) :
    (t.signedBits v).toBitVec = (t.bits v).signExtend 64 := by
  unfold signedBits bits
  rw [wordWidth_eq integer, Word.signExtend_toBitVec (width_pos integer) t.width_le]

theorem toInt_signedBits (integer : t.isInteger = true) (v : Int64) :
    (t.signedBits v).toInt = (t.bits v).toInt := by
  rw [← Int64.toInt_toBitVec, toBitVec_signedBits integer, BitVec.toInt_signExtend_of_le t.width_le]

end Ty

/-! ### Arithmetic -/

/-- Arithmetic on bit vectors. There is no quotient and no remainder by zero. -/
def ArithOp.onBits? {w : Nat} (op : ArithOp) (x y : BitVec w) : Option (BitVec w) :=
  match op with
  | add => some (x + y)
  | sub => some (x - y)
  | mul => some (x * y)
  | sdiv => if y = 0 then none else some (x.sdiv y)
  | srem => if y = 0 then none else some (x.srem y)
  | udiv => if y = 0 then none else some (x.udiv y)
  | urem => if y = 0 then none else some (x.umod y)

section Arith

variable {t : Ty}

theorem bits_sub (a b : Int64) : t.bits (a - b) = t.bits a - t.bits b := by
  apply BitVec.eq_of_toInt_eq
  rw [BitVec.toInt_sub, Ty.toInt_bits, Ty.toInt_bits, Ty.toInt_bits, Int64.toInt_sub,
    Int.bmod_bmod_of_dvd (Nat.pow_dvd_pow 2 t.width_le), Int.bmod_sub_bmod, Int.sub_bmod_bmod]

theorem toNat_bits_toInt64 (u : UInt64) : (t.bits u.toInt64).toNat = u.toNat % 2 ^ t.width := by
  unfold Ty.bits
  rw [UInt64.toBitVec_toInt64, BitVec.toNat_setWidth, UInt64.toNat_toBitVec]

theorem word_eq_zero (signed : t.isSigned = true) (x : BitVec t.width) : t.word x = 0 ↔ x = 0 := by
  rw [← Int64.toInt_inj, Ty.toInt_word signed, Int64.toInt_zero, ← BitVec.toInt_inj]
  simp

theorem bits_sdiv (signed : t.isSigned = true) (x y : BitVec t.width) :
    t.bits (t.word x / t.word y) = x.sdiv y := by
  apply BitVec.eq_of_toInt_eq
  rw [Ty.toInt_bits, Int64.toInt_div, Ty.toInt_word signed, Ty.toInt_word signed, BitVec.toInt_sdiv,
    Int.bmod_bmod_of_dvd (Nat.pow_dvd_pow 2 t.width_le)]

theorem bits_srem (signed : t.isSigned = true) (x y : BitVec t.width) :
    t.bits (t.word x % t.word y) = x.srem y := by
  apply BitVec.eq_of_toInt_eq
  -- A remainder is in the range of the width, so wrapping it changes nothing.
  rw [Ty.toInt_bits, Int64.toInt_mod, Ty.toInt_word signed, Ty.toInt_word signed, ← BitVec.toInt_srem,
    BitVec.toInt_bmod_cancel]

theorem bits_udiv (integer : t.isInteger = true) (a b : Int64) :
    t.bits (t.lowBits a / t.lowBits b).toInt64 = (t.bits a).udiv (t.bits b) := by
  apply BitVec.eq_of_toNat_eq
  have small := (Nat.div_le_self (t.bits a).toNat (t.bits b).toNat).trans_lt (t.bits a).isLt
  rw [toNat_bits_toInt64, UInt64.toNat_div, Ty.toNat_lowBits integer, Ty.toNat_lowBits integer,
    Nat.mod_eq_of_lt small]
  rfl

theorem bits_urem (integer : t.isInteger = true) (a b : Int64) :
    t.bits (t.lowBits a % t.lowBits b).toInt64 = (t.bits a).umod (t.bits b) := by
  apply BitVec.eq_of_toNat_eq
  have small := (Nat.mod_le (t.bits a).toNat (t.bits b).toNat).trans_lt (t.bits a).isLt
  rw [toNat_bits_toInt64, UInt64.toNat_mod, Ty.toNat_lowBits integer, Ty.toNat_lowBits integer,
    Nat.mod_eq_of_lt small]
  rfl

/-- The low bits of a result are the result on the low bits. -/
theorem ArithOp.bits_onWords? (op : ArithOp) (integer : t.isInteger = true)
    (signed : op.dividesSigned = true → t.isSigned = true) (x y : BitVec t.width) :
    (op.onWords? t (t.word x) (t.word y)).map t.bits = op.onBits? x y := by
  have left := t.bits_word x
  have right := t.bits_word y
  cases op with
  | add =>
    have sum : t.bits (t.word x + t.word y) = t.bits (t.word x) + t.bits (t.word y) :=
      BitVec.setWidth_add _ _ t.width_le
    rw [left, right] at sum
    exact congrArg some sum
  | sub =>
    have difference := bits_sub (t := t) (t.word x) (t.word y)
    rw [left, right] at difference
    exact congrArg some difference
  | mul =>
    have product : t.bits (t.word x * t.word y) = t.bits (t.word x) * t.bits (t.word y) :=
      BitVec.setWidth_mul _ _ t.width_le
    rw [left, right] at product
    exact congrArg some product
  | sdiv =>
    have signed := signed rfl
    simp only [onBits?, ArithOp.onWords?, word_eq_zero signed]
    split_ifs
    · rfl
    · exact congrArg some (bits_sdiv signed x y)
  | srem =>
    have signed := signed rfl
    simp only [onBits?, ArithOp.onWords?, word_eq_zero signed]
    split_ifs
    · rfl
    · exact congrArg some (bits_srem signed x y)
  | udiv =>
    have quotient := bits_udiv integer (t.word x) (t.word y)
    simp only [onBits?, ArithOp.onWords?, Ty.lowBits_eq_zero integer, left, right] at quotient ⊢
    split_ifs
    · rfl
    · exact congrArg some quotient
  | urem =>
    have remainder := bits_urem integer (t.word x) (t.word y)
    simp only [onBits?, ArithOp.onWords?, Ty.lowBits_eq_zero integer, left, right] at remainder ⊢
    split_ifs
    · rfl
    · exact congrArg some remainder

end Arith

/-! ### Bits, shifts and comparisons -/

/-- Bitwise operations on bit vectors; the amount of a shift is taken modulo their width. -/
def BitOp.onBits {w : Nat} (op : BitOp) (x y : BitVec w) : BitVec w :=
  match op with
  | and => x &&& y
  | or => x ||| y
  | xor => x ^^^ y
  | shl => x <<< (y.toNat % w)
  | lshr => x >>> (y.toNat % w)
  | ashr => x.sshiftRight (y.toNat % w)

def CmpOp.onBits {w : Nat} (op : CmpOp) (x y : BitVec w) : Bool :=
  match op with
  | eq => x = y
  | ne => x ≠ y
  | slt => x.slt y
  | sle => x.sle y
  | sgt => y.slt x
  | sge => y.sle x
  | ult => x.ult y
  | ule => x.ule y
  | ugt => y.ult x
  | uge => y.ule x

theorem toInt_shiftRight_small {a : Int64} {u : UInt64} (small : u.toNat < 64) :
    (a >>> u.toInt64).toInt = a.toInt >>> u.toNat := by
  have positive : u.toBitVec.msb = false := by
    rw [BitVec.msb_eq_false_iff_two_mul_lt, UInt64.toNat_toBitVec]
    omega
  have amount : (u.toBitVec.smod 64).toNat = u.toNat := by
    rw [BitVec.smod_eq, positive, show (64 : BitVec 64).msb = false from rfl]
    show (u.toBitVec % 64).toNat = u.toNat
    rw [BitVec.toNat_umod, UInt64.toNat_toBitVec]
    exact Nat.mod_eq_of_lt small
  rw [← Int64.toInt_toBitVec, Int64.toBitVec_shiftRight, UInt64.toBitVec_toInt64, BitVec.toInt_sshiftRight',
    amount, Int64.toInt_toBitVec]

section Bitwise

variable {t : Ty} (integer : t.isInteger = true)
include integer

theorem toNat_amount (b : Int64) :
    (t.lowBits b % t.wordWidth.toUInt64).toNat = (t.bits b).toNat % t.width := by
  have width : t.width.toUInt64.toNat = t.width := by
    have := t.width_le
    rw [UInt64.toNat_ofNat']
    exact Nat.mod_eq_of_lt (by omega)
  rw [UInt64.toNat_mod, Ty.toNat_lowBits integer, Ty.wordWidth_eq integer, width]

theorem BitOp.bits_apply (op : BitOp) (a b : Int64) :
    t.bits (op.apply t a b) = op.onBits (t.bits a) (t.bits b) := by
  have amount := toNat_amount integer b
  have small : (t.bits b).toNat % t.width < 64 :=
    (Nat.mod_lt _ (Ty.width_pos integer)).trans_le t.width_le
  cases op with
  | and => exact BitVec.setWidth_and
  | or => exact BitVec.setWidth_or
  | xor => exact BitVec.setWidth_xor
  | shl =>
    apply BitVec.eq_of_toNat_eq
    simp only [apply, onBits]
    rw [toNat_bits_toInt64, UInt64.toNat_shiftLeft, Ty.toNat_lowBits integer, amount, Nat.mod_eq_of_lt small,
      Nat.mod_mod_of_dvd _ (Nat.pow_dvd_pow 2 t.width_le), BitVec.toNat_shiftLeft]
  | lshr =>
    apply BitVec.eq_of_toNat_eq
    have inside := (Nat.shiftRight_le (t.bits a).toNat ((t.bits b).toNat % t.width)).trans_lt (t.bits a).isLt
    simp only [apply, onBits]
    rw [toNat_bits_toInt64, UInt64.toNat_shiftRight, Ty.toNat_lowBits integer, amount, Nat.mod_eq_of_lt small,
      Nat.mod_eq_of_lt inside, BitVec.toNat_ushiftRight]
  | ashr =>
    apply BitVec.eq_of_toInt_eq
    simp only [apply, onBits]
    rw [Ty.toInt_bits, toInt_shiftRight_small (amount.trans_lt small), Ty.toInt_signedBits integer, amount,
      ← BitVec.toInt_sshiftRight, BitVec.toInt_bmod_cancel]

theorem CmpOp.holds_eq (op : CmpOp) (a b : Int64) :
    op.holds t a b = op.onBits (t.bits a) (t.bits b) := by
  have same : t.lowBits a = t.lowBits b ↔ t.bits a = t.bits b := by
    rw [← UInt64.toNat_inj, Ty.toNat_lowBits integer, Ty.toNat_lowBits integer, BitVec.toNat_inj]
  cases op with
  | eq | ne => simp only [holds, onBits, same, ne_eq]
  | slt | sle | sgt | sge =>
    simp only [holds, onBits, Int64.lt_iff_toInt_lt, Int64.le_iff_toInt_le, Ty.toInt_signedBits integer,
      BitVec.slt, BitVec.sle]
  | ult | ule | ugt | uge =>
    simp only [holds, onBits, UInt64.lt_iff_toNat_lt, UInt64.le_iff_toNat_le, Ty.toNat_lowBits integer,
      BitVec.ult, BitVec.ule]

end Bitwise

/-! ### Casts -/

/-- Extension and truncation of the bits of a type. Where nothing is to be cut off, truncation leaves the
number as it is, which the checker does not admit. -/
def CastOp.onBits (op : CastOp) (source : Ty) (w : Nat) (x : BitVec source.width) : BitVec w :=
  match op with
  | sext => x.signExtend w
  | zext => x.zeroExtend w
  | trunc =>
    if w ≤ source.width then x.truncate w
    else if source.isSigned then x.signExtend w
    else x.zeroExtend w

theorem CastOp.apply_eq_word (op : CastOp) {source target : Ty} (wide : source.isInteger = true)
    (integer : target.isInteger = true) (v : Int64) :
    op.apply source target (source.normalize v) =
      target.word (op.onBits source target.width (source.bits v)) := by
  have positive := Ty.width_pos wide
  have kept := Ty.bits_normalize wide v
  unfold Ty.bits at kept
  cases op with
  | sext =>
    simp only [apply, onBits]
    rw [Ty.normalize_eq_word integer, Ty.wordWidth_eq wide, Ty.bits,
      Word.signExtend_toBitVec positive source.width_le, kept, setWidth_signExtend _ target.width_le]
    rfl
  | zext =>
    simp only [apply, onBits]
    rw [Ty.normalize_eq_word integer, Ty.wordWidth_eq wide, Ty.bits,
      Word.zeroExtend_toBitVec positive source.width_le, kept,
      BitVec.setWidth_setWidth_of_le _ target.width_le]
    rfl
  | trunc =>
    simp only [apply, onBits]
    rw [Ty.normalize_eq_word integer]
    congr 1
    -- The word holds the bits of the source, extended by its sign to 64 bits.
    rw [Ty.normalize_eq_word wide, Ty.bits, Ty.word, Int64.toBitVec_ofBitVec]
    by_cases narrower : target.width ≤ source.width
    · rw [if_pos narrower]
      split_ifs
      · rw [setWidth_signExtend _ target.width_le, BitVec.signExtend_eq_setWidth_of_le _ narrower]
      · rw [BitVec.zeroExtend_eq_setWidth, BitVec.setWidth_setWidth_of_le _ target.width_le]
    · rw [if_neg narrower]
      split_ifs
      · rw [setWidth_signExtend _ target.width_le]
      · rw [BitVec.zeroExtend_eq_setWidth, BitVec.setWidth_setWidth_of_le _ target.width_le]

/-! ### The machine -/

namespace Typing

/-- The checker admits instructions of an opcode at a type. -/
def Admits (op : Opcode) (t : Ty) : Prop :=
  ∃ (c : Context) (i : Instr), i.op = op ∧ i.ty = t ∧ checkInstr c i = .ok ()

theorem admits_arith_iff {op : ArithOp} {t : Ty} : Admits (.arith op) t ↔ t.isInteger ∧ t ≠ .i1 ∧
    (op.dividesSigned → t.isSigned) ∧ (op.dividesUnsigned → ¬ t.isSigned) := by
  constructor
  · rintro ⟨c, i, isOp, rfl, accepted⟩
    cases typed_of_checkInstr accepted with
    | arith op' a b isOp' args result labels integer number signed unsigned left right =>
      obtain rfl : op' = op := by simpa [isOp] using isOp'.symm
      exact ⟨integer, number, signed, unsigned⟩
    | _ => simp_all
  · rintro ⟨integer, number, signed, unsigned⟩
    have literal : Scope.operandTy? [] t (.int 0) = some t := by simp [Scope.operandTy?, integer]
    let i : Instr := { op := .arith op, ty := t, args := [.int 0, .int 0], result := some 0 }
    exact ⟨⟨{}, {}, []⟩, i, rfl, rfl,
      checkInstr_of_typed (.arith op _ _ rfl rfl rfl rfl integer number signed unsigned literal literal)⟩

theorem admits_bitwise_iff {op : BitOp} {t : Ty} : Admits (.bitwise op) t ↔ t.isInteger := by
  constructor
  · rintro ⟨c, i, isOp, rfl, accepted⟩
    cases typed_of_checkInstr accepted with
    | bitwise op' a b isOp' args result labels integer left right => exact integer
    | _ => simp_all
  · intro integer
    have literal : Scope.operandTy? [] t (.int 0) = some t := by simp [Scope.operandTy?, integer]
    let i : Instr := { op := .bitwise op, ty := t, args := [.int 0, .int 0], result := some 0 }
    exact ⟨⟨{}, {}, []⟩, i, rfl, rfl,
      checkInstr_of_typed (.bitwise op _ _ rfl rfl rfl rfl integer literal literal)⟩

end Typing

namespace Machine

variable {σ : Type} {p : Program} {host : Host σ} {fr : Frame} {i : Instr}

/-- A temporary of a declared type, and the value in its register. -/
structure Holds (fr : Frame) (id : TempId) (t : Ty) (v : Value) : Prop where
  declared : fr.scope.ty? id = some t
  register : fr.regs[id.toNat]? = some v

theorem arith_eq_word {op : ArithOp} {t : Ty} (admits : Typing.Admits (.arith op) t) (a b : Int64) :
    (op.onWords? t (t.normalize a) (t.normalize b)).map t.normalize =
      (op.onBits? (t.bits a) (t.bits b)).map t.word := by
  obtain ⟨integer, _, signed, _⟩ := Typing.admits_arith_iff.mp admits
  rw [← op.bits_onWords? integer signed, Ty.normalize_eq_word integer a, Ty.normalize_eq_word integer b,
    Option.map_map]
  exact congrArg (Option.map · _) (funext (Ty.normalize_eq_word integer))

theorem onBits?_eq_none {op : ArithOp} {w : Nat} {x y : BitVec w} :
    op.onBits? x y = none ↔ (op.dividesSigned ∨ op.dividesUnsigned) ∧ y = 0 := by
  cases op <;> simp [ArithOp.onBits?, ArithOp.dividesSigned, ArithOp.dividesUnsigned]

theorem bitwise_eq_word {op : BitOp} {t : Ty} (integer : t.isInteger = true) (a b : Int64) :
    t.normalize (op.apply t (t.normalize a) (t.normalize b)) = t.word (op.onBits (t.bits a) (t.bits b)) := by
  rw [Ty.normalize_eq_word integer, op.bits_apply integer, Ty.bits_normalize integer, Ty.bits_normalize integer]

theorem readWord_held {id : TempId} {ty : Ty} {v : Value} (register : fr.regs[id.toNat]? = some v) :
    fr.readWord ty (.temp id) = .ok (ty.normalize v.word) := by
  simp only [Frame.readWord, Frame.read, register]

theorem arith_effect {op : ArithOp} {x y : Operand} {a b : Int64} (isOp : i.op = .arith op)
    (args : i.args = [x, y]) (admits : Typing.Admits (.arith op) i.ty) (readX : fr.readWord i.ty x = .ok a)
    (readY : fr.readWord i.ty y = .ok b) : effect p host fr i =
      (op.onBits? (i.ty.bits a) (i.ty.bits b)).elim (.error .divisionByZero)
        fun z => .ok (.store (.int (i.ty.word z))) := by
  have result := arith_eq_word admits a b
  rw [Frame.readWord_normal readX, Frame.readWord_normal readY] at result
  simp only [effect, isOp, args, readX, readY, Overflow.ok_bind]
  cases computed : op.onWords? i.ty a b with
  | none =>
    rw [computed] at result
    rw [Option.map_eq_none_iff.mp result.symm]
    rfl
  | some z =>
    rw [computed] at result
    obtain ⟨bits, onBits, word⟩ := Option.map_eq_some_iff.mp result.symm
    rw [onBits]
    show Except.ok (Effect.store (.int (i.ty.normalize z))) = _
    rw [← word]
    rfl

theorem compare_effect {op : CmpOp} {x y : TempId} {t : Ty} {u v : Value} (isOp : i.op = .compare op)
    (args : i.args = [.temp x, .temp y]) (integer : t.isInteger = true) (left : Holds fr x t u)
    (right : fr.regs[y.toNat]? = some v) : effect p host fr i =
      .ok (.store (.int (if op.onBits (t.bits u.word) (t.bits v.word) then 1 else 0))) := by
  have real : t ≠ .void := by
    rintro rfl
    simp [Ty.isInteger, Ty.width] at integer
  simp only [effect, isOp, args, Overflow.tyOf_temp left.declared real, readWord_held left.register,
    readWord_held right, Overflow.ok_bind, op.holds_eq integer, Ty.bits_normalize integer]
  rfl

theorem cast_effect {op : CastOp} {x : TempId} {source : Ty} {v : Value} (isOp : i.op = .cast op)
    (args : i.args = [.temp x]) (integer : i.ty.isInteger = true) (wide : source.isInteger = true)
    (held : Holds fr x source v) : effect p host fr i =
      .ok (.store (.int (i.ty.word (op.onBits source i.ty.width (source.bits v.word))))) := by
  have real : source ≠ .void := by
    rintro rfl
    simp [Ty.isInteger, Ty.width] at wide
  simp only [effect, isOp, args, Overflow.tyOf_temp held.declared real, readWord_held held.register,
    Overflow.ok_bind, op.apply_eq_word wide integer]
  rfl

/-- The least number divided by minus one wraps to itself, and leaves no remainder. -/
theorem onBits?_intMin {w : Nat} (positive : 0 < w) :
    ArithOp.sdiv.onBits? (BitVec.intMin w) (-1) = some (BitVec.intMin w) ∧
    ArithOp.srem.onBits? (BitVec.intMin w) (-1) = some 0 := by
  have minusOne : (-1 : BitVec w).toInt = -1 := by
    show (-1#w).toInt = -1
    rw [BitVec.neg_one_eq_allOnes, BitVec.toInt_allOnes, if_pos positive]
  have nonzero : (-1 : BitVec w) ≠ 0 := by
    intro zero
    rw [zero] at minusOne
    simp at minusOne
  have quotient : (BitVec.intMin w).sdiv (-1) = BitVec.intMin w := BitVec.intMin_sdiv_neg_one
  have remainder : (BitVec.intMin w).srem (-1) = 0 := by
    apply BitVec.eq_of_toInt_eq
    rw [BitVec.toInt_srem, minusOne]
    simp
  simp only [ArithOp.onBits?, nonzero, if_false, quotient, remainder, and_self]

/-- What the machine stores for arithmetic and bitwise operations that the checker admits, for comparisons
of temporaries, which are made at the type of the first, and for casts of temporaries between any two integer
types is the word of the same operation on bit vectors of the width of the type. It traps exactly on division
by bits that are zero. -/
theorem words_compute_bits {σ : Type} (p : Program) (host : Host σ) (fr : Frame) :
    (∀ op t, Typing.Admits (.arith op) t → ∀ a b : Int64,
      (op.onWords? t (t.normalize a) (t.normalize b)).map t.normalize =
        (op.onBits? (t.bits a) (t.bits b)).map t.word ∧
      (op.onWords? t (t.normalize a) (t.normalize b) = none ↔
        (op.dividesSigned ∨ op.dividesUnsigned) ∧ t.bits b = 0)) ∧
    (∀ t : Ty, t.isInteger → ArithOp.sdiv.onBits? (BitVec.intMin t.width) (-1) = some (BitVec.intMin t.width) ∧
      ArithOp.srem.onBits? (BitVec.intMin t.width) (-1) = some 0) ∧
    (∀ op t, Typing.Admits (.bitwise op) t → ∀ a b : Int64,
      t.normalize (op.apply t (t.normalize a) (t.normalize b)) =
        t.word (op.onBits (t.bits a) (t.bits b))) ∧
    (∀ i op x y a b, i.op = .arith op → i.args = [x, y] → Typing.Admits (.arith op) i.ty →
      fr.readWord i.ty x = .ok a → fr.readWord i.ty y = .ok b →
      effect p host fr i = (op.onBits? (i.ty.bits a) (i.ty.bits b)).elim (.error .divisionByZero)
        fun z => .ok (.store (.int (i.ty.word z)))) ∧
    (∀ i op x y t t' u v, i.op = .compare op → i.args = [.temp x, .temp y] → t.isInteger →
      Holds fr x t u → Holds fr y t' v →
      effect p host fr i =
        .ok (.store (.int (if op.onBits (t.bits u.word) (t.bits v.word) then 1 else 0)))) ∧
    ∀ i op x source v, i.op = .cast op → i.args = [.temp x] → i.ty.isInteger → source.isInteger →
      Holds fr x source v →
      effect p host fr i =
        .ok (.store (.int (i.ty.word (op.onBits source i.ty.width (source.bits v.word))))) := by
  refine ⟨fun op t admits a b => ?_, fun t integer => onBits?_intMin (Ty.width_pos integer),
    fun op t admits a b => bitwise_eq_word (Typing.admits_bitwise_iff.mp admits) a b,
    fun i op x y a b => arith_effect, fun i op x y t t' u v isOp args integer left right => ?_,
    fun i op x source v => cast_effect⟩
  · have result := arith_eq_word admits a b
    refine ⟨result, ?_⟩
    rw [← onBits?_eq_none, ← Option.map_eq_none_iff, result, Option.map_eq_none_iff]
  · exact compare_effect isOp args integer left right.register

end Machine

end GuardedIL

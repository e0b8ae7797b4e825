import GuardedIL.Machine.Value
import GuardedIL.Syntax.Opcode

/-!
# Machine arithmetic

Each operation on words that are normalised at a type. A type that is not an integer counts as 64
bits wide. The results are normalised by the caller.
-/

namespace GuardedIL

def Ty.wordWidth (t : Ty) : Nat :=
  if t.isInteger then t.width else 64

def Ty.lowBits (t : Ty) (v : Int64) : UInt64 :=
  v.toUInt64 &&& Word.mask t.wordWidth

def Ty.signedBits (t : Ty) (v : Int64) : Int64 :=
  Word.signExtend t.wordWidth v

/-- There is no result exactly when the divisor is zero. -/
def ArithOp.onWords? (op : ArithOp) (t : Ty) (a b : Int64) : Option Int64 :=
  match op with
  | add => some (a + b)
  | sub => some (a - b)
  | mul => some (a * b)
  | sdiv => if b = 0 then none else some (a / b)
  | srem => if b = 0 then none else some (a % b)
  | udiv => if t.lowBits b = 0 then none else some (t.lowBits a / t.lowBits b).toInt64
  | urem => if t.lowBits b = 0 then none else some (t.lowBits a % t.lowBits b).toInt64

/-- Shift amounts are taken modulo the width. -/
def BitOp.apply (op : BitOp) (t : Ty) (a b : Int64) : Int64 :=
  let amount := t.lowBits b % t.wordWidth.toUInt64
  match op with
  | and => a &&& b
  | or => a ||| b
  | xor => a ^^^ b
  | shl => (t.lowBits a <<< amount).toInt64
  | lshr => (t.lowBits a >>> amount).toInt64
  | ashr => t.signedBits a >>> amount.toInt64

def CmpOp.holds (op : CmpOp) (t : Ty) (a b : Int64) : Bool :=
  match op with
  | eq => t.lowBits a = t.lowBits b
  | ne => t.lowBits a ≠ t.lowBits b
  | slt => t.signedBits a < t.signedBits b
  | sle => t.signedBits a ≤ t.signedBits b
  | sgt => t.signedBits b < t.signedBits a
  | sge => t.signedBits b ≤ t.signedBits a
  | ult => t.lowBits a < t.lowBits b
  | ule => t.lowBits a ≤ t.lowBits b
  | ugt => t.lowBits b < t.lowBits a
  | uge => t.lowBits b ≤ t.lowBits a

def CastOp.apply (op : CastOp) (source target : Ty) (v : Int64) : Int64 :=
  match op with
  | sext => target.normalize (Word.signExtend source.wordWidth v)
  | zext => target.normalize (Word.zeroExtend source.wordWidth v)
  | trunc => target.normalize v

end GuardedIL

/-!
# Words at a width

Every integer is a signed 64-bit word. The functions here read the low `bits` bits of a word as a
signed or an unsigned number. A width of zero or less has the single value zero, and a width of 64
or more is the word itself.
-/

namespace GuardedIL.Word

def mask (bits : Int) : UInt64 :=
  if bits ≤ 0 then 0
  else if 64 ≤ bits then 0xFFFFFFFFFFFFFFFF
  else (1 <<< bits.toNat.toUInt64) - 1

/-- The top bit of a width between 1 and 64. -/
def signBit (bits : Int) : UInt64 :=
  1 <<< (bits.toNat - 1).toUInt64

def minOf (bits : Int) : Int64 :=
  if bits ≤ 0 then 0
  else if 64 ≤ bits then Int64.minValue
  else -(signBit bits).toInt64

def maxOf (bits : Int) : Int64 :=
  if bits ≤ 0 then 0
  else if 64 ≤ bits then Int64.maxValue
  else (signBit bits - 1).toInt64

def zeroExtend (bits : Int) (v : Int64) : Int64 :=
  if 64 ≤ bits then v else (v.toUInt64 &&& mask bits).toInt64

/-- The low `bits` bits of `v`, read as a signed number: `v` wrapped to the width. -/
def signExtend (bits : Int) (v : Int64) : Int64 :=
  if 64 ≤ bits then v
  else if bits ≤ 0 then 0
  else
    let low := v.toUInt64 &&& mask bits
    if low &&& signBit bits = 0 then low.toInt64 else (low ||| ~~~(mask bits)).toInt64

def fits (bits : Int) (v : Int64) : Bool :=
  minOf bits ≤ v && v ≤ maxOf bits

/-- The side on which a word misses a width. -/
inductive RangeError where
  | underflow | overflow
  deriving DecidableEq, Repr

def RangeError.message : RangeError → String
  | .underflow => "integer narrowing underflow"
  | .overflow => "integer narrowing overflow"

def narrow (bits : Int) (v : Int64) : Except RangeError Int64 :=
  if 64 ≤ bits then .ok v
  else if v < minOf bits then .error .underflow
  else if maxOf bits < v then .error .overflow
  else .ok v

end GuardedIL.Word

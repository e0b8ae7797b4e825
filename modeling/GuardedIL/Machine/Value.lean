import GuardedIL.Syntax.Ty
import GuardedIL.Word

/-!
# Run-time values

A register holds a word or a text. A word of an integer type is normalised when it is sign-extended
at a signed type and zero-extended at any other integer type.
-/

namespace GuardedIL

/-- The representation of a word at a type; words of other types stay as they are. -/
def Ty.normalize (t : Ty) (v : Int64) : Int64 :=
  if t.isSigned then Word.signExtend t.width v
  else if t.isInteger then Word.zeroExtend t.width v
  else v

inductive Value where
  | int (word : Int64)
  | text (value : String)
  deriving DecidableEq, Repr

instance : Inhabited Value := ⟨.int 0⟩

namespace Value

/-- The word of a value. A text has none and counts as zero. -/
def word : Value → Int64
  | int w => w
  | text _ => 0

/-- The text of a value. A word stands for the missing text. -/
def text? : Value → Option String
  | int _ => none
  | text s => some s

def normalize (t : Ty) (v : Value) : Value :=
  if t.isInteger then int (t.normalize v.word) else v

end Value

end GuardedIL

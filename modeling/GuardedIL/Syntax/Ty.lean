/-!
# Types

The types of the language. An integer type has a width and a signedness; `i1` is the type of
conditions and counts as unsigned.
-/

namespace GuardedIL

inductive Ty where
  | void | i1 | i8 | i16 | i32 | i64 | u8 | u16 | u32 | u64 | isize | usize | f64 | ptr | str
  deriving DecidableEq, Repr, Inhabited

namespace Ty

def all : List Ty :=
  [void, i1, i8, i16, i32, i64, u8, u16, u32, u64, isize, usize, f64, ptr, str]

def name : Ty → String
  | void => "void"
  | i1 => "i1"
  | i8 => "i8"
  | i16 => "i16"
  | i32 => "i32"
  | i64 => "i64"
  | u8 => "u8"
  | u16 => "u16"
  | u32 => "u32"
  | u64 => "u64"
  | isize => "isize"
  | usize => "usize"
  | f64 => "f64"
  | ptr => "ptr"
  | str => "str"

def ofName? (s : String) : Option Ty :=
  all.find? (·.name == s)

/-- The number of bits of an integer type, and zero for any other. -/
def width : Ty → Nat
  | i1 => 1
  | i8 | u8 => 8
  | i16 | u16 => 16
  | i32 | u32 => 32
  | i64 | u64 | isize | usize => 64
  | void | f64 | ptr | str => 0

def isInteger (t : Ty) : Bool :=
  t.width != 0

def isSigned : Ty → Bool
  | i8 | i16 | i32 | i64 | isize => true
  | _ => false

end Ty

end GuardedIL

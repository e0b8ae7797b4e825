/-!
# Opcodes

An opcode belongs to one family, and its `shape` says how many operands, results and successors an
instruction with it has.
-/

namespace GuardedIL

/-- Integer arithmetic. -/
inductive ArithOp where
  | add | sub | mul | sdiv | udiv | srem | urem
  deriving DecidableEq, Repr, Inhabited

/-- Bitwise operations and shifts. -/
inductive BitOp where
  | and | or | xor | shl | lshr | ashr
  deriving DecidableEq, Repr, Inhabited

/-- Comparisons: equality, then signed and unsigned order. -/
inductive CmpOp where
  | eq | ne | slt | sle | sgt | sge | ult | ule | ugt | uge
  deriving DecidableEq, Repr, Inhabited

/-- Changes of width. -/
inductive CastOp where
  | sext | zext | trunc
  deriving DecidableEq, Repr, Inhabited

inductive Opcode where
  | arith (op : ArithOp)
  | bitwise (op : BitOp)
  | compare (op : CmpOp)
  | cast (op : CastOp)
  | constStr
  | call
  | br
  | cbr
  | ret
  | trap
  deriving DecidableEq, Repr, Inhabited

/-- Whether an instruction has a result. -/
inductive ResultRule where
  | required | forbidden | optional
  deriving DecidableEq, Repr

/-- The parts an instruction must have. No `maxArgs` means any number of operands. -/
structure Shape where
  result : ResultRule
  minArgs : Nat
  maxArgs : Option Nat
  successors : Nat
  terminator : Bool
  deriving DecidableEq, Repr

namespace ArithOp

def name : ArithOp → String
  | add => "add"
  | sub => "sub"
  | mul => "mul"
  | sdiv => "sdiv"
  | udiv => "udiv"
  | srem => "srem"
  | urem => "urem"

/-- Division and remainder of signed numbers. -/
def dividesSigned : ArithOp → Bool
  | sdiv | srem => true
  | _ => false

/-- Division and remainder of unsigned numbers. -/
def dividesUnsigned : ArithOp → Bool
  | udiv | urem => true
  | _ => false

end ArithOp

def BitOp.name : BitOp → String
  | and => "and"
  | or => "or"
  | xor => "xor"
  | shl => "shl"
  | lshr => "lshr"
  | ashr => "ashr"

def CmpOp.name : CmpOp → String
  | eq => "icmp_eq"
  | ne => "icmp_ne"
  | slt => "scmp_lt"
  | sle => "scmp_le"
  | sgt => "scmp_gt"
  | sge => "scmp_ge"
  | ult => "ucmp_lt"
  | ule => "ucmp_le"
  | ugt => "ucmp_gt"
  | uge => "ucmp_ge"

def CastOp.name : CastOp → String
  | sext => "sext"
  | zext => "zext"
  | trunc => "trunc"

namespace Opcode

def all : List Opcode :=
  [.arith .add, .arith .sub, .arith .mul, .arith .sdiv, .arith .udiv, .arith .srem, .arith .urem,
    .bitwise .and, .bitwise .or, .bitwise .xor, .bitwise .shl, .bitwise .lshr, .bitwise .ashr,
    .compare .eq, .compare .ne, .compare .slt, .compare .sle, .compare .sgt, .compare .sge,
    .compare .ult, .compare .ule, .compare .ugt, .compare .uge,
    .cast .sext, .cast .zext, .cast .trunc,
    constStr, call, br, cbr, ret, trap]

def name : Opcode → String
  | arith op => op.name
  | bitwise op => op.name
  | compare op => op.name
  | cast op => op.name
  | constStr => "const_str"
  | call => "call"
  | br => "br"
  | cbr => "cbr"
  | ret => "ret"
  | trap => "trap"

def ofName? (s : String) : Option Opcode :=
  all.find? (·.name == s)

/-- The name of the family an opcode belongs to. -/
def family : Opcode → String
  | arith _ => "arithmetic"
  | bitwise _ => "bitwise"
  | compare _ => "compare"
  | cast _ => "cast"
  | constStr => "constant"
  | call => "call"
  | br | cbr | ret | trap => "control"

def shape : Opcode → Shape
  | arith _ | bitwise _ | compare _ => ⟨.required, 2, some 2, 0, false⟩
  | cast _ | constStr => ⟨.required, 1, some 1, 0, false⟩
  | call => ⟨.optional, 0, none, 0, false⟩
  | br => ⟨.forbidden, 0, some 0, 1, true⟩
  | cbr => ⟨.forbidden, 1, some 1, 2, true⟩
  | ret => ⟨.forbidden, 0, some 1, 0, true⟩
  | trap => ⟨.forbidden, 0, some 0, 0, true⟩

def isTerminator (op : Opcode) : Bool :=
  op.shape.terminator

def isArithmetic : Opcode → Bool
  | arith _ => true
  | _ => false

end Opcode

end GuardedIL

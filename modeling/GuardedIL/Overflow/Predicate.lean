import GuardedIL.Overflow.Candidate
import GuardedIL.Word

/-!
# Overflow predicates

The condition under which a candidate overflows, as an expression over its two operands. A predicate
is kept as a schedule of steps: operands come before the steps that use them, equal subexpressions
are computed once, and the last step is the condition. Arithmetic in a step wraps at its width.
-/

namespace GuardedIL.Overflow

/-- Operations of two steps. `and` and `or` join conditions; `bitOr` joins words. -/
inductive StepOp where
  | add | sub | mul | sdiv | bitOr | eq | ne | lt | le | gt | ge | and | or
  deriving DecidableEq, Repr, Inhabited

inductive StepKind where
  | left | right | const | sext | zext
  | op (op : StepOp)
  deriving DecidableEq, Repr, Inhabited

def StepOp.name : StepOp → String
  | add => "add"
  | sub => "sub"
  | mul => "mul"
  | sdiv => "sdiv"
  | bitOr => "bitor"
  | eq => "eq"
  | ne => "ne"
  | lt => "lt"
  | le => "le"
  | gt => "gt"
  | ge => "ge"
  | and => "and"
  | or => "or"

namespace StepKind

def all : List StepKind :=
  [.left, .right, .const, .op .add, .op .sub, .op .mul, .op .sdiv, .op .bitOr, .sext, .zext,
    .op .eq, .op .ne, .op .lt, .op .le, .op .gt, .op .ge, .op .and, .op .or]

def name : StepKind → String
  | left => "left"
  | right => "right"
  | const => "const"
  | sext => "sext"
  | zext => "zext"
  | op o => o.name

end StepKind

/-- One step. `value` is that of a constant; `lhs` and `rhs` are the numbers of earlier steps. -/
structure Step where
  kind : StepKind
  bits : Int
  value : Int64 := 0
  lhs : Option Nat := none
  rhs : Option Nat := none
  deriving DecidableEq, Repr, Inhabited

/-- The expression whose schedule a predicate is. -/
inductive Expr where
  | left (bits : Int)
  | right (bits : Int)
  | const (bits : Int) (value : Int64)
  | sext (bits : Int) (a : Expr)
  | zext (bits : Int) (a : Expr)
  | op (op : StepOp) (bits : Int) (a b : Expr)
  deriving DecidableEq, Repr, Inhabited

/-- How an overflow of a product is found: by multiplying at twice the width, or by dividing the
wrapped product by one factor. -/
inductive MulStrategy where
  | widen | backDivision
  deriving DecidableEq, Repr, Inhabited

structure Predicate where
  op : GuardOp
  width : Width
  steps : List Step
  deriving DecidableEq, Repr, Inhabited

/-! ### Conditions -/

namespace Expr

def compare (o : StepOp) (a b : Expr) : Expr :=
  op o 1 a b

def both (a b : Expr) : Expr :=
  op .and 1 a b

def either (a b : Expr) : Expr :=
  op .or 1 a b

def minConst (w : Width) (bits : Int) : Expr :=
  const bits (Word.minOf w.bits)

def maxConst (w : Width) (bits : Int) : Expr :=
  const bits (Word.maxOf w.bits)

def number (w : Width) (value : Int64) : Expr :=
  const w.bits value

/-- `l + r` is too large if `r` is not negative and `l > max - r`, and too small if `r` is negative
and `l < min - r`. -/
def addOverflows (w : Width) : Expr :=
  let l := left w.bits
  let r := right w.bits
  either
    (both (compare .ge r (number w 0)) (compare .gt l (op .sub w.bits (maxConst w w.bits) r)))
    (both (compare .lt r (number w 0)) (compare .lt l (op .sub w.bits (minConst w w.bits) r)))

/-- `l - r` is too large if `r` is not positive and `l > max + r`, and too small if `r` is positive
and `l < min + r`. -/
def subOverflows (w : Width) : Expr :=
  let l := left w.bits
  let r := right w.bits
  either
    (both (compare .le r (number w 0)) (compare .gt l (op .add w.bits (maxConst w w.bits) r)))
    (both (compare .gt r (number w 0)) (compare .lt l (op .add w.bits (minConst w w.bits) r)))

/-- The only quotient that does not fit is `min / -1`. -/
def divOverflows (w : Width) : Expr :=
  both (compare .eq (right w.bits) (number w (-1)))
    (compare .eq (left w.bits) (minConst w w.bits))

/-- The product at twice the width is exact. -/
def mulOverflowsWide (w : Width) : Expr :=
  let wide : Int := 2 * w.bits
  let product := op .mul wide (sext wide (left w.bits)) (sext wide (right w.bits))
  either (compare .lt product (minConst w wide)) (compare .gt product (maxConst w wide))

/-- A wrapped product divided by a factor that is not zero gives the other factor back, unless the
product overflowed; `min * -1` is the exception. The divisor is one where the factor is zero. -/
def mulOverflowsBack (w : Width) : Expr :=
  let l := left w.bits
  let r := right w.bits
  let product := op .mul w.bits l r
  let divisor := op .bitOr w.bits r (zext w.bits (compare .eq r (number w 0)))
  let quotient := op .sdiv w.bits product divisor
  both (both (compare .ne l (number w 0)) (compare .ne r (number w 0)))
    (either (compare .ne quotient l)
      (both (compare .eq l (minConst w w.bits)) (compare .eq r (number w (-1)))))

def overflows (op : GuardOp) (w : Width) (s : MulStrategy) : Expr :=
  match op with
  | .add => addOverflows w
  | .sub => subOverflows w
  | .div => divOverflows w
  | .mul =>
    match s with
    | .widen => mulOverflowsWide w
    | .backDivision => mulOverflowsBack w

/-! ### Schedules -/

/-- Adds the steps of an expression that are not there yet, operands first, and returns the number
of its own step. -/
def place (e : Expr) (placed : List (Expr × Step)) : Nat × List (Expr × Step) :=
  match placed.findIdx? (·.1 = e) with
  | some n => (n, placed)
  | none =>
    match e with
    | left bits => (placed.length, placed ++ [(e, { kind := .left, bits })])
    | right bits => (placed.length, placed ++ [(e, { kind := .right, bits })])
    | const bits value => (placed.length, placed ++ [(e, { kind := .const, bits, value })])
    | sext bits a =>
      let (m, placed) := place a placed
      (placed.length, placed ++ [(e, { kind := .sext, bits, lhs := some m })])
    | zext bits a =>
      let (m, placed) := place a placed
      (placed.length, placed ++ [(e, { kind := .zext, bits, lhs := some m })])
    | op o bits a b =>
      let (m, placed) := place a placed
      let (n, placed) := place b placed
      (placed.length, placed ++ [(e, { kind := .op o, bits, lhs := some m, rhs := some n })])

def schedule (e : Expr) : List Step :=
  (place e []).2.map (·.2)

end Expr

def Candidate.predicate (c : Candidate) (s : MulStrategy) : Predicate :=
  ⟨c.op, c.width, (Expr.overflows c.op c.width s).schedule⟩

/-! ### Evaluation -/

def truth (b : Bool) : Int64 :=
  if b then 1 else 0

/-- An operation at a width. A quotient by zero is zero. -/
def StepOp.apply (o : StepOp) (bits : Int) (a b : Int64) : Int64 :=
  match o with
  | add => Word.signExtend bits (a + b)
  | sub => Word.signExtend bits (a - b)
  | mul => Word.signExtend bits (a * b)
  | sdiv => if b = 0 then 0 else Word.signExtend bits (a / b)
  | bitOr => Word.signExtend bits (a ||| b)
  | eq => truth (a = b)
  | ne => truth (a ≠ b)
  | lt => truth (a < b)
  | le => truth (a ≤ b)
  | gt => truth (b < a)
  | ge => truth (b ≤ a)
  | and => a &&& b
  | or => a ||| b

/-- The value of a step from those of its operands, `a` and `b`, and of the guarded operation. -/
def Step.apply (s : Step) (a b left right : Int64) : Int64 :=
  match s.kind with
  | .left => Word.signExtend s.bits left
  | .right => Word.signExtend s.bits right
  | .const => Word.signExtend s.bits s.value
  | .sext => a
  | .zext => a &&& 1
  | .op o => o.apply s.bits a b

/-- The value of an earlier step, and zero where there is none. -/
def valueAt (values : Array Int64) (n : Option Nat) : Int64 :=
  (n.bind (values[·]?)).getD 0

def stepValues (steps : List Step) (left right : Int64) : Array Int64 :=
  steps.foldl
    (fun values s =>
      values.push (s.apply (valueAt values s.lhs) (valueAt values s.rhs) left right))
    #[]

def Predicate.evaluate (p : Predicate) (left right : Int64) : Bool :=
  match (stepValues p.steps left right).back? with
  | some v => v ≠ 0
  | none => false

end GuardedIL.Overflow

import GuardedIL.Typing.Error

/-!
# Typing of instructions

An instruction is accepted if it has the shape of its opcode and its operands have the types that
the opcode asks for. The first rule it breaks is the error.
-/

namespace GuardedIL

/-- The types of a function seen from a call. -/
structure Signature where
  ret : Ty
  params : List Ty
  deriving DecidableEq, Repr

def Extern.signature (e : Extern) : Signature :=
  ⟨e.ret, e.params⟩

def Func.signature (f : Func) : Signature :=
  ⟨f.ret, f.params.map (·.ty)⟩

/-- The signature a call of `name` has; external functions come first. -/
def Program.signature? (p : Program) (name : String) : Option Signature :=
  match p.externNamed? name with
  | some e => some e.signature
  | none => (p.funcNamed? name).map Func.signature

namespace Typing

/-- What the typing of an instruction depends on. -/
structure Context where
  program : Program
  func : Func
  scope : Scope

/-- The type of an operand, which has to be defined. -/
def operandTy (s : Scope) (expected : Ty) (o : Operand) : Except InstrError Ty :=
  match s.operandTy? expected o with
  | some ty => .ok ty
  | none => .error (.undefinedValue o)

/-- The operand has to be defined and of type `expected`. -/
def checkOperand (s : Scope) (expected : Ty) (mismatch : InstrError) (o : Operand) :
    Except InstrError Unit := do
  let ty ← operandTy s expected o
  require (ty = expected) mismatch

def checkShape (i : Instr) : Except InstrError Unit := do
  let shape := i.op.shape
  require (shape.minArgs ≤ i.args.length ∧ ∀ n ∈ shape.maxArgs, i.args.length ≤ n) .operandCount
  require (shape.result = .required → i.result.isSome) .missingResult
  require (shape.result = .forbidden → i.result.isNone) .unexpectedResult
  require (i.labels.length = shape.successors) .successorCount

/-- Both operands of a binary operation have the type of the instruction. -/
def checkBinaryOperands (s : Scope) (i : Instr) : Except InstrError Unit :=
  (i.args.take 2).forM (checkOperand s i.ty .operandMismatch)

def checkArith (s : Scope) (op : ArithOp) (i : Instr) : Except InstrError Unit := do
  require i.ty.isInteger .integerRequired
  require (i.ty ≠ .i1) .arithmeticOnI1
  require (op.dividesSigned → i.ty.isSigned) .signedDivision
  require (op.dividesUnsigned → ¬ i.ty.isSigned) .unsignedDivision
  checkBinaryOperands s i

def checkBitwise (s : Scope) (i : Instr) : Except InstrError Unit := do
  require i.ty.isInteger .integerRequired
  checkBinaryOperands s i

/-- A comparison takes two integers of one type; a literal takes the type of the other side, and two
literals need none. -/
def checkCompare (s : Scope) (i : Instr) (a b : Operand) : Except InstrError Unit := do
  require (i.ty = .i1) .comparisonResult
  let left ← operandTy s .void a
  let right ← operandTy s left b
  let common := if left = .void then right else left
  require (common = .void ∨ (common.isInteger ∧ common = right)) .operandMismatch

def checkCast (s : Scope) (op : CastOp) (i : Instr) (a : Operand) : Except InstrError Unit := do
  let source ← operandTy s i.ty a
  require (i.ty.isInteger ∧ source.isInteger) .integerRequired
  match op with
  | .trunc => require (i.ty.width < source.width) .castWidth
  | .sext | .zext => require (source.width < i.ty.width) .castWidth

def checkConstStr (p : Program) (i : Instr) : Operand → Except InstrError Unit
  | .global name => do
    require (i.ty = .str) .constStrForm
    require (p.globalNamed? name).isSome (.unknownGlobal name)
  | _ => .error .constStrForm

def checkCall (c : Context) (i : Instr) : Except InstrError Unit :=
  match c.program.signature? i.callee with
  | none => .error (.unknownCallee i.callee)
  | some sig => do
    require (i.args.length = sig.params.length) .callArgCount
    (sig.params.zip i.args).forM fun (ty, o) => checkOperand c.scope ty .callArgMismatch o
    require (i.result.isSome → i.ty = sig.ret) .callResultMismatch
    require (i.result.isSome → sig.ret ≠ .void) .voidCallResult

def checkReturn (c : Context) (i : Instr) : Except InstrError Unit := do
  require ((c.func.ret = .void) = i.args.isEmpty) .returnForm
  i.args.forM (checkOperand c.scope c.func.ret .returnMismatch)

/-- The rules of each opcode for an instruction of the right shape. -/
def checkRules (c : Context) (i : Instr) : Except InstrError Unit :=
  match i.op, i.args with
  | .arith op, _ => checkArith c.scope op i
  | .bitwise _, _ => checkBitwise c.scope i
  | .compare _, [a, b] => checkCompare c.scope i a b
  | .cast op, [a] => checkCast c.scope op i a
  | .constStr, [a] => checkConstStr c.program i a
  | .call, _ => checkCall c i
  | .cbr, [a] => checkOperand c.scope .i1 .conditionType a
  | .ret, _ => checkReturn c i
  | _, _ => .ok ()

def checkInstr (c : Context) (i : Instr) : Except InstrError Unit := do
  checkShape i
  checkRules c i

end Typing

end GuardedIL

import GuardedIL.Syntax.Program

/-!
# Candidates for a guard

A guard protects signed addition, subtraction, multiplication and division of 8, 16 and 32 bits.
Classifying an instruction also finds arithmetic that makes no sense.
-/

namespace GuardedIL.Overflow

inductive GuardOp where
  | add | sub | mul | div
  deriving DecidableEq, Repr, Inhabited

inductive Width where
  | w8 | w16 | w32
  deriving DecidableEq, Repr, Inhabited

def GuardOp.all : List GuardOp :=
  [.add, .sub, .mul, .div]

def GuardOp.name : GuardOp → String
  | add => "add"
  | sub => "sub"
  | mul => "mul"
  | div => "sdiv"

def GuardOp.ofOpcode? : Opcode → Option GuardOp
  | .arith .add => some add
  | .arith .sub => some sub
  | .arith .mul => some mul
  | .arith .sdiv => some div
  | _ => none

namespace Width

def all : List Width :=
  [.w8, .w16, .w32]

def bits : Width → Nat
  | w8 => 8
  | w16 => 16
  | w32 => 32

def ty : Width → Ty
  | w8 => .i8
  | w16 => .i16
  | w32 => .i32

def name (w : Width) : String :=
  w.ty.name

def ofTy? : Ty → Option Width
  | .i8 => some w8
  | .i16 => some w16
  | .i32 => some w32
  | _ => none

end Width

/-- An operation that a guard can protect. -/
structure Candidate where
  op : GuardOp
  width : Width
  deriving DecidableEq, Repr, Inhabited

/-- What is wrong with an arithmetic instruction. -/
inductive Malformation where
  | operandType (ty : Ty)
  | operandCount (count : Nat)
  | missingResult
  | signedDivision (ty : Ty)
  | unsignedDivision (ty : Ty)
  deriving DecidableEq, Repr

def Malformation.message : Malformation → String
  | operandType ty => "non-integer operand type " ++ ty.name
  | operandCount count => "expected 2 operands, found " ++ toString count
  | missingResult => "missing result"
  | signedDivision ty => "signed division on " ++ ty.name
  | unsignedDivision ty => "unsigned division on " ++ ty.name

/-- The message behind the opcode it is about. -/
def Malformation.reason (m : Malformation) (op : Opcode) : String :=
  op.name ++ ": " ++ m.message

inductive Verdict where
  | ignored
  | qualifies (candidate : Candidate)
  | malformed (why : Malformation)
  deriving DecidableEq, Repr

/-- Instructions that a guard protects already, or that belong to one, are ignored. -/
def classify (i : Instr) : Verdict :=
  match i.op with
  | .arith op =>
    if ¬ i.ty.isInteger ∨ i.ty = .i1 then .malformed (.operandType i.ty)
    else if i.args.length ≠ 2 then .malformed (.operandCount i.args.length)
    else if i.result.isNone then .malformed .missingResult
    else if op.dividesSigned ∧ ¬ i.ty.isSigned then .malformed (.signedDivision i.ty)
    else if op.dividesUnsigned ∧ i.ty.isSigned then .malformed (.unsignedDivision i.ty)
    else if i.checked ∨ i.wraps then .ignored
    else
      match GuardOp.ofOpcode? i.op, Width.ofTy? i.ty with
      | some op, some width => .qualifies ⟨op, width⟩
      | _, _ => .ignored
  | _ => .ignored

def candidate? (i : Instr) : Option Candidate :=
  match classify i with
  | .qualifies c => some c
  | _ => none

/-- A malformed instruction in its place. -/
structure MalformedSite where
  func : String
  block : String
  instr : Instr
  why : Malformation
  deriving DecidableEq, Repr

end GuardedIL.Overflow

namespace GuardedIL

open Overflow

def Block.malformedSites (b : Block) (func : String) : List MalformedSite :=
  b.instrs.filterMap fun i =>
    match classify i with
    | .malformed why => some ⟨func, b.label, i, why⟩
    | _ => none

def Func.malformedSites (f : Func) : List MalformedSite :=
  f.blocks.flatMap (·.malformedSites f.name)

/-- The malformed instructions of a program, in the order of the text. -/
def Program.malformedSites (p : Program) : List MalformedSite :=
  p.funcs.flatMap Func.malformedSites

/-- The number of instructions to guard. -/
def Overflow.candidateCount (is : List Instr) : Nat :=
  is.countP fun i => (candidate? i).isSome

def Func.candidateCount (f : Func) : Nat :=
  Overflow.candidateCount f.instrs

def Program.candidateCount (p : Program) : Nat :=
  Overflow.candidateCount p.instrs

end GuardedIL

import GuardedIL.Syntax.Program

/-!
# Scopes

The temporaries of a function with their types. Parameters, block parameters and instruction results
define temporaries, in the order in which they are written.
-/

namespace GuardedIL

/-- What defines a temporary. -/
inductive Origin where
  | param
  | blockParam (label : String)
  | result (label : String) (instr : Instr)
  deriving DecidableEq, Repr

structure Def where
  id : TempId
  ty : Ty
  origin : Origin
  deriving DecidableEq, Repr

def Block.defs (b : Block) : List Def :=
  b.params.map (fun p => ⟨p.id, p.ty, .blockParam b.label⟩) ++
    b.instrs.filterMap (fun i => i.result.map fun id => ⟨id, i.ty, .result b.label i⟩)

def Func.defs (f : Func) : List Def :=
  f.params.map (fun p => ⟨p.id, p.ty, .param⟩) ++ f.blocks.flatMap Block.defs

/-- Temporaries with their types, the latest definition first. -/
abbrev Scope := List (TempId × Ty)

namespace Scope

def ty? (s : Scope) (id : TempId) : Option Ty :=
  s.lookup id

def contains (s : Scope) (id : TempId) : Bool :=
  (s.ty? id).isSome

/-- Adds definitions up to the first that repeats a temporary, which is returned with the scope. -/
def collect (s : Scope) : List Def → Scope × Option Def
  | [] => (s, none)
  | d :: ds => if s.contains d.id then (s, some d) else collect ((d.id, d.ty) :: s) ds

/-- The type of an operand where `expected` is wanted; an integer literal takes it if it can. There
is no type for a temporary outside the scope. -/
def operandTy? (s : Scope) (expected : Ty) : Operand → Option Ty
  | .temp id => s.ty? id
  | .int _ => some (if expected = .void ∨ expected.isInteger then expected else .i64)
  | .bool _ => some .i1
  | .str _ => some .str
  | .global _ | .null => some .ptr

end Scope

/-- Every definition of the function, where a later one hides an earlier one of the same number. -/
def Func.scope (f : Func) : Scope :=
  (f.defs.map fun d => (d.id, d.ty)).reverse

end GuardedIL

import GuardedIL.Syntax.Program

/-!
# Analyses

An analysis computes a fact of type `ρ` about a program. Facts are kept in a cache until a pass does
not preserve them.
-/

namespace GuardedIL.Pipeline

/-- The analyses a pass preserves: all of them, or those that it names. -/
structure Preserved where
  all : Bool := false
  named : List String := []
  deriving DecidableEq, Repr, Inhabited

namespace Preserved

def everything : Preserved :=
  { all := true }

def nothing : Preserved :=
  {}

def preserve (p : Preserved) (analysis : String) : Preserved :=
  { p with named := if p.named.contains analysis then p.named else p.named ++ [analysis] }

def keeps (p : Preserved) (analysis : String) : Bool :=
  p.all || p.named.contains analysis

def hasNamed (p : Preserved) : Bool :=
  !p.named.isEmpty

end Preserved

/-- The registered analyses, the latest first. -/
abbrev Analyses (ρ : Type) := List (String × (Program → ρ))

abbrev Cache (ρ : Type) := List (String × ρ)

variable {ρ : Type}

/-- Drops the facts that a pass did not preserve. -/
def Cache.invalidate (cache : Cache ρ) (p : Preserved) : Cache ρ :=
  if p.all then cache
  else if ¬ p.hasNamed then []
  else cache.filter fun fact => p.keeps fact.1

end GuardedIL.Pipeline

import GuardedIL.Pipeline.Analyses

/-!
# Scripts

A script is what a pass does, one action after the other: look at the program, change it, fetch the
fact of an analysis, change a fact where it is kept, drop facts, write to the log of the pipeline, or
use the state `σ` of the host, which is also where passes keep what they remember. It ends with the
analyses it preserves, or gives up with a message.
-/

namespace GuardedIL.Pipeline

inductive Script (ρ σ : Type) where
  | inspect (next : Program → Script ρ σ)
  | edit (change : Program → Program) (next : Script ρ σ)
  | fetch (analysis : String) (next : Option ρ → Script ρ σ)
  | revise (analysis : String) (change : ρ → ρ) (next : Script ρ σ)
  | isKnown (analysis : String) (next : Bool → Script ρ σ)
  | computations (next : Nat → Script ρ σ)
  | invalidate (preserved : Preserved) (next : Script ρ σ)
  | write (text : String) (next : Script ρ σ)
  | host (change : σ → σ) (next : Script ρ σ)
  | consult (next : σ → Script ρ σ)
  | finish (preserved : Preserved)
  | abort (message : String)

/-- The program with the facts known about it. `computed` counts how often an analysis has run. -/
structure State (ρ σ : Type) where
  program : Program
  cache : Cache ρ := []
  computed : Nat := 0
  log : String := ""
  host : σ

variable {ρ σ : Type}

def State.write (s : State ρ σ) (text : String) : State ρ σ :=
  { s with log := s.log ++ text }

/-- The fact of an analysis, from the cache if it is there. There is none for an analysis that is
not registered. -/
def State.fetch (s : State ρ σ) (analyses : Analyses ρ) (analysis : String) :
    Option ρ × State ρ σ :=
  match analyses.lookup analysis with
  | none => (none, s)
  | some compute =>
    match s.cache.lookup analysis with
    | some fact => (some fact, s)
    | none =>
      let fact := compute s.program
      (some fact, { s with cache := (analysis, fact) :: s.cache, computed := s.computed + 1 })

/-- A fact that was fetched is a reference into the cache, through which it can be changed. -/
def State.revise (s : State ρ σ) (analysis : String) (change : ρ → ρ) : State ρ σ :=
  { s with cache := s.cache.map fun (known, fact) =>
      (known, if known = analysis then change fact else fact) }

/-- Runs a script to its end; the error is the message of a script that gives up. -/
def Script.run (analyses : Analyses ρ) :
    Script ρ σ → State ρ σ → Except String Preserved × State ρ σ
  | inspect next, s => (next s.program).run analyses s
  | edit change next, s => next.run analyses { s with program := change s.program }
  | fetch analysis next, s =>
    let (fact, s) := s.fetch analyses analysis
    (next fact).run analyses s
  | revise analysis change next, s => next.run analyses (s.revise analysis change)
  | isKnown analysis next, s => (next (analyses.lookup analysis).isSome).run analyses s
  | computations next, s => (next s.computed).run analyses s
  | invalidate preserved next, s =>
    next.run analyses { s with cache := s.cache.invalidate preserved }
  | write text next, s => next.run analyses (s.write text)
  | host change next, s => next.run analyses { s with host := change s.host }
  | consult next, s => (next s.host).run analyses s
  | finish preserved, s => (.ok preserved, s)
  | abort message, s => (.error message, s)

end GuardedIL.Pipeline

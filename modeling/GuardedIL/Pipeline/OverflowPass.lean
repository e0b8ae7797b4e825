import GuardedIL.Overflow.Program
import GuardedIL.Pipeline.Setup

/-!
# The overflow pass

Guarding as a pass. Whether the package is to be guarded is an analysis of its own, which the pass
preserves; a run that guards nothing preserves every analysis.
-/

namespace GuardedIL

def Program.malformedLog (p : Program) : DiagnosticLog :=
  { entries := p.malformedSites.map (·.diagnostic) }

namespace Pipeline

/-- A fact about a program: an answer, or a number. -/
inductive Fact where
  | answer (yes : Bool)
  | number (n : Nat)
  deriving DecidableEq, Repr, Inhabited

def overflowPassName : String := "overflow-guard"

def exemptionAnalysis : String := "overflow-exemption"

variable {σ : Type}

/-- Guards the program if the analysis says so. -/
def guardScript (o : Overflow.Options) (p : Program) (instrument : Bool) : Script Fact σ :=
  match p.guard o instrument with
  | .error e => .abort e.message
  | .ok guarded =>
    let preserved :=
      if guarded.stats.instrumented = 0 then .everything
      else Preserved.nothing.preserve exemptionAnalysis
    .edit (fun _ => guarded.program) (.write guarded.trace (.finish preserved))

def overflowScript (o : Overflow.Options) : Script Fact σ :=
  .inspect fun p =>
    if p.malformedSites.isEmpty then
      .fetch exemptionAnalysis fun fact => guardScript o p (fact = some (.answer true))
    else .abort p.malformedLog.text

/-- Registers the pass and its analysis. -/
def Setup.addOverflowPass (m : Setup Fact σ) (o : Overflow.Options) : Setup Fact σ :=
  (m.addAnalysis exemptionAnalysis fun p => .answer (o.exemptions.shouldGuard p.package)).addPass
    overflowPassName (overflowScript o)

end Pipeline

end GuardedIL

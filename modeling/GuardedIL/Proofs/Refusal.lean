import GuardedIL.Pipeline.OverflowPass
import GuardedIL.Proofs.Caching
import GuardedIL.Proofs.Idempotence

/-!
# Refused runs

Guarding is refused for malformed arithmetic, and for names of its own that the program has taken. A run
that is refused has changed nothing, also when it works in place: it reads all that can stand against it
before it writes. The pass gives up in the same cases.
-/

namespace GuardedIL

open Overflow

namespace Program

variable {p : Program} {o : Options} {instrument : Bool}

/-! ### What is refused -/

/-- The instructions with the names of their function and block, in the order of the text. -/
def places (p : Program) : List (String × String × Instr) :=
  p.funcs.flatMap fun f => f.blocks.flatMap fun b => b.instrs.map fun i => (f.name, b.label, i)

theorem declarePanic_error {e : GuardError} : p.declarePanic = .error e ↔ p.panicConflict? = some e := by
  unfold declarePanic
  cases p.panicConflict? <;> simp

/-- What is left to refuse a program without malformed arithmetic. -/
theorem guard_error_of_sane {e : GuardError} (sane : p.malformedSites = []) :
    p.guard o instrument = .error e ↔
      instrument = true ∧ p.candidateCount ≠ 0 ∧ p.panicConflict? = some e := by
  unfold Program.guard
  simp only [sane]
  cases instrument with
  | false => simp
  | true =>
    by_cases none : p.candidateCount = 0
    · simp [none, bind, Except.bind, pure, Except.pure]
    · rw [← declarePanic_error]
      cases p.declarePanic <;> simp [none, bind, Except.bind, pure, Except.pure]

end Program

/-! ### The run in place -/

namespace Overflow

/-- A program that is changed in place, and the trace written so far. -/
structure Workbench where
  program : Program
  trace : String := ""
  deriving DecidableEq

namespace Workbench

def write (w : Workbench) (o : Options) (line : String) : Workbench :=
  if o.trace then { w with trace := w.trace ++ line } else w

def addExtern (w : Workbench) (e : Extern) : Workbench :=
  { w with program := { w.program with externs := w.program.externs ++ [e] } }

def addGlobal (w : Workbench) (g : Global) : Workbench :=
  { w with program := { w.program with globals := w.program.globals ++ [g] } }

def setFunc (w : Workbench) (n : Nat) (f : Func) : Workbench :=
  { w with program := { w.program with funcs := w.program.funcs.set n f } }

/-- Checks every name before it adds the first declaration. -/
def declarePanic (w : Workbench) : Except GuardError Unit × Workbench :=
  let declared := w.program.externNamed? Host.panicName
  let defined := w.program.globalNamed? messageGlobal
  if (w.program.funcNamed? Host.panicName).isSome then (.error .panicDefined, w)
  else if declared.any (fun e => e.ret ≠ panicExtern.ret ∨ e.params ≠ panicExtern.params) then
    (.error .panicDeclared, w)
  else if defined.any (fun g => g.ty ≠ panicGlobal.ty ∨ g.init ≠ panicGlobal.init) then
    (.error .messageDefined, w)
  else
    -- The global is looked up in the program as it was; an extern does not change it.
    let w := if declared.isSome then w else w.addExtern panicExtern
    let w := if defined.isSome then w else w.addGlobal panicGlobal
    (.ok (), w)

def guardFunc (o : Options) (run : Stats × Workbench) (n : Nat) : Stats × Workbench :=
  match run.2.program.funcs[n]? with
  | none => run
  | some f =>
    let stats := { run.1 with
      visited := run.1.visited + f.instrCount
      instrumented := run.1.instrumented + f.candidateCount }
    (stats, (run.2.setFunc n (f.guard o.mul)).write o f.guardTrace)

/-- Guards the program where it stands. What was written before an error stays. -/
def guard (w : Workbench) (o : Options) (instrument : Bool) : Except GuardError Stats × Workbench :=
  match w.program.malformedSites with
  | site :: _ => (.error (.malformed site), w)
  | [] =>
    if ¬ instrument then
      (.ok { exempt := true }, w.write o ("overflow-guard: package '" ++ w.program.package ++ "' exempt\n"))
    else
      match if w.program.candidateCount = 0 then (.ok (), w) else w.declarePanic with
      | (.error e, w) => (.error e, w)
      | (.ok (), w) =>
        let (stats, w) := (List.range w.program.funcs.length).foldl (guardFunc o) ({}, w)
        (.ok stats, w)

variable {o : Options}

end Workbench

end Overflow

/-! ### The pass -/

namespace Pipeline

section Abort

variable {ρ σ : Type} {m : Setup ρ σ} {pass : String} {script : Script ρ σ} {s s' : State ρ σ}

end Abort

variable {σ : Type} {m : Setup Fact σ} {o : Options} {s : State Fact σ}

/-- Whether the pass guards the program: as the cache says, or else as the exemptions do. -/
def instruments (o : Options) (s : State Fact σ) : Bool :=
  (s.cache.lookup exemptionAnalysis).getD (.answer (o.exemptions.shouldGuard s.program.package)) =
    .answer true

@[simp]
theorem instruments_enter (pass : String) : instruments o (m.enter pass s) = instruments o s := by
  rw [instruments, Setup.enter_cache, Setup.enter_program, instruments]

/-- What the pass comes to; `fetched` is the state once it has the fact of its analysis. -/
theorem overflowScript_run (m : Setup Fact σ) (o : Options) (s : State Fact σ) :
    let fetched := (s.fetch (m.addOverflowPass o).analyses exemptionAnalysis).2
    (overflowScript o).run (m.addOverflowPass o).analyses s =
      if s.program.malformedSites ≠ [] then (.error s.program.malformedLog.text, s)
      else
        match s.program.guard o (instruments o s) with
        | .error e => (.error e.message, fetched)
        | .ok g =>
          (.ok (if g.stats.instrumented = 0 then .everything
              else Preserved.nothing.preserve exemptionAnalysis),
            { fetched with program := g.program }.write g.trace) := by
  have fact : (s.fetch (m.addOverflowPass o).analyses exemptionAnalysis).1 =
      some ((s.cache.lookup exemptionAnalysis).getD
        (.answer (o.exemptions.shouldGuard s.program.package))) := by
    have registered : (m.addOverflowPass o).analyses.lookup exemptionAnalysis =
        some fun p => .answer (o.exemptions.shouldGuard p.package) := by
      simp [Setup.addOverflowPass, Setup.addPass, Setup.addEntry, Setup.addAnalysis]
    unfold State.fetch
    rw [registered]
    cases s.cache.lookup exemptionAnalysis <;> rfl
  dsimp only
  rw [overflowScript, Script.run]
  by_cases bad : s.program.malformedSites = []
  · rw [if_neg (not_not.mpr bad), if_pos (by simp [bad])]
    simp only [Script.run]
    rw [fact, guardScript]
    simp only [Option.some.injEq]
    rw [← instruments]
    cases s.program.guard o (instruments o s) with
    | error e => rfl
    | ok g => simp only [Script.run]
  · rw [if_pos bad, if_neg (by simpa using bad)]
    rfl

theorem runPasses_overflow (m : Setup Fact σ) (o : Options) (s : State Fact σ) :
    ((m.addOverflowPass o).runPasses [overflowPassName] s) =
      (m.addOverflowPass o).runScript overflowPassName (overflowScript o) s := by
  have known : Setup.entry? (m.addOverflowPass o) overflowPassName = some (.script (overflowScript o)) := by
    simp [Setup.addOverflowPass, Setup.addPass, Setup.addEntry, Setup.entry?]
  rw [Setup.runPasses, known]
  dsimp only
  split <;> rename_i ended <;> rw [ended]
  rfl

end Pipeline

end GuardedIL

import GuardedIL.Pipeline.Script
import GuardedIL.Syntax.Printer
import GuardedIL.Typing.Program

/-!
# Pipelines

A setup knows analyses, passes and named pipelines. Running a pipeline runs its passes in order on
one program with one cache. It stops at a pass that is not there or gives up, and at a program that
does not verify if that is checked.
-/

namespace GuardedIL.Pipeline

/-- What is registered under the name of a pass: nothing that makes one, something that makes none,
or a script. -/
inductive Entry (ρ σ : Type) where
  | missing
  | unmade
  | script (script : Script ρ σ)

/-- Later registrations come first and hide earlier ones of the same name. -/
structure Setup (ρ σ : Type) where
  analyses : Analyses ρ := []
  passes : List (String × Entry ρ σ) := []
  pipelines : List (String × List String) := []
  verifyEach : Bool := false
  printBefore : Bool := false
  printAfter : Bool := false

inductive RunError where
  | unknownPass (pass : String)
  | unmadePass (pass : String)
  | unknownPipeline (pipeline : String)
  | rejected (error : Typing.ProgramError)
  | aborted (message : String)
  deriving DecidableEq, Repr

def RunError.diagnostic : RunError → Diagnostic
  | unknownPass pass => { message := "unknown pass '" ++ pass ++ "'" }
  | unmadePass pass => { message := "pass '" ++ pass ++ "' could not be created" }
  | unknownPipeline pipeline => { message := "unknown pipeline '" ++ pipeline ++ "'" }
  | rejected error => error.diagnostic
  | aborted message => { message }

variable {ρ σ : Type}

/-- Writes the text of the program to the log. -/
def State.dump (s : State ρ σ) (moment pass : String) : State ρ σ :=
  s.write ("*** IR " ++ moment ++ " pass '" ++ pass ++ "' ***\n" ++ s.program.text ++ "\n")

namespace Setup

def addAnalysis (m : Setup ρ σ) (name : String) (compute : Program → ρ) : Setup ρ σ :=
  { m with analyses := (name, compute) :: m.analyses }

def addEntry (m : Setup ρ σ) (name : String) (entry : Entry ρ σ) : Setup ρ σ :=
  { m with passes := (name, entry) :: m.passes }

def addPass (m : Setup ρ σ) (name : String) (script : Script ρ σ) : Setup ρ σ :=
  m.addEntry name (.script script)

def addPipeline (m : Setup ρ σ) (name : String) (passes : List String) : Setup ρ σ :=
  { m with pipelines := (name, passes) :: m.pipelines }

def entry? (m : Setup ρ σ) (pass : String) : Option (Entry ρ σ) :=
  m.passes.lookup pass

def pipeline? (m : Setup ρ σ) (name : String) : Option (List String) :=
  m.pipelines.lookup name

/-- Checks the program behind a pass, if that is asked for. -/
def verifyAfter (m : Setup ρ σ) (pass : String) (s : State ρ σ) :
    Except RunError Unit × State ρ σ :=
  if ¬ m.verifyEach then (.ok (), s)
  else
    match s.program.verify with
    | .ok () => (.ok (), s)
    | .error e =>
      let notice := "verification failed after pass '" ++ pass ++ "'\n" ++ e.diagnostic.text
      (.error (.rejected e), s.write notice)

/-- Runs one script as the pass `pass`. The message of a script that gives up ends at its first
NUL. -/
def runScript (m : Setup ρ σ) (pass : String) (script : Script ρ σ) (s : State ρ σ) :
    Except RunError Unit × State ρ σ :=
  let s := if m.printBefore then s.dump "before" pass else s
  match script.run m.analyses s with
  | (.error message, s) => (.error (.aborted (Text.untilNul message)), s)
  | (.ok preserved, s) =>
    let s := { s with cache := s.cache.invalidate preserved }
    let s := if m.printAfter then s.dump "after" pass else s
    m.verifyAfter pass s

def runPasses (m : Setup ρ σ) : List String → State ρ σ → Except RunError Unit × State ρ σ
  | [], s => (.ok (), s)
  | pass :: rest, s =>
    match m.entry? pass with
    | none | some .missing => (.error (.unknownPass pass), s)
    | some .unmade => (.error (.unmadePass pass), s)
    | some (.script script) =>
      match m.runScript pass script s with
      | (.ok (), s) => m.runPasses rest s
      | (.error e, s) => (.error e, s)

/-- Runs passes on a program with an empty cache. -/
def run (m : Setup ρ σ) (passes : List String) (p : Program) (host : σ) :
    Except RunError Unit × State ρ σ :=
  m.runPasses passes { program := p, host }

/-- Runs a named pipeline. -/
def runPipeline (m : Setup ρ σ) (name : String) (p : Program) (host : σ) :
    Except RunError Unit × State ρ σ :=
  match m.pipeline? name with
  | none => (.error (.unknownPipeline name), { program := p, host })
  | some passes => m.run passes p host

end Setup

end GuardedIL.Pipeline

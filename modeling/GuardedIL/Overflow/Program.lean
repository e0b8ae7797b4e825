import GuardedIL.Diagnostic
import GuardedIL.Exemptions
import GuardedIL.Overflow.Guard

/-!
# Guarding a program

`Program.guard` puts a guard in front of every candidate and declares what the guards call. It fails
on malformed arithmetic and on names that the program has taken for something else.
-/

namespace GuardedIL

namespace Overflow

inductive GuardError where
  | malformed (site : MalformedSite)
  | panicDefined
  | panicDeclared
  | messageDefined
  deriving DecidableEq, Repr

def MalformedSite.message (s : MalformedSite) : String :=
  "overflow-guard: malformed instruction in @" ++ s.func ++ ":" ++ s.block ++ ": " ++
    s.why.reason s.instr.op

def MalformedSite.diagnostic (s : MalformedSite) : Diagnostic :=
  { message := s.message, loc := s.instr.loc }

def GuardError.message : GuardError → String
  | malformed site => site.message
  | panicDefined => "function @" ++ Host.panicName ++ " conflicts with the overflow runtime"
  | panicDeclared => "conflicting declaration of @" ++ Host.panicName
  | messageDefined => "conflicting definition of @" ++ messageGlobal

def GuardError.diagnostic : GuardError → Diagnostic
  | malformed site => site.diagnostic
  | e => { message := e.message }

/-- The declaration of the function that reports an overflow. -/
def panicExtern : Extern :=
  { name := Host.panicName, ret := .void, params := [.str] }

/-- The text that it reports. -/
def panicGlobal : Global :=
  { name := messageGlobal, ty := .str, init := overflowMessage }

/-- Guards the instructions of the block `b` that follow those it holds already. -/
def guardInstrs (s : MulStrategy) (b : Block) : List Instr → FreshNames → List Block × FreshNames
  | [], names => ([b], names)
  | i :: rest, names =>
    match candidate? i with
    | none => guardInstrs s { b with instrs := b.instrs ++ [i] } rest names
    | some c =>
      let (g, names) := Guard.ofInstr i (c.predicate s) names
      let (blocks, names) := guardInstrs s (g.contBlock b []) rest names
      (g.headBlock b b.instrs :: g.faultBlock :: blocks, names)

def guardBlocks (s : MulStrategy) : List Block → FreshNames → List Block × FreshNames
  | [], names => ([], names)
  | b :: rest, names =>
    let (first, names) := guardInstrs s { b with instrs := [] } b.instrs names
    let (others, names) := guardBlocks s rest names
    (first ++ others, names)

/-- What guarding did. -/
structure Stats where
  visited : Nat := 0
  instrumented : Nat := 0
  exempt : Bool := false
  deriving DecidableEq, Repr, Inhabited

def Stats.unchanged (s : Stats) : Nat :=
  s.visited - s.instrumented

structure Options where
  exemptions : Exemptions := .standard
  mul : MulStrategy := .widen
  trace : Bool := false
  deriving DecidableEq, Repr, Inhabited

/-- The guarded program, and a line of trace for each function if it was asked for. -/
structure Guarded where
  program : Program
  stats : Stats
  trace : String
  deriving DecidableEq, Repr, Inhabited

end Overflow

open Overflow

/-- Lengthens a list of value names to `count`, unless there are no names at all. -/
def padNames (names : List String) (count : Nat) : List String :=
  if names.isEmpty then names else names ++ List.replicate (count - names.length) ""

def Func.guard (s : MulStrategy) (f : Func) : Func :=
  let (blocks, names) := guardBlocks s f.blocks (.ofFunc f)
  { f with blocks, valueNames := padNames f.valueNames names.nextTemp.toNat }

def Func.guardTrace (f : Func) : String :=
  "overflow-guard: @" ++ f.name ++ " instrumented=" ++ toString f.candidateCount ++ " unchanged=" ++
    toString (f.instrCount - f.candidateCount) ++ "\n"

namespace Program

/-- The first of the names the guards need that the program has taken for something else. -/
def panicConflict? (p : Program) : Option GuardError :=
  if (p.funcNamed? Host.panicName).isSome then some .panicDefined
  else if (p.externNamed? Host.panicName).any
      (fun e => e.ret ≠ panicExtern.ret ∨ e.params ≠ panicExtern.params) then some .panicDeclared
  else if (p.globalNamed? messageGlobal).any
      (fun g => g.ty ≠ panicGlobal.ty ∨ g.init ≠ panicGlobal.init) then some .messageDefined
  else none

/-- Declares the function that reports an overflow and its message, unless they are there. -/
def declarePanic (p : Program) : Except GuardError Program :=
  match p.panicConflict? with
  | some e => .error e
  | none =>
    .ok { p with
      externs :=
        if (p.externNamed? Host.panicName).isSome then p.externs else p.externs ++ [panicExtern]
      globals :=
        if (p.globalNamed? messageGlobal).isSome then p.globals else p.globals ++ [panicGlobal] }

/-- Guards every candidate of the program if `instrument` is set, and nothing otherwise. Malformed
arithmetic is an error in either case. -/
def guard (p : Program) (o : Options) (instrument : Bool) : Except GuardError Guarded :=
  match p.malformedSites with
  | site :: _ => .error (.malformed site)
  | [] =>
    if ¬ instrument then
      let trace := if o.trace then "overflow-guard: package '" ++ p.package ++ "' exempt\n" else ""
      .ok { program := p, stats := { exempt := true }, trace }
    else do
      let declared ← if p.candidateCount = 0 then .ok p else p.declarePanic
      return {
        program := { declared with funcs := declared.funcs.map (Func.guard o.mul) }
        stats := { visited := p.instrCount, instrumented := p.candidateCount }
        trace := if o.trace then String.join (p.funcs.map Func.guardTrace) else "" }

/-- Guards the program unless its package is exempt. -/
def guardUnlessExempt (p : Program) (o : Options) : Except GuardError Guarded :=
  p.guard o (o.exemptions.shouldGuard p.package)

end Program

end GuardedIL

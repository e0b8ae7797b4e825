import GuardedIL.Machine.Frame
import GuardedIL.Machine.Host

/-!
# The machine

The machine runs one instruction a step. `effect` says what an instruction does in a frame, which it
only reads; `step` carries it out on the stack of frames. `run` repeats steps up to a bound, so a
run that does not end has no outcome for any bound.
-/

namespace GuardedIL.Machine

variable {σ : Type}

inductive Effect (σ : Type) where
  | store (v : Value)
  | jump (target : Block) (values : List Value)
  | enter (callee : Func) (args : List Value)
  | handle (handler : Handler σ) (args : List Value)
  | leave (v : Value)

/-- A branch to `label`; arguments are read at the types of the block's parameters. -/
def jump (fr : Frame) (label : String) (args : List Operand) : Except Cause (Effect σ) :=
  match fr.func.blockLabelled? label with
  | none => .error (.unknownBlock label)
  | some target =>
    if args.length ≠ target.params.length then .error (.branchArgCount label)
    else do
      let values ← fr.readAll ((target.params.map (·.ty)).zip args)
      return .jump target values

/-- A call; functions of the program come before handlers. A function's arguments are read at the
types of its parameters, and a handler's at the types they declare, which is `i64` for a literal. -/
def call (p : Program) (host : Host σ) (fr : Frame) (i : Instr) : Except Cause (Effect σ) :=
  match p.funcNamed? i.callee with
  | some callee => do
    let tyAt (n : Nat) : Ty := (callee.params[n]?.map (·.ty)).getD .i64
    let args ← fr.readAll (i.args.zipIdx.map fun (o, n) => (tyAt n, o))
    return .enter callee args
  | none =>
    match host.handler? i.callee with
    | none => .error (.unresolvedExtern i.callee)
    | some handler => do
      let args ← fr.readAll (i.args.map fun o => (fr.tyOf .i64 o, o))
      return .handle handler args

/-- The name under which `const_str` looks for a global. -/
def globalName : Operand → String
  | .str name | .global name => name
  | _ => ""

def effect (p : Program) (host : Host σ) (fr : Frame) (i : Instr) : Except Cause (Effect σ) :=
  match i.op, i.args with
  | .arith op, a :: b :: _ => do
    let x ← fr.readWord i.ty a
    let y ← fr.readWord i.ty b
    match op.onWords? i.ty x y with
    | some z => return .store (.int (i.ty.normalize z))
    | none => .error .divisionByZero
  | .bitwise op, a :: b :: _ => do
    let x ← fr.readWord i.ty a
    let y ← fr.readWord i.ty b
    return .store (.int (i.ty.normalize (op.apply i.ty x y)))
  | .compare op, a :: b :: _ => do
    -- Two literals are compared at `i64`.
    let ty := fr.tyOf (fr.tyOf .i64 b) a
    let x ← fr.readWord ty a
    let y ← fr.readWord ty b
    return .store (.int (if op.holds ty x y then 1 else 0))
  | .cast op, a :: _ => do
    let source := fr.tyOf i.ty a
    let x ← fr.readWord source a
    return .store (.int (op.apply source i.ty x))
  | .constStr, a :: _ =>
    match p.globalNamed? (globalName a) with
    | some g => .ok (.store (.text (Text.untilNul g.init)))
    | none => .error (.unknownGlobal (globalName a))
  | .call, _ => call p host fr i
  | .br, _ =>
    match i.labels with
    | label :: _ => jump fr label (i.argsTo 0)
    | [] => .error .malformed
  | .cbr, a :: _ => do
    let x ← fr.readWord .i1 a
    let n := if x = 0 then 1 else 0
    match i.labels[n]? with
    | some label => jump fr label (i.argsTo n)
    | none => .error .malformed
  | .ret, [] => .ok (.leave (.int 0))
  | .ret, a :: _ => do
    let v ← fr.read fr.func.ret a
    return .leave (v.normalize fr.func.ret)
  | .trap, _ => .error .trapInstr
  | _, _ => .error .malformed

structure Caller where
  frame : Frame
  call : Instr

/-- The running frame, the frames that wait for it, the latest first, and the state of the host. -/
structure Config (σ : Type) where
  frame : Frame
  callers : List Caller := []
  state : σ

/-- How a run ends. A function of type `void` returns no value. -/
inductive Outcome where
  | returned (v : Option Value)
  | trapped (t : Trap)
  deriving DecidableEq, Repr

inductive Step (σ : Type) where
  | next (c : Config σ)
  | halt (o : Outcome) (state : σ)

def Caller.resume (c : Caller) (v : Value) : Frame :=
  c.frame.store c.call.result (v.normalize c.call.ty)

/-- Carries out the effect of the instruction `i`, whose frame has moved past it. -/
def perform (c : Config σ) (i : Instr) : Effect σ → Step σ
  | .store v => .next { c with frame := c.frame.store i.result v }
  | .jump target values => .next { c with frame := c.frame.goto target values }
  | .enter callee args =>
    match Frame.enter callee args (c.callers.length + 1) c.frame.site with
    | .error cause => .halt (.trapped ⟨cause, c.frame.site⟩) c.state
    | .ok fr => .next { c with frame := fr, callers := ⟨c.frame, i⟩ :: c.callers }
  | .handle handler args =>
    match handler args c.state with
    | (.error f, state) => .halt (.trapped ⟨.raised f, c.frame.site⟩) state
    | (.ok v, state) =>
      .next { c with frame := c.frame.store i.result (v.normalize i.ty), state := state }
  | .leave v =>
    match c.callers with
    | [] => .halt (.returned (if c.frame.func.ret = .void then none else some v)) c.state
    | caller :: rest => .next { c with frame := caller.resume v, callers := rest }

def step (p : Program) (host : Host σ) (c : Config σ) : Step σ :=
  match c.frame.block.instrs[c.frame.ip]? with
  | none => .halt (.trapped ⟨.noTerminator c.frame.block.label, c.frame.site⟩) c.state
  | some i =>
    let c := { c with frame := c.frame.advance i }
    match effect p host c.frame i with
    | .error cause => .halt (.trapped ⟨cause, c.frame.site⟩) c.state
    | .ok e => perform c i e

def start (p : Program) (name : String) (args : List Value) (state : σ) :
    Except Cause (Config σ) :=
  match p.funcNamed? name with
  | none => .error (.unknownFunc name)
  | some f => do
    let fr ← Frame.enter f args 0 {}
    return { frame := fr, state }

def runFrom (p : Program) (host : Host σ) : (bound : Nat) → Config σ → Option (Outcome × σ)
  | 0, _ => none
  | bound + 1, c =>
    match step p host c with
    | .next c => runFrom p host bound c
    | .halt o state => some (o, state)

def run (p : Program) (host : Host σ) (bound : Nat) (name : String) (args : List Value)
    (state : σ) : Option (Outcome × σ) :=
  match start p name args state with
  | .error cause => some (.trapped ⟨cause, {}⟩, state)
  | .ok c => runFrom p host bound c

/-- The exit status of a run of `main`: its word in 32 bits, and one after a trap. -/
def Outcome.status : Outcome → Int32
  | returned v => ((v.map Value.word).getD 0).toInt32
  | trapped _ => 1

def Outcome.errorText : Outcome → String
  | returned _ => ""
  | trapped t => t.text ++ "\n"

end GuardedIL.Machine

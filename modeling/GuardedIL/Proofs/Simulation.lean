import GuardedIL.Proofs.CheckedMachine
import GuardedIL.Proofs.Mirror

/-!
# Guarded programs trap exactly where arithmetic overflows

A guarded program simulates the checked machine: each step is answered by the instruction itself, or
by its check, the branch and the instruction. So a run of the guarded program ends if and only if the
checked run of the program ends, and both end in the same way.
-/

namespace GuardedIL.Overflow

open Typing Machine

variable {σ : Type}

/-! ### Related configurations -/

/-- Both frames are about to run the same instructions of a block. -/
structure FrameRel (s : MulStrategy) (p : Program) (fr fr' : Frame) : Prop where
  mirrors : Mirrors s p fr fr'
  block : fr.block ∈ fr.func.blocks
  more : fr.block.instrs.drop fr.ip ≠ []
  place : At s fr.func (fr.block.instrs.drop fr.ip) fr'.block fr'.ip

structure CallerRel (s : MulStrategy) (p : Program) (k k' : Caller) : Prop where
  frame : FrameRel s p k.frame k'.frame
  result : k'.call.result = k.call.result
  ty : k'.call.ty = k.call.ty

structure ConfigRel (s : MulStrategy) (p : Program) (c c' : Config σ) : Prop where
  frame : FrameRel s p c.frame c'.frame
  callers : List.Forall₂ (CallerRel s p) c.callers c'.callers
  state : c'.state = c.state

/-- Both steps lead to related configurations, or end in the same way. -/
inductive SameStep (s : MulStrategy) (p : Program) : Machine.Step σ → Machine.Step σ → Prop
  | next {d d' : Config σ} (rel : ConfigRel s p d d') : SameStep s p (.next d) (.next d')
  | halt {o o' : Outcome} (state : σ) (agree : Agrees o o') :
    SameStep s p (.halt o state) (.halt o' state)

variable {s : MulStrategy} {p p' : Program} {host : Host σ}

theorem FrameRel.store {fr fr' : Frame} (rel : FrameRel s p fr fr') (result : Option TempId)
    (v : Value) : FrameRel s p (fr.store result v) (fr'.store result v) := by
  obtain ⟨func, block, ip⟩ := store_keeps fr result v
  obtain ⟨_, block', ip'⟩ := store_keeps fr' result v
  refine ⟨rel.mirrors.store result v, ?_, ?_, ?_⟩
  · rw [func, block]
    exact rel.block
  · rw [block, ip]
    exact rel.more
  · rw [func, block, ip, block', ip']
    exact rel.place

theorem FrameRel.goto {fr fr' : Frame} (mirrors : Mirrors s p fr fr') (typed : FuncTyped p fr.func)
    {t head : Block} (member : t ∈ fr.func.blocks) (params : head.params = t.params)
    (place : At s fr.func t.instrs head 0) (values : List Value) :
    FrameRel s p (fr.goto t values) (fr'.goto head values) := by
  have bound := mirrors.bindParams t.params values
  obtain ⟨func, _⟩ := bindParams_keeps fr t.params values
  rw [← params] at bound
  refine ⟨?_, ?_, instrs_ne_nil (typed.blocks t member), ?_⟩
  · rw [Frame.goto, Frame.goto, ← params]
    exact { bound with }
  · change t ∈ (fr.bindParams t.params values).func.blocks
    rwa [func]
  · change At s (fr.bindParams t.params values).func t.instrs head 0
    rwa [func]

theorem FrameRel.entry {f : Func} (member : f ∈ p.funcs) (typed : FuncTyped p f) {entry head : Block}
    (inside : entry ∈ f.blocks) (place : At s f entry.instrs head 0) (args : List Value)
    (site site' : Site) :
    FrameRel s p
      (Frame.bindParams { func := f, scope := f.scope
                          regs := Array.replicate f.registerCount (.int 0), block := entry, site }
        f.params args)
      (Frame.bindParams { func := f.guard s, scope := (f.guard s).scope
                          regs := Array.replicate (f.guard s).registerCount (.int 0), block := head
                          site := site' }
        f.params args) := by
  generalize initial : ({ func := f, scope := f.scope
                          regs := Array.replicate f.registerCount (.int 0), block := entry
                          site } : Frame) = fr
  generalize initial' : ({ func := f.guard s, scope := (f.guard s).scope
                           regs := Array.replicate (f.guard s).registerCount (.int 0), block := head
                           site := site' } : Frame) = fr'
  obtain ⟨func, block, ip⟩ := bindParams_keeps fr f.params args
  obtain ⟨_, block', ip'⟩ := bindParams_keeps fr' f.params args
  have mirrors : Mirrors s p fr fr' := by
    subst initial initial'
    refine ⟨member, rfl, rfl, rfl, by simp, by simp, fun k lt => ?_⟩
    have lt' := lt_of_lt_of_le lt (registerCount_le_guard f s)
    simp only [Array.getElem?_replicate]
    rw [if_pos lt, if_pos lt']
  refine ⟨mirrors.bindParams f.params args, ?_, ?_, ?_⟩
  · rw [func, block, ← initial]
    exact inside
  · rw [block, ip, ← initial]
    exact instrs_ne_nil (typed.blocks entry inside)
  · rw [func, block, ip, block', ip', ← initial, ← initial']
    exact place

/-- A call enters the guarded function as it enters the function. -/
theorem enter_mirror {f : Func} (member : f ∈ p.funcs) (typed : FuncTyped p f) (room : f.IdsFit s)
    (args : List Value) (depth : Nat) (site site' : Site) :
    (∃ cause, Frame.enter f args depth site = .error cause ∧
      Frame.enter (f.guard s) args depth site' = .error cause) ∨
    ∃ fr fr', Frame.enter f args depth site = .ok fr ∧
      Frame.enter (f.guard s) args depth site' = .ok fr' ∧ FrameRel s p fr fr' := by
  obtain ⟨entry, later, blocks⟩ := List.exists_cons_of_ne_nil typed.nonempty
  obtain ⟨head, tail, blocks', place⟩ := At.entry room blocks
  have params : (f.guard s).params = f.params := rfl
  simp only [Frame.enter, blocks, blocks', params]
  split_ifs with deep count
  · exact .inl ⟨_, rfl, rfl⟩
  · exact .inl ⟨_, rfl, rfl⟩
  · exact .inr ⟨_, _, rfl, rfl, FrameRel.entry member typed (by simp [blocks]) place args site site'⟩

/-! ### One instruction -/

/-- The guarded program is about to run the next instruction `i` itself, past any check of it. -/
structure Stands (s : MulStrategy) (p : Program) (c c' : Config σ) (i : Instr) (rest : List Instr)
    (mark : Bool) : Prop where
  mirrors : Mirrors s p c.frame c'.frame
  callers : List.Forall₂ (CallerRel s p) c.callers c'.callers
  state : c'.state = c.state
  here : c'.frame.block.instrs[c'.frame.ip]? = some { i with checked := mark }
  place : At s c.frame.func rest c'.frame.block (c'.frame.ip + 1)

theorem ConfigRel.stands {c c' : Config σ} {i : Instr} {rest : List Instr} (rel : ConfigRel s p c c')
    (next : c.frame.block.instrs.drop c.frame.ip = i :: rest) (other : candidate? i = none) :
    Stands s p c c' i rest i.checked := by
  have place := rel.frame.place
  rw [next] at place
  obtain ⟨here, follows⟩ := place.other other
  exact ⟨rel.frame.mirrors, rel.callers, rel.state, here, follows⟩

theorem admitted_of_next {fr fr' : Frame} {i : Instr} {rest : List Instr}
    (mirrors : Mirrors s p fr fr') (typed : FuncTyped p fr.func) (block : fr.block ∈ fr.func.blocks)
    (next : fr.block.instrs.drop fr.ip = i :: rest) : Admitted ⟨p, fr.func, fr.scope⟩ i := by
  rw [mirrors.scope]
  exact typed.admitted block (List.mem_of_getElem? (getElem?_of_drop next))

section Step

variable (guarded : GuardedBy s p p') (typed : ProgramTyped p) (room : p.IdsFit s)
include typed room

theorem perform_mirror {c c' : Config σ} {i i' : Instr} {e e' : Effect σ}
    (mirrors : Mirrors s p c.frame c'.frame)
    (callers : List.Forall₂ (CallerRel s p) c.callers c'.callers) (state : c'.state = c.state)
    (siteFunc : c'.frame.site.func = c.frame.site.func)
    (siteLine : c'.frame.site.line = c.frame.site.line) (result : i'.result = i.result)
    (ty : i'.ty = i.ty) (same : SameEffect s p c.frame.func i e e')
    (later : i.op.isTerminator = false → FrameRel s p c.frame c'.frame) :
    SameStep s p (perform c i e) (perform c' i' e') := by
  cases same with
  | store v straight =>
    simp only [perform, result]
    exact .next ⟨(later straight).store _ v, callers, state⟩
  | jump t head values member found params place =>
    have func := typed.funcs _ mirrors.member
    exact .next ⟨FrameRel.goto mirrors func member params place values, callers, state⟩
  | enter callee args member straight =>
    have depth := callers.length_eq
    rcases enter_mirror (s := s) member (typed.funcs callee member) (room callee member) args
        (c.callers.length + 1) c.frame.site c'.frame.site with
      ⟨cause, enters, enters'⟩ | ⟨fr, fr', enters, enters', rel⟩
    · simp only [perform, ← depth, enters, enters', state]
      exact .halt _ (.trapped cause _ _ siteFunc siteLine)
    · simp only [perform, ← depth, enters, enters']
      exact .next ⟨rel, .cons ⟨later straight, result, ty⟩ callers, state⟩
  | handle handler args straight =>
    simp only [perform, state]
    cases handled : handler args c.state with
    | mk answer state₁ =>
      cases answer with
      | error fault => exact .halt _ (.trapped _ _ _ siteFunc siteLine)
      | ok v =>
        simp only [result, ty]
        exact .next ⟨(later straight).store _ _, callers, rfl⟩
  | leave v =>
    cases callers' : c.callers with
    | nil =>
      have ret : c'.frame.func.ret = c.frame.func.ret := by
        rw [mirrors.func]
        rfl
      rw [callers'] at callers
      simp only [perform, callers', List.forall₂_nil_left_iff.mp callers, ret, state]
      exact .halt _ (.returned _)
    | cons k ks =>
      rw [callers'] at callers
      obtain ⟨k', ks', caller, rest, same⟩ := List.forall₂_cons_left_iff.mp callers
      simp only [perform, callers', same]
      refine .next ⟨?_, rest, state⟩
      simp only [Caller.resume, caller.result, caller.ty]
      exact caller.frame.store _ _

include guarded

/-- The same instruction in related frames, whether it is marked as guarded or not. -/
theorem step_mirror {c c' : Config σ} {i : Instr} {rest : List Instr} {mark : Bool}
    (block : c.frame.block ∈ c.frame.func.blocks)
    (next : c.frame.block.instrs.drop c.frame.ip = i :: rest) (stands : Stands s p c c' i rest mark) :
    SameStep s p (step p host c) (step p' host c') := by
  obtain ⟨mirrors, callers, state, next', place⟩ := stands
  have func := typed.funcs _ mirrors.member
  have here := getElem?_of_drop next
  have later : c.frame.block.instrs.drop (c.frame.ip + 1) = rest := by
    rw [← List.drop_drop, next]
    rfl
  have admitted := admitted_of_next mirrors func block next
  have moved := mirrors.advance i { i with checked := mark }
  have same : SameResult s p c.frame.func i (effect p host (c.frame.advance i) i)
      (effect p' host (c'.frame.advance { i with checked := mark }) { i with checked := mark }) :=
    effect_mirror guarded moved func (room _ mirrors.member) admitted
  have name : c'.frame.func.name = c.frame.func.name := by
    rw [mirrors.func]
    rfl
  simp only [step, here, next']
  generalize effect p host (c.frame.advance i) i = e at same ⊢
  generalize effect p' host (c'.frame.advance { i with checked := mark })
    { i with checked := mark } = e' at same ⊢
  cases same with
  | error cause =>
    simp only [state]
    exact .halt _ (.trapped cause _ _ name rfl)
  | ok same =>
    refine perform_mirror typed room moved callers state name rfl rfl rfl same fun straight => ?_
    refine ⟨moved, block, ?_, ?_⟩
    · change c.frame.block.instrs.drop (c.frame.ip + 1) ≠ []
      rw [later]
      exact rest_ne_nil (func.blocks _ block) next straight
    · change At s c.frame.func (c.frame.block.instrs.drop (c.frame.ip + 1)) _ (c'.frame.ip + 1)
      rw [later]
      exact place

end Step

/-! ### The parts of a guard -/

/-- The branch of a guard leads to its fault block exactly if the condition holds. -/
theorem branch_effect {g : Guard} {fr : Frame} {holds : Bool} {t : Block}
    (read : fr.readWord .i1 g.condition = .ok (truth holds))
    (target : fr.func.blockLabelled? (if holds then g.faultLabel else g.contLabel) = some t)
    (params : t.params = []) : effect p host fr g.branch = .ok (.jump t []) := by
  have bare : ∀ label, fr.func.blockLabelled? label = some t →
      (jump fr label [] : Except Cause (Effect σ)) = .ok (.jump t []) := by
    intro label known
    simp [jump, known, params, Frame.readAll, ok_bind, pure, Except.pure]
  simp only [effect, Guard.branch, read, ok_bind]
  cases holds with
  | false => exact bare _ target
  | true => exact bare _ target

theorem branch_runs (p : Program) (host : Host σ) {c : Config σ} {g : Guard} {holds : Bool} {t : Block}
    (here : c.frame.block.instrs[c.frame.ip]? = some g.branch)
    (read : c.frame.readWord .i1 g.condition = .ok (truth holds))
    (target : c.frame.func.blockLabelled? (if holds then g.faultLabel else g.contLabel) = some t)
    (params : t.params = []) :
    step p host c =
      .next { c with frame := { c.frame.advance g.branch with block := t, ip := 0 } } := by
  have jumps : effect p host (c.frame.advance g.branch) g.branch = .ok (.jump t []) :=
    branch_effect read target params
  simp only [step, here, jumps, perform, Frame.goto, params]
  rfl

/-- The site of instruction number `n` in the fault block of a frame. -/
def faultSite (fr : Frame) (loc : Loc) (n : Nat) : Site where
  func := fr.func.name
  block := fr.block.label
  ip := n
  line := if loc.line = 0 then -1 else loc.line.toInt32

/-- How a fault block ends: in a trap, whatever the host does with the report. -/
def faultEnd (host : Host σ) (site : Nat → Site) (state : σ) : Outcome × σ :=
  match host.handler? Host.panicName with
  | none => (.trapped ⟨.unresolvedExtern Host.panicName, site 1⟩, state)
  | some handler =>
    match handler [.text overflowMessage] state with
    | (.error fault, state) => (.trapped ⟨.raised fault, site 1⟩, state)
    | (.ok _, state) => (.trapped ⟨.trapInstr, site 2⟩, state)

/-- A host that takes the report and lets the program go on. -/
def lenient : Host σ :=
  Host.empty.register Host.panicName fun _ state => (.ok (.int 0), state)

section Fault

variable (p host) {c : Config σ} {id : TempId} {loc : Loc}
  (instrs : c.frame.block.instrs = faultInstrs id loc)
include instrs

theorem load_step {g : Global} (message : p.globalNamed? messageGlobal = some g)
    (text : g.init = overflowMessage) (first : c.frame.ip = 0) :
    step p host c = .next { c with frame := { c.frame with
      ip := 1
      site := faultSite c.frame loc 0
      regs := c.frame.regs.setIfInBounds id.toNat (.text overflowMessage) } } := by
  have whole : Text.untilNul overflowMessage = overflowMessage := by decide
  have next : c.frame.block.instrs[c.frame.ip]? = some
      { result := some id, op := .constStr, ty := .str, args := [.global messageGlobal], loc } := by
    rw [instrs, first]
    rfl
  simp only [step, next, effect, globalName, message, text, whole, perform]
  simp only [Frame.advance, Frame.store, Frame.write, first, faultSite]

theorem report_step (undefined : p.funcNamed? Host.panicName = none) (second : c.frame.ip = 1)
    (held : c.frame.regs[id.toNat]? = some (.text overflowMessage)) :
    step p host c =
      match host.handler? Host.panicName with
      | none =>
        .halt (.trapped ⟨.unresolvedExtern Host.panicName, faultSite c.frame loc 1⟩) c.state
      | some handler =>
        match handler [.text overflowMessage] c.state with
        | (.error fault, state) => .halt (.trapped ⟨.raised fault, faultSite c.frame loc 1⟩) state
        | (.ok _, state) =>
          .next { c with
            frame := { c.frame with ip := 2, site := faultSite c.frame loc 1 }, state } := by
  have next : c.frame.block.instrs[c.frame.ip]? = some
      { op := .call, callee := Host.panicName, args := [.temp id], loc } := by
    rw [instrs, second]
    rfl
  simp only [step, next, effect, call, undefined]
  cases host.handler? Host.panicName with
  | none => simp only [Frame.advance, second, faultSite]
  | some handler =>
    simp only [Frame.readAll, Frame.read, List.map_cons, List.map_nil, Frame.advance, held, ok_bind,
      pure, Except.pure, perform, second, faultSite]
    rfl

theorem trap_step (third : c.frame.ip = 2) :
    step p host c = .halt (.trapped ⟨.trapInstr, faultSite c.frame loc 2⟩) c.state := by
  have next : c.frame.block.instrs[c.frame.ip]? = some { op := .trap, loc } := by
    rw [instrs, third]
    rfl
  simp only [step, next, effect]
  simp only [Frame.advance, third, faultSite]

theorem fault_runs {g : Global} (message : p.globalNamed? messageGlobal = some g)
    (text : g.init = overflowMessage) (undefined : p.funcNamed? Host.panicName = none)
    (first : c.frame.ip = 0) (register : id.toNat < c.frame.regs.size) :
    iterate (step p host) 3 c = some (faultEnd host (faultSite c.frame loc) c.state) := by
  have loaded := load_step p host instrs message text first
  generalize moved : ({ c with frame := { c.frame with
      ip := 1
      site := faultSite c.frame loc 0
      regs := c.frame.regs.setIfInBounds id.toNat (.text overflowMessage) } } : Config σ) = d at loaded
  have held : d.frame.regs[id.toNat]? = some (.text overflowMessage) := by
    rw [← moved]
    exact Array.getElem?_setIfInBounds_self_of_lt register
  have reported := report_step p host (c := d) (by rw [← moved]; exact instrs) undefined
    (by rw [← moved]) held
  have ends : ∀ state site, step p host { d with frame := { d.frame with ip := 2, site }, state } =
      .halt (.trapped ⟨.trapInstr, faultSite d.frame loc 2⟩) state := fun state site =>
    trap_step p host (by rw [← moved]; exact instrs) rfl
  have stays : d.state = c.state ∧ faultSite d.frame loc = faultSite c.frame loc := by
    rw [← moved]
    exact ⟨rfl, rfl⟩
  rw [iterate, loaded, ← stays.1, ← stays.2]
  simp only [iterate, reported, faultEnd]
  cases host.handler? Host.panicName with
  | none => rfl
  | some handler =>
    cases handled : handler [.text overflowMessage] d.state with
    | mk answer state =>
      cases answer with
      | error fault => simp only [handled]
      | ok v => simp only [handled, ends]

end Fault

/-! ### Guarded instructions -/

section Guarded

variable {fr fr' : Frame} {i : Instr} {rest : List Instr} {q : Predicate} {names : FreshNames}

theorem Guardable.known {scope : Scope} {w : Width} {o : Operand} (operand : Guardable scope w o) :
    Known scope o := by
  rintro id rfl
  cases operand with
  | temp _ declared => exact ⟨_, declared⟩

/-- The operand of a candidate has a value of its width, and the guard reads the same. -/
theorem Guardable.mirror {w : Width} {o : Operand} (operand : Guardable fr.scope w o)
    (mirrors : Mirrors s p fr fr') (typed : FuncTyped p fr.func) (room : fr.func.IdsFit s) :
    Guardable fr'.scope w o ∧ ∃ x, fr.readWord w.ty o = .ok x ∧ w.ty.normalize x = x ∧
      fr'.readWord w.ty o = .ok (w.ty.normalize x) := by
  have known := operand.known
  obtain ⟨x, read⟩ : ∃ x, fr.readWord w.ty o = .ok x := by
    cases operand with
    | temp id declared =>
      have inside := lt_of_known mirrors typed known
      rw [← mirrors.size] at inside
      simp only [Frame.readWord, Frame.read, Array.getElem?_eq_getElem inside]
      exact ⟨_, rfl⟩
    | literal v => exact ⟨_, rfl⟩
  have normal := Frame.readWord_normal read
  refine ⟨?_, x, read, normal, ?_⟩
  · cases operand with
    | temp id declared =>
      rw [mirrors.scope] at declared
      rw [mirrors.scope', mirrors.func]
      exact .temp id (Func.guard_scope room typed.ids declared)
    | literal v => exact .literal v
  · rw [readWord_mirror mirrors typed known, read, normal]

/-- A check overwrites no register of the function without guards. -/
theorem Mirrors.past {fr₁ : Frame} (mirrors : Mirrors s p fr fr')
    (past : Past fr' fr₁ (Guard.ofInstr i q names).1.check)
    (room : names.HasRoom fr.func.registerCount (Guard.ofInstr i q names).1.check.length) :
    Mirrors s p fr fr₁ := by
  have numbered := Lowering.ofSteps_numbered i names q.steps
  refine ⟨mirrors.member, past.func.trans mirrors.func, mirrors.scope, ?_, mirrors.size, ?_, ?_⟩
  · rw [past.scope, past.func, mirrors.scope']
  · rw [past.size, past.func, mirrors.size']
  · intro n inside
    rw [past.others n ?_, mirrors.regs n inside]
    intro j member id result
    have new := room.le_of_mem (numbered.mem_temps member result)
    omega

/-- A guarded function declares the results of its instructions, and has registers for them. -/
theorem declared_of_mem {b : Block} {j : Instr} {id : TempId} (mirrors : Mirrors s p fr fr')
    (typed : FuncTyped p fr.func) (room : fr.func.IdsFit s) (inside : b ∈ (fr.func.guard s).blocks)
    (member : j ∈ b.instrs) (result : j.result = some id) :
    fr'.scope.ty? id = some j.ty ∧ id.toNat < fr'.regs.size := by
  have settled : Settled ⟨p, fr.func.guard s, (fr.func.guard s).scope⟩ := guard_settled typed room
  have declared := settled.declared b inside j member id result
  rw [mirrors.scope', mirrors.size', mirrors.func]
  refine ⟨declared, ?_⟩
  rw [Func.scope_ty?_iff (Func.guard_ids_nodup room typed.ids)] at declared
  exact Func.lt_registerCount_of_typing declared

theorem atCheck_of_place {b : Block} (mirrors : Mirrors s p fr fr') (typed : FuncTyped p fr.func)
    (room : fr.func.IdsFit s) (known : ∀ o ∈ i.args, Known fr.scope o)
    (piece : fr'.block = (Guard.ofInstr i q names).1.headBlock b b.instrs)
    (ip : fr'.ip = b.instrs.length) (inside : fr'.block ∈ (fr.func.guard s).blocks)
    (enough : names.HasRoom fr.func.registerCount ((Guard.ofInstr i q names).1.check.length + 1)) :
    AtCheck fr' names i (Guard.ofInstr i q names).1.check := by
  have instrs : fr'.block.instrs = b.instrs ++ (Guard.ofInstr i q names).1.check ++
      [(Guard.ofInstr i q names).1.branch] := by rw [piece]; rfl
  have declared : ∀ j ∈ (Guard.ofInstr i q names).1.check, ∀ id, j.result = some id →
      fr'.scope.ty? id = some j.ty ∧ id.toNat < fr'.regs.size := by
    intro j member id result
    exact declared_of_mem mirrors typed room inside (by simp [instrs, member]) result
  obtain impossible | ⟨above, below⟩ := enough
  · exact absurd impossible (Nat.succ_ne_zero _)
  refine ⟨?_, fun j member id result => (declared j member id result).1,
    fun j member id result => (declared j member id result).2, by omega, ?_⟩
  · rw [instrs, ip, List.append_assoc, List.drop_left]
    exact List.prefix_append _ _
  · intro id member
    have := lt_of_known mirrors typed (known _ member)
    omega

end Guarded

/-! ### Every step is answered -/

theorem SameStep.answers {c' : Config σ} {moved : Machine.Step σ}
    (same : SameStep s p moved (step p' host c')) :
    Answers (step p' host) (ConfigRel s p) Agrees c' moved := by
  generalize answer : step p' host c' = moved' at same
  cases same with
  | next rel => exact ⟨0, _, after_one answer, rel⟩
  | halt state agree => exact ⟨1, _, by simp only [iterate, answer], agree⟩

/-- The branch of a guard has led to the fault block, or to the instruction and what follows it. -/
def Arrived (s : MulStrategy) (f : Func) (i : Instr) (rest : List Instr) (fr' : Frame) : Bool → Prop
  | true => ∃ id, fr'.block.instrs = faultInstrs id i.loc ∧ id.toNat < fr'.regs.size
  | false => fr'.block.instrs[0]? = some { i with checked := true } ∧ At s f rest fr'.block 1

/-- The guard `g` of the next instruction `i` of the frame `fr` has run from `c'` to the end of its
branch, which depends on whether the instruction overflows. -/
structure GuardRan (s : MulStrategy) (p p' : Program) (host : Host σ) (fr : Frame) (i : Instr)
    (rest : List Instr) (c' : Config σ) (g : Guard) (fr₁ : Frame) : Prop where
  code : c'.frame.block.instrs.drop c'.frame.ip = g.check ++ [g.branch]
  internal : ∀ j ∈ g.check, j.checked = false ∧ Lowering.OnlyStores j.op
  reached : after (step p' host) (g.check.length + 1) c' = some { c' with frame := fr₁ }
  mirrors : Mirrors s p fr fr₁
  ip : fr₁.ip = 0
  target : fr₁.func.blockLabelled? (if overflowsAt fr i then g.faultLabel else g.contLabel) =
    some fr₁.block
  arrived : Arrived s fr.func i rest fr₁ (overflowsAt fr i)

theorem GuardRan.stands {c c' : Config σ} {i : Instr} {rest : List Instr} {g : Guard} {fr₁ : Frame}
    (ran : GuardRan s p p' host c.frame i rest c' g fr₁) (rel : ConfigRel s p c c')
    (fits : overflowsAt c.frame i = false) : Stands s p c { c' with frame := fr₁ } i rest true := by
  have arrived := ran.arrived
  rw [fits] at arrived
  obtain ⟨first, place⟩ := arrived
  refine ⟨ran.mirrors, rel.callers, rel.state, ?_, ?_⟩
  · rw [ran.ip]
    exact first
  · rw [ran.ip]
    exact place

/-- The fault block of an overflow ends in a trap. A program with a candidate has the text of the fault,
and no function in the way of its report. -/
theorem fault_ends (guarded : GuardedBy s p p') (host : Host σ) {c c' : Config σ} {i : Instr}
    {rest : List Instr} {k : Candidate} {g : Guard} {fr₁ : Frame} (rel : FrameRel s p c.frame c'.frame)
    (next : c.frame.block.instrs.drop c.frame.ip = i :: rest) (found : candidate? i = some k)
    (ran : GuardRan s p p' host c.frame i rest c' g fr₁) (overflows : overflowsAt c.frame i = true) :
    iterate (step p' host) 3 { c' with frame := fr₁ } =
      some (faultEnd host (faultSite fr₁ i.loc) c'.state) := by
  have arrived := ran.arrived
  rw [overflows] at arrived
  obtain ⟨id, instrs, register⟩ := arrived
  have here := List.mem_of_getElem? (getElem?_of_drop next)
  have counted : p.candidateCount ≠ 0 :=
    candidateCount_ne_zero rel.mirrors.member rel.block here (by rw [found]; rfl)
  obtain ⟨global, message, text⟩ := guarded.message counted
  exact fault_runs p' host (c := { c' with frame := fr₁ }) instrs message text
    (guarded.panic_undefined counted) ran.ip register

section Simulates

variable (guarded : GuardedBy s p p') (typed : ProgramTyped p) (room : p.IdsFit s)
include typed room

/-- The guard of a candidate runs to the end of its branch. -/
theorem guard_runs (p' : Program) (host : Host σ) {c c' : Config σ} {i : Instr} {rest : List Instr}
    {k : Candidate} (rel : FrameRel s p c.frame c'.frame)
    (next : c.frame.block.instrs.drop c.frame.ip = i :: rest) (found : candidate? i = some k) :
    ∃ g fr₁, GuardRan s p p' host c.frame i rest c' g fr₁ := by
  have mirrors := rel.mirrors
  have func := typed.funcs _ mirrors.member
  have enough := room _ mirrors.member
  have admitted := admitted_of_next mirrors func rel.block next
  have known := known_args admitted.typed
  have candidate := IsCandidate.of_candidate? found
  obtain ⟨a, b, args, left, right⟩ := candidate.guardable admitted.typed
  obtain ⟨left', x, readX, normalX, readX'⟩ := left.mirror mirrors func enough
  obtain ⟨right', y, readY, normalY, readY'⟩ := right.mirror mirrors func enough
  have place := rel.place
  rw [next] at place
  obtain ⟨head, names, cont, piece, ip, inside, fresh, faultInside, contInside, label, params, first,
    follows⟩ := place.candidate found
  have labels := (Func.guard_labels (s := s) func.labelled func.labels).2
  have atCheck := atCheck_of_place mirrors func enough known piece ip inside fresh
  have internal := Lowering.ofSteps_internal i names (k.predicate s).steps
  obtain ⟨fr₁, reached, past, condition⟩ := check_runs p' host args left' right' readX' readY'
    (predicate_typed k s) atCheck (predicate_divisorsNonzero k s x y)
  -- What the condition reads as is whether the candidate overflows, as operands fit their width.
  rw [← candidate.ty] at readX readY
  rw [evaluate_normal k s normalX normalY, ← overflowsAt_candidate candidate args readX readY]
    at condition
  have mirrors₁ := mirrors.past past fresh.first
  have code : c'.frame.block.instrs.drop c'.frame.ip =
      (Guard.ofInstr i (k.predicate s) names).1.check ++
        [(Guard.ofInstr i (k.predicate s) names).1.branch] := by
    rw [piece, ip, Guard.headBlock, List.append_assoc, List.drop_left]
  have atBranch : fr₁.block.instrs[fr₁.ip]? =
      some (Guard.ofInstr i (k.predicate s) names).1.branch := by
    rw [past.block, past.ip, ← List.getElem?_drop, code]
    exact getElem?_of_begins List.prefix_rfl
  obtain ⟨t, target, bare, arrived⟩ : ∃ t, (c.frame.func.guard s).blockLabelled?
      (if overflowsAt c.frame i then (Guard.ofInstr i (k.predicate s) names).1.faultLabel
        else (Guard.ofInstr i (k.predicate s) names).1.contLabel) = some t ∧ t.params = [] ∧
      Arrived s c.frame.func i rest { fr₁ with block := t } (overflowsAt c.frame i) := by
    cases overflowsAt c.frame i with
    | true =>
      refine ⟨_, Func.blockLabelled?_of_mem labels faultInside, rfl, _, rfl, ?_⟩
      exact (declared_of_mem mirrors₁ func enough faultInside List.mem_cons_self rfl).2
    | false =>
      rw [← label]
      exact ⟨cont, Func.blockLabelled?_of_mem labels contInside, params, first, follows⟩
  rw [← mirrors₁.func] at target
  have moved := branch_runs p' host (c := { c' with frame := fr₁ }) atBranch condition target bare
  exact ⟨_, _, code, internal, after_add reached (after_one moved), { mirrors₁ with }, rfl, target,
    arrived⟩

include guarded

theorem start_mirror (name : String) (args : List Value) (state : σ) :
    (∃ cause, start p name args state = .error cause ∧ start p' name args state = .error cause) ∨
    ∃ c c', start p name args state = .ok c ∧ start p' name args state = .ok c' ∧
      ConfigRel s p c c' := by
  simp only [start, guarded.funcNamed?]
  cases found : p.funcNamed? name with
  | none => exact .inl ⟨_, rfl, rfl⟩
  | some f =>
    have member := List.mem_of_find?_eq_some found
    simp only [Option.map_some]
    rcases enter_mirror (s := s) member (typed.funcs f member) (room f member) args 0 {} {} with
      ⟨cause, enters, enters'⟩ | ⟨fr, fr', enters, enters', rel⟩
    · rw [enters, enters']
      exact .inl ⟨cause, rfl, rfl⟩
    · rw [enters, enters']
      exact .inr ⟨_, _, rfl, rfl, rel, .nil, rfl⟩

variable (panic : host.handler? Host.panicName = some Host.panic)
include panic

/-- A candidate is answered by its check and its branch, which lead to the fault if it overflows, and
to the instruction itself if not. -/
theorem candidate_answers {c c' : Config σ} {i : Instr} {rest : List Instr} {k : Candidate}
    (rel : ConfigRel s p c c') (next : c.frame.block.instrs.drop c.frame.ip = i :: rest)
    (found : candidate? i = some k) :
    Answers (step p' host) (ConfigRel s p) Agrees c' (checkedStep p host c) := by
  obtain ⟨g, fr₁, ran⟩ := guard_runs typed room p' host rel.frame next found
  refine Answers.of_after ran.reached ?_
  have here := getElem?_of_drop next
  have same : overflowsAt (c.frame.advance i) i = overflowsAt c.frame i := rfl
  simp only [checkedStep, here, same]
  cases overflows : overflowsAt c.frame i with
  | false =>
    have moves : SameStep s p (step p host c) (step p' host { c' with frame := fr₁ }) :=
      step_mirror guarded typed room rel.frame.block next (ran.stands rel overflows)
    exact moves.answers
  | true =>
    have ends := fault_ends guarded host rel.frame next found ran overflows
    have raised : faultEnd host (faultSite fr₁ i.loc) c'.state =
        (.trapped ⟨.raised overflowFault, faultSite fr₁ i.loc 1⟩, c.state) := by
      simp only [faultEnd, panic, rel.state]
      rfl
    have name : fr₁.func.name = c.frame.func.name := by
      rw [ran.mirrors.func]
      rfl
    exact ⟨3, _, ends.trans (congrArg some raised), .trapped _ _ _ name rfl⟩

/-- Every step of the checked machine is answered by the guarded program. -/
theorem step_answers (c c' : Config σ) (rel : ConfigRel s p c c') :
    Answers (step p' host) (ConfigRel s p) Agrees c' (checkedStep p host c) := by
  obtain ⟨i, rest, next⟩ := List.exists_cons_of_ne_nil rel.frame.more
  cases found : candidate? i with
  | some k => exact candidate_answers guarded typed room panic rel next found
  | none =>
    have func := typed.funcs _ rel.frame.mirrors.member
    have admitted := admitted_of_next rel.frame.mirrors func rel.frame.block next
    have fits : overflowsAt (c.frame.advance i) i = false := overflowsAt_other admitted.typed found
    have plain : checkedStep p host c = step p host c := by
      simp [checkedStep, getElem?_of_drop next, fits]
    rw [plain]
    exact (step_mirror guarded typed room rel.frame.block next (rel.stands next found)).answers

end Simulates

end GuardedIL.Overflow

namespace GuardedIL.Program

open Overflow Machine Typing

/-- The run of a guarded program and the checked run of the program either both never end, or they
end in the same way and with the same state of the host. -/
theorem guard_simulates {σ : Type} {p : Program} {o : Options} {g : Guarded} {host : Host σ}
    (accepted : p.verify = .ok ()) (room : p.HasRoom o.mul) (ok : p.guard o true = .ok g)
    (panic : host.handler? Host.panicName = some Host.panic) (name : String) (args : List Value)
    (state : σ) :
    (∀ bound, checkedRun p host bound name args state = none ∧
      run g.program host bound name args state = none) ∨
    ∃ bound bound' outcome outcome' final,
      checkedRun p host bound name args state = some (outcome, final) ∧
      run g.program host bound' name args state = some (outcome', final) ∧
      Agrees outcome outcome' := by
  have guarded := guardedBy_of_guard ok
  rw [verify_iff] at accepted
  have simulates := step_answers guarded accepted room.idsFit panic
  -- A run that cannot start ends at once, for the same cause in both programs.
  rcases start_mirror guarded accepted room.idsFit name args state with
    ⟨cause, starts, starts'⟩ | ⟨c, c', starts, starts', rel⟩
  · refine .inr ⟨0, 0, _, _, state, ?_, ?_, .trapped cause {} {} rfl rfl⟩
    · simp only [checkedRun, starts]
    · simp only [run, starts']
  · simp only [checkedRun, run, starts, starts', runFrom_eq_iterate]
    by_cases ends : ∃ bound, iterate (checkedStep p host) bound c ≠ none
    · obtain ⟨bound, ends⟩ := ends
      obtain ⟨⟨outcome, final⟩, ends⟩ := Option.ne_none_iff_exists'.mp ends
      obtain ⟨bound', outcome', ends', agree⟩ := iterate_forward simulates rel ends
      exact .inr ⟨bound, bound', outcome, outcome', final, ends, ends', agree⟩
    · push Not at ends
      refine .inl fun bound => ⟨ends bound, ?_⟩
      by_contra ends'
      obtain ⟨⟨outcome', final⟩, ends'⟩ := Option.ne_none_iff_exists'.mp ends'
      obtain ⟨bound', outcome, also, _⟩ := iterate_backward simulates rel ends'
      rw [ends bound'] at also
      exact absurd also (by simp)

/-- The product fits, and the sum with the literal at its width does not: the guarded program traps on
the line of the sum. -/
theorem guard_simulates_tripled : tripled.verify = .ok () ∧ tripled.HasRoom .backDivision ∧
    ∃ g, tripled.guard { mul := .backDivision } true = .ok g ∧
      ∃ bound site, run g.program (Host.standard : Host Unit) bound "main" [.int 700000000] () =
        some (.trapped ⟨.raised overflowFault, site⟩, ()) ∧ site.func = "main" ∧ site.line = 5 := by
  have accepted : tripled.verify = .ok () := by decide +kernel
  have room : tripled.HasRoom .backDivision := by decide +kernel
  have panic : (Host.standard : Host Unit).handler? Host.panicName = some Host.panic := rfl
  have traps : checkedRun tripled (Host.standard : Host Unit) 2 "main" [.int 700000000] () =
      some (.trapped ⟨.raised overflowFault, ⟨"main", contLabel 0, 1, 5⟩⟩, ()) := by decide +kernel
  have succeeds : (tripled.guard { mul := .backDivision } true).toOption.isSome := by decide +kernel
  cases ok : tripled.guard { mul := .backDivision } true with
  | error e => simp [ok, Except.toOption] at succeeds
  | ok g =>
    refine ⟨accepted, room, g, rfl, ?_⟩
    rcases guard_simulates (o := { mul := .backDivision }) accepted room ok panic "main"
        [.int 700000000] () with never | ⟨bound, bound', outcome, outcome', _, ends, ends', agree⟩
    · rw [(never 2).1] at traps
      exact absurd traps (by simp)
    · obtain ⟨rfl, _⟩ := Prod.mk.inj (checkedRun_unique ends traps)
      cases agree with
      | trapped _ _ site' func line => exact ⟨bound', site', ends', func, line⟩

end GuardedIL.Program

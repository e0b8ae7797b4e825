import GuardedIL.Proofs.Simulation

/-!
# The strategies for multiplication

Guards of two strategies differ in their checks, and so in every temporary from the first guard on.
Their labels are the same, though, and so are the places of the instructions that are not part of a
check. As a check never traps, runs under two strategies end alike, at the same site.
-/

namespace GuardedIL.Overflow

open Typing Machine

/-! ### Pieces -/

structure SameLabels (names names' : FreshNames) : Prop where
  next : names'.nextLabel = names.nextLabel
  used : names'.used = names.used

/-- Pieces with the same label, which end in instructions with the same successors. -/
structure Twin (b b' : Block) : Prop where
  label : b'.label = b.label
  exits : b'.instrs.getLast?.map Instr.labels = b.instrs.getLast?.map Instr.labels

section Layout

variable {s t : MulStrategy} {names names' : FreshNames}

theorem SameLabels.ofInstr (same : SameLabels names names') (i : Instr) (q q' : Predicate) :
    (Guard.ofInstr i q' names').1.faultLabel = (Guard.ofInstr i q names).1.faultLabel ∧
      (Guard.ofInstr i q' names').1.contLabel = (Guard.ofInstr i q names).1.contLabel ∧
      SameLabels (Guard.ofInstr i q names).2 (Guard.ofInstr i q' names').2 := by
  have taken : names'.takeLabels.1 = names.takeLabels.1 ∧
      names'.takeLabels.2.nextLabel = names.takeLabels.2.nextLabel := by
    simp only [FreshNames.takeLabels, same.next, same.used, and_self]
  obtain ⟨labels, later⟩ := Guard.ofInstr_labels i q names
  obtain ⟨labels', later'⟩ := Guard.ofInstr_labels i q' names'
  rw [taken.1, ← labels] at labels'
  obtain ⟨fault, cont⟩ := Prod.mk.inj labels'
  refine ⟨fault, cont, by rw [later', later, taken.2], ?_⟩
  rw [Guard.ofInstr_used, Guard.ofInstr_used, fault, cont, same.used]

theorem guardInstrs_twins (b : Block) (rest : List Instr) (same : SameLabels names names') :
    List.Forall₂ Twin (guardInstrs s b rest names).1 (guardInstrs t b rest names').1 ∧
      SameLabels (guardInstrs s b rest names).2 (guardInstrs t b rest names').2 := by
  induction rest generalizing b names names' with
  | nil => exact ⟨.cons ⟨rfl, rfl⟩ .nil, same⟩
  | cons i rest ih =>
    cases found : candidate? i with
    | none =>
      rw [guardInstrs_other found, guardInstrs_other found]
      exact ih _ same
    | some k =>
      obtain ⟨fault, cont, later⟩ := same.ofInstr i (k.predicate s) (k.predicate t)
      -- The rest follows in the same block in both, as that begins with the guarded instruction.
      have block : (Guard.ofInstr i (k.predicate t) names').1.contBlock b [] =
          (Guard.ofInstr i (k.predicate s) names).1.contBlock b [] := by
        simp only [Guard.contBlock, cont]
        rfl
      obtain ⟨twins, still⟩ := ih ((Guard.ofInstr i (k.predicate s) names).1.contBlock b []) later
      simp only [guardInstrs_candidate found, block]
      refine ⟨.cons ⟨rfl, ?_⟩ (.cons ⟨fault, rfl⟩ twins), still⟩
      simp only [Guard.headBlock, Guard.branch, List.getLast?_concat, Option.map_some, fault, cont]

theorem guardBlocks_twins (blocks : List Block) (same : SameLabels names names') :
    List.Forall₂ Twin (guardBlocks s blocks names).1 (guardBlocks t blocks names').1 := by
  induction blocks generalizing names names' with
  | nil => exact .nil
  | cons b rest ih =>
    rw [guardBlocks, guardBlocks]
    obtain ⟨twins, later⟩ := guardInstrs_twins (s := s) (t := t) { b with instrs := [] } b.instrs same
    exact List.rel_append twins (ih later)

theorem guard_twins (s t : MulStrategy) (f : Func) :
    List.Forall₂ Twin (f.guard s).blocks (f.guard t).blocks :=
  guardBlocks_twins f.blocks ⟨rfl, rfl⟩

theorem twin_of_find? {blocks blocks' : List Block} {label : String} {b b' : Block}
    (twins : List.Forall₂ Twin blocks blocks') (found : blocks.find? (·.label == label) = some b)
    (found' : blocks'.find? (·.label == label) = some b') : Twin b b' := by
  induction twins with
  | nil => simp at found
  | @cons x x' xs xs' twin rest ih =>
    rw [List.find?_cons] at found found'
    rw [twin.label] at found'
    cases here : x.label == label with
    | true =>
      rw [here] at found found'
      obtain rfl := Option.some.inj found
      obtain rfl := Option.some.inj found'
      exact twin
    | false =>
      rw [here] at found found'
      exact ih found found'

theorem twin_of_label {f : Func} {label : String} {b b' : Block}
    (found : (f.guard s).blockLabelled? label = some b)
    (found' : (f.guard t).blockLabelled? label = some b') : Twin b b' :=
  twin_of_find? (guard_twins s t f) found found'

end Layout

/-! ### Places -/

structure SamePlace (fr fr' : Frame) : Prop where
  block : Twin fr.block fr'.block
  ip : fr'.ip = fr.ip

variable {σ : Type}

structure SamePlaces (c c' : Config σ) : Prop where
  frame : SamePlace c.frame c'.frame
  callers : List.Forall₂ (fun k k' : Caller => SamePlace k.frame k'.frame) c.callers c'.callers

theorem SamePlace.store {fr fr' : Frame} (same : SamePlace fr fr') (result result' : Option TempId)
    (v v' : Value) : SamePlace (fr.store result v) (fr'.store result' v') := by
  obtain ⟨_, block, ip⟩ := store_keeps fr result v
  obtain ⟨_, block', ip'⟩ := store_keeps fr' result' v'
  refine ⟨?_, ?_⟩
  · rw [block, block']
    exact same.block
  · rw [ip, ip']
    exact same.ip

theorem SamePlaces.advance {c c' : Config σ} (places : SamePlaces c c') (i j : Instr) :
    SamePlaces { c with frame := c.frame.advance i } { c' with frame := c'.frame.advance j } :=
  ⟨⟨places.frame.block, congrArg (· + 1) places.frame.ip⟩, places.callers⟩

theorem enter_place {f : Func} {args : List Value} {depth : Nat} {site : Site} {fr : Frame}
    (enters : Frame.enter f args depth site = .ok fr) : f.blocks.head? = some fr.block ∧ fr.ip = 0 := by
  unfold Frame.enter at enters
  cases blocks : f.blocks with
  | nil =>
    simp only [blocks] at enters
    split_ifs at enters
  | cons entry later =>
    simp only [blocks] at enters
    split_ifs at enters
    obtain rfl := Except.ok.inj enters
    obtain ⟨_, block, ip⟩ := bindParams_keeps { func := f, scope := f.scope
                                                regs := Array.replicate f.registerCount (.int 0)
                                                block := entry, site } f.params args
    exact ⟨by rw [block]; rfl, ip⟩

theorem SamePlace.entry {s t : MulStrategy} {f : Func} {args : List Value} {depth : Nat}
    {site site' : Site} {fr fr' : Frame} (enters : Frame.enter (f.guard s) args depth site = .ok fr)
    (enters' : Frame.enter (f.guard t) args depth site' = .ok fr') : SamePlace fr fr' := by
  obtain ⟨first, ip⟩ := enter_place enters
  obtain ⟨first', ip'⟩ := enter_place enters'
  have twins := guard_twins s t f
  generalize (f.guard s).blocks = blocks at twins first
  generalize (f.guard t).blocks = blocks' at twins first'
  cases twins with
  | nil => simp at first
  | cons twin _ =>
    obtain rfl := Option.some.inj first
    obtain rfl := Option.some.inj first'
    exact ⟨twin, by rw [ip, ip']⟩

variable {s t : MulStrategy} {p p₁ p₂ : Program} {host : Host σ}

theorem perform_places {f : Func} {i i' : Instr} {e e₁ e₂ : Effect σ} {c₁ c₂ d₁ d₂ : Config σ}
    (places : SamePlaces c₁ c₂) (one : SameEffect s p f i e e₁) (two : SameEffect t p f i e e₂)
    (moves₁ : perform c₁ i' e₁ = .next d₁) (moves₂ : perform c₂ i' e₂ = .next d₂) :
    SamePlaces d₁ d₂ := by
  cases one with
  | store v =>
    cases two
    obtain rfl := Machine.Step.next.inj moves₁
    obtain rfl := Machine.Step.next.inj moves₂
    exact ⟨places.frame.store _ _ _ _, places.callers⟩
  | jump target head values member found =>
    cases two with
    | jump _ head' _ _ found' =>
      obtain rfl := Machine.Step.next.inj moves₁
      obtain rfl := Machine.Step.next.inj moves₂
      exact ⟨⟨twin_of_label found found', rfl⟩, places.callers⟩
  | enter callee args =>
    cases two
    unfold perform at moves₁ moves₂
    dsimp only at moves₁ moves₂
    rw [← places.callers.length_eq] at moves₂
    split at moves₁
    · simp at moves₁
    · rename_i fr₁ enters₁
      split at moves₂
      · simp at moves₂
      · rename_i fr₂ enters₂
        obtain rfl := Machine.Step.next.inj moves₁
        obtain rfl := Machine.Step.next.inj moves₂
        exact ⟨.entry enters₁ enters₂, .cons places.frame places.callers⟩
  | handle handler args =>
    cases two
    unfold perform at moves₁ moves₂
    dsimp only at moves₁ moves₂
    split at moves₁
    · simp at moves₁
    · split at moves₂
      · simp at moves₂
      · obtain rfl := Machine.Step.next.inj moves₁
        obtain rfl := Machine.Step.next.inj moves₂
        exact ⟨places.frame.store _ _ _ _, places.callers⟩
  | leave v =>
    cases two
    unfold perform at moves₁ moves₂
    dsimp only at moves₁ moves₂
    have callers := places.callers
    generalize c₁.callers = ks₁ at callers moves₁
    generalize c₂.callers = ks₂ at callers moves₂
    cases callers with
    | nil => simp at moves₁
    | cons place rest =>
      obtain rfl := Machine.Step.next.inj moves₁
      obtain rfl := Machine.Step.next.inj moves₂
      exact ⟨place.store _ _ _ _, rest⟩

/-- A trap is noted at the instruction that was running. -/
theorem step_site {p : Program} {c : Config σ} {i : Instr} {trap : Trap} {state : σ}
    (here : c.frame.block.instrs[c.frame.ip]? = some i)
    (halts : step p host c = .halt (.trapped trap) state) : trap.site = (c.frame.advance i).site := by
  simp only [step, here] at halts
  cases result : effect p host (c.frame.advance i) i with
  | error cause =>
    rw [result] at halts
    cases halts
    rfl
  | ok e =>
    simp only [result] at halts
    cases e with
    | store v => simp [perform] at halts
    | jump target values => simp [perform] at halts
    | enter callee args =>
      simp only [perform] at halts
      split at halts
      · cases halts
        rfl
      · simp at halts
    | handle handler args =>
      simp only [perform] at halts
      split at halts
      · cases halts
        rfl
      · simp at halts
    | leave v =>
      simp only [perform] at halts
      split at halts
      · simp at halts
      · simp at halts

/-! ### Steps side by side -/

/-- Configurations of two guarded programs that stand for one of the program. -/
def Twins (s t : MulStrategy) (p : Program) (c₁ c₂ : Config σ) : Prop :=
  ∃ c, ConfigRel s p c c₁ ∧ ConfigRel t p c c₂ ∧ SamePlaces c₁ c₂

theorem GuardRan.exits {fr fr₁ : Frame} {c' : Config σ} {i : Instr} {rest : List Instr} {g : Guard}
    (ran : GuardRan s p p₁ host fr i rest c' g fr₁) :
    c'.frame.block.instrs.getLast?.map Instr.labels = some [g.faultLabel, g.contLabel] := by
  rw [← List.take_append_drop c'.frame.ip c'.frame.block.instrs, ran.code, ← List.append_assoc,
    List.getLast?_concat]
  rfl

theorem guards_meet {fr fr₁ fr₂ : Frame} {c₁ c₂ : Config σ} {i : Instr} {rest : List Instr}
    {g₁ g₂ : Guard} (place : SamePlace c₁.frame c₂.frame)
    (ran₁ : GuardRan s p p₁ host fr i rest c₁ g₁ fr₁)
    (ran₂ : GuardRan t p p₂ host fr i rest c₂ g₂ fr₂) : SamePlace fr₁ fr₂ := by
  -- The runs have left by the branches at the ends of their pieces, which are twins.
  have exits := place.block.exits
  rw [ran₁.exits, ran₂.exits] at exits
  have labels : g₂.faultLabel = g₁.faultLabel ∧ g₂.contLabel = g₁.contLabel := by simpa using exits
  have target₁ := ran₁.target
  have target₂ := ran₂.target
  rw [ran₁.mirrors.func] at target₁
  rw [ran₂.mirrors.func, labels.1, labels.2] at target₂
  exact ⟨twin_of_label target₁ target₂, by rw [ran₁.ip, ran₂.ip]⟩

section Twins

variable (guarded₁ : GuardedBy s p p₁) (guarded₂ : GuardedBy t p p₂) (typed : ProgramTyped p)
  (room₁ : p.IdsFit s) (room₂ : p.IdsFit t) {c c₁ c₂ : Config σ} {i : Instr} {rest : List Instr}
  (block : c.frame.block ∈ c.frame.func.blocks)
  (next : c.frame.block.instrs.drop c.frame.ip = i :: rest)
include guarded₁ guarded₂ typed room₁ room₂ block next

theorem step_places {mark : Bool} {d₁ d₂ : Config σ} (one : Stands s p c c₁ i rest mark)
    (two : Stands t p c c₂ i rest mark) (places : SamePlaces c₁ c₂)
    (moves₁ : step p₁ host c₁ = .next d₁) (moves₂ : step p₂ host c₂ = .next d₂) :
    SamePlaces d₁ d₂ := by
  have member := one.mirrors.member
  have func := typed.funcs _ member
  have admitted := admitted_of_next one.mirrors func block next
  have same₁ : SameResult s p c.frame.func i (effect p host (c.frame.advance i) i)
      (effect p₁ host (c₁.frame.advance { i with checked := mark }) { i with checked := mark }) :=
    effect_mirror guarded₁ (one.mirrors.advance i _) func (room₁ _ member) admitted
  have same₂ : SameResult t p c.frame.func i (effect p host (c.frame.advance i) i)
      (effect p₂ host (c₂.frame.advance { i with checked := mark }) { i with checked := mark }) :=
    effect_mirror guarded₂ (two.mirrors.advance i _) func (room₂ _ member) admitted
  simp only [step, one.here] at moves₁
  simp only [step, two.here] at moves₂
  generalize effect p host (c.frame.advance i) i = e at same₁ same₂
  generalize effect p₁ host (c₁.frame.advance { i with checked := mark }) { i with checked := mark } =
    e₁ at same₁ moves₁
  generalize effect p₂ host (c₂.frame.advance { i with checked := mark }) { i with checked := mark } =
    e₂ at same₂ moves₂
  cases same₁ with
  | error cause => simp at moves₁
  | ok one' =>
    cases same₂ with
    | ok two' =>
      exact perform_places (places.advance _ _) one' two' moves₁ moves₂

theorem step_meets {mark : Bool} (one : Stands s p c c₁ i rest mark)
    (two : Stands t p c c₂ i rest mark) (places : SamePlaces c₁ c₂) :
    Meets (step p₁ host) (step p₂ host) (Twins s t p) c₁ c₂ := by
  have moved₁ : SameStep s p (step p host c) (step p₁ host c₁) :=
    step_mirror guarded₁ typed room₁ block next one
  have moved₂ : SameStep t p (step p host c) (step p₂ host c₂) :=
    step_mirror guarded₂ typed room₂ block next two
  have later : ∀ d₁ d₂, step p₁ host c₁ = .next d₁ → step p₂ host c₂ = .next d₂ → SamePlaces d₁ d₂ :=
    fun d₁ d₂ => step_places guarded₁ guarded₂ typed room₁ room₂ block next one two places
  have site : (c₂.frame.advance { i with checked := mark }).site =
      (c₁.frame.advance { i with checked := mark }).site := by
    simp only [Frame.advance, places.frame.block.label, places.frame.ip, one.mirrors.func,
      two.mirrors.func]
    rfl
  generalize step p host c = moved at moved₁ moved₂
  generalize answer₁ : step p₁ host c₁ = step₁ at moved₁
  generalize answer₂ : step p₂ host c₂ = step₂ at moved₂
  cases moved₁ with
  | next rel₁ =>
    cases moved₂ with
    | next rel₂ =>
      exact .inl ⟨0, 0, _, _, after_one answer₁, after_one answer₂, _, rel₁, rel₂,
        later _ _ answer₁ answer₂⟩
  | halt state agree₁ =>
    cases moved₂ with
    | halt _ agree₂ =>
      have same : ∀ o₁ o₂, step p₁ host c₁ = .halt o₁ state → step p₂ host c₂ = .halt o₂ state →
          o₁ = o₂ → Meets (step p₁ host) (step p₂ host) (Twins s t p) c₁ c₂ := by
        rintro o₁ o₂ halts₁ halts₂ rfl
        exact .inr ⟨1, 1, (o₁, state), by simp only [iterate, halts₁], by simp only [iterate, halts₂]⟩
      refine same _ _ answer₁ answer₂ ?_
      cases agree₁ with
      | returned v =>
        cases agree₂
        rfl
      | trapped cause _ site₁ =>
        cases agree₂ with
        | trapped _ _ site₂ =>
          -- Agreement with the program leaves the block and the index open, so the sites are read off.
          have at₁ : site₁ = _ := step_site one.here answer₁
          have at₂ : site₂ = _ := step_site two.here answer₂
          rw [at₁, at₂, site]

theorem candidate_meets {k : Candidate} (rel₁ : ConfigRel s p c c₁) (rel₂ : ConfigRel t p c c₂)
    (places : SamePlaces c₁ c₂) (found : candidate? i = some k) :
    Meets (step p₁ host) (step p₂ host) (Twins s t p) c₁ c₂ := by
  obtain ⟨g₁, fr₁, ran₁⟩ := guard_runs typed room₁ p₁ host rel₁.frame next found
  obtain ⟨g₂, fr₂, ran₂⟩ := guard_runs typed room₂ p₂ host rel₂.frame next found
  have place := guards_meet places.frame ran₁ ran₂
  refine Meets.of_after ran₁.reached ran₂.reached ?_
  cases overflows : overflowsAt c.frame i with
  | false =>
    exact step_meets guarded₁ guarded₂ typed room₁ room₂ block next (ran₁.stands rel₁ overflows)
      (ran₂.stands rel₂ overflows) ⟨place, places.callers⟩
  | true =>
    have site : faultSite fr₂ i.loc = faultSite fr₁ i.loc := by
      funext n
      simp only [faultSite, place.block.label, ran₁.mirrors.func, ran₂.mirrors.func]
      rfl
    refine .inr ⟨3, 3, _, fault_ends guarded₁ host rel₁.frame next found ran₁ overflows, ?_⟩
    rw [fault_ends guarded₂ host rel₂.frame next found ran₂ overflows, site, rel₁.state, rel₂.state]

end Twins

theorem start_places (guarded₁ : GuardedBy s p p₁) (guarded₂ : GuardedBy t p p₂) {name : String}
    {args : List Value} {state : σ} {c₁ c₂ : Config σ} (starts₁ : start p₁ name args state = .ok c₁)
    (starts₂ : start p₂ name args state = .ok c₂) : SamePlaces c₁ c₂ := by
  simp only [start, guarded₁.funcNamed?] at starts₁
  simp only [start, guarded₂.funcNamed?] at starts₂
  cases found : p.funcNamed? name with
  | none => simp [found] at starts₁
  | some f =>
    simp only [found, Option.map_some] at starts₁ starts₂
    cases enters₁ : Frame.enter (f.guard s) args 0 {} with
    | error cause => simp [enters₁, bind, Except.bind] at starts₁
    | ok fr₁ =>
      cases enters₂ : Frame.enter (f.guard t) args 0 {} with
      | error cause => simp [enters₂, bind, Except.bind] at starts₂
      | ok fr₂ =>
        rw [enters₁] at starts₁
        rw [enters₂] at starts₂
        obtain rfl := Except.ok.inj starts₁
        obtain rfl := Except.ok.inj starts₂
        exact ⟨.entry enters₁ enters₂, .nil⟩

theorem start_twins (guarded₁ : GuardedBy s p p₁) (guarded₂ : GuardedBy t p p₂)
    (typed : ProgramTyped p) (room₁ : p.IdsFit s) (room₂ : p.IdsFit t) (name : String)
    (args : List Value) (state : σ) :
    (∃ cause, start p₁ name args state = .error cause ∧ start p₂ name args state = .error cause) ∨
    ∃ c₁ c₂, start p₁ name args state = .ok c₁ ∧ start p₂ name args state = .ok c₂ ∧
      Twins s t p c₁ c₂ := by
  rcases start_mirror guarded₁ typed room₁ name args state with
    ⟨cause, starts, starts₁⟩ | ⟨c, c₁, starts, starts₁, rel₁⟩
  · rcases start_mirror guarded₂ typed room₂ name args state with
      ⟨cause', starts', starts₂⟩ | ⟨_, _, starts', _⟩
    · obtain rfl := Except.error.inj (starts.symm.trans starts')
      exact .inl ⟨cause, starts₁, starts₂⟩
    · simp [starts] at starts'
  · rcases start_mirror guarded₂ typed room₂ name args state with
      ⟨_, starts', _⟩ | ⟨c', c₂, starts', starts₂, rel₂⟩
    · simp [starts] at starts'
    · obtain rfl := Except.ok.inj (starts.symm.trans starts')
      exact .inr ⟨c₁, c₂, starts₁, starts₂, c, rel₁, rel₂, start_places guarded₁ guarded₂ starts₁ starts₂⟩

theorem twins_meet (guarded₁ : GuardedBy s p p₁) (guarded₂ : GuardedBy t p p₂)
    (typed : ProgramTyped p) (room₁ : p.IdsFit s) (room₂ : p.IdsFit t) (host : Host σ)
    (c₁ c₂ : Config σ) (twins : Twins s t p c₁ c₂) :
    Meets (step p₁ host) (step p₂ host) (Twins s t p) c₁ c₂ := by
  obtain ⟨c, rel₁, rel₂, places⟩ := twins
  obtain ⟨i, rest, next⟩ := List.exists_cons_of_ne_nil rel₁.frame.more
  cases found : candidate? i with
  | some k =>
    exact candidate_meets guarded₁ guarded₂ typed room₁ room₂ rel₁.frame.block next rel₁ rel₂ places
      found
  | none =>
    exact step_meets guarded₁ guarded₂ typed room₁ room₂ rel₁.frame.block next
      (rel₁.stands next found) (rel₂.stands next found) places

end GuardedIL.Overflow

namespace GuardedIL.Program

open Overflow Machine Typing

/-- Whatever the strategies, the runs of two guarded forms of a program both never end, or end with the
same value or the same trap at the same site, and with the same state of the host. -/
theorem guard_strategies_agree {σ : Type} {p : Program} {o o' : Options} {g g' : Guarded}
    (accepted : p.verify = .ok ()) (room : p.HasRoom o.mul) (room' : p.HasRoom o'.mul)
    (ok : p.guard o true = .ok g) (ok' : p.guard o' true = .ok g') (host : Host σ) (name : String)
    (args : List Value) (state : σ) :
    (∀ bound, run g.program host bound name args state = none ∧
      run g'.program host bound name args state = none) ∨
    ∃ bound bound' outcome final, run g.program host bound name args state = some (outcome, final) ∧
      run g'.program host bound' name args state = some (outcome, final) := by
  have guarded := guardedBy_of_guard ok
  have guarded' := guardedBy_of_guard ok'
  rw [verify_iff] at accepted
  rcases start_twins guarded guarded' accepted room.idsFit room'.idsFit name args state with
    ⟨cause, starts, starts'⟩ | ⟨c, c', starts, starts', twins⟩
  · refine .inr ⟨0, 0, .trapped ⟨cause, {}⟩, state, ?_, ?_⟩
    · simp only [run, starts]
    · simp only [run, starts']
  · simp only [run, starts, starts', runFrom_eq_iterate]
    have meet := twins_meet guarded guarded' accepted room.idsFit room'.idsFit host
    rcases same_end_of_meets meet twins with
      never | ⟨bound, bound', ⟨outcome, final⟩, ends, ends'⟩
    · exact .inl never
    · exact .inr ⟨bound, bound', outcome, final, ends, ends'⟩

/-- The sum overflows under a host that takes the report and returns. The trap at the end of the fault
block is at the same site after the check of either strategy. -/
theorem guard_strategies_agree_tripled : tripled.verify = .ok () ∧ tripled.HasRoom .widen ∧
    tripled.HasRoom .backDivision ∧ ∃ g g', tripled.guard { mul := .widen } true = .ok g ∧
      tripled.guard { mul := .backDivision } true = .ok g' ∧ ∃ bound bound',
        run g.program (lenient : Host Unit) bound "main" [.int 700000000] () =
          some (.trapped ⟨.trapInstr, ⟨"main", faultLabel 2, 2, 5⟩⟩, ()) ∧
        run g'.program (lenient : Host Unit) bound' "main" [.int 700000000] () =
          some (.trapped ⟨.trapInstr, ⟨"main", faultLabel 2, 2, 5⟩⟩, ()) := by
  have accepted : tripled.verify = .ok () := by decide +kernel
  have room : tripled.HasRoom .widen := by decide +kernel
  have room' : tripled.HasRoom .backDivision := by decide +kernel
  have succeeds' : (tripled.guard { mul := .backDivision } true).toOption.isSome := by decide +kernel
  have traps : (tripled.guard { mul := .widen } true).toOption.bind (fun g =>
      run g.program (lenient : Host Unit) 30 "main" [.int 700000000] ()) =
      some (.trapped ⟨.trapInstr, ⟨"main", faultLabel 2, 2, 5⟩⟩, ()) := by decide +kernel
  cases ok : tripled.guard { mul := .widen } true with
  | error e => simp [ok, Except.toOption] at traps
  | ok g =>
    rw [ok] at traps
    cases ok' : tripled.guard { mul := .backDivision } true with
    | error e => simp [ok', Except.toOption] at succeeds'
    | ok g' =>
      refine ⟨accepted, room, room', g, g', rfl, rfl, ?_⟩
      rcases @guard_strategies_agree Unit tripled { mul := .widen } { mul := .backDivision } g g' accepted
          room room' ok ok' lenient "main" [.int 700000000] () with
        never | ⟨bound, bound', outcome, final, ends, ends'⟩
      · exact absurd ((never 30).1.symm.trans traps) (by simp)
      · obtain ⟨rfl, rfl⟩ := Prod.mk.inj (run_unique ends traps)
        exact ⟨bound, bound', ends, ends'⟩

end GuardedIL.Program

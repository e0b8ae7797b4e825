import GuardedIL.Proofs.Simulation
import GuardedIL.Proofs.Soundness

/-!
# Guarded arithmetic does not overflow

An instruction that guarding has marked runs only after its check has passed, and no register changes
in between, so its exact result fits. A fault block is not left again: the run ends in a trap there.
Both hold whatever the host does, even if it goes on after the report of an overflow.
-/

namespace GuardedIL.Overflow

open Typing Machine

variable {σ : Type}

/-- The exact result of the instruction, on its operands as it reads them, fits its type. Only a
quotient by zero has none. -/
def FitsAt (fr : Frame) (i : Instr) : Prop :=
  ∃ (k : Candidate) (a b : Operand) (x y : Int64), GuardOp.ofOpcode? i.op = some k.op ∧
    i.ty = k.width.ty ∧ i.args = [a, b] ∧ fr.readWord i.ty a = .ok x ∧ fr.readWord i.ty b = .ok y ∧
    ((∃ z, k.op.exactResult? x.toInt y.toInt = some z ∧ k.width.Holds z) ∨ i.op = .arith .sdiv ∧ y = 0)

/-- The block is a fault block that guarding has added to the function `f`. -/
def AddedFault (f : Func) (b : Block) : Prop :=
  (∃ n, b.label = faultLabel n) ∧ b.label ∉ f.blocks.map Block.label

/-! ### Code that stays in its block -/

/-- The instruction goes on to the next one, calls a handler, or traps. -/
structure Stationary (p : Program) (i : Instr) : Prop where
  straight : i.op ≠ .br ∧ i.op ≠ .cbr ∧ i.op ≠ .ret
  calls : i.op = .call → p.funcNamed? i.callee = none

/-- The run is still in the same block of the same activation. -/
structure SameBlock (c d : Config σ) : Prop where
  func : d.frame.func = c.frame.func
  block : d.frame.block = c.frame.block
  callers : d.callers = c.callers

inductive Stays (c : Config σ) : Machine.Step σ → Prop
  | next {d : Config σ} (same : SameBlock c d) (ip : d.frame.ip = c.frame.ip + 1) : Stays c (.next d)
  | trapped (t : Trap) (state : σ) : Stays c (.halt (.trapped t) state)

inductive Local : Except Cause (Effect σ) → Prop
  | error (cause : Cause) : Local (.error cause)
  | store (v : Value) : Local (.ok (.store v))
  | handle (handler : Handler σ) (args : List Value) : Local (.ok (.handle handler args))

theorem Local.bind {α : Type} (x : Except Cause α) {f : α → Except Cause (Effect σ)}
    (all : ∀ a, Local (f a)) : Local (x >>= f) := by
  cases x with
  | error cause => exact .error cause
  | ok a => exact all a

variable {s : MulStrategy} {p p' : Program} {host : Host σ} {c d : Config σ}

theorem effect_local {i : Instr} (stationary : Stationary p i) (host : Host σ) (fr : Frame) :
    Local (effect p host fr i) := by
  obtain ⟨⟨notBr, notCbr, notRet⟩, calls⟩ := stationary
  unfold effect
  split
  · refine .bind _ fun x => .bind _ fun y => ?_
    split
    · exact .store _
    · exact .error _
  · exact .bind _ fun x => .bind _ fun y => .store _
  · exact .bind _ fun x => .bind _ fun y => .store _
  · exact .bind _ fun x => .store _
  · split
    · exact .store _
    · exact .error _
  · rename_i isCall
    simp only [call, calls isCall]
    split
    · exact .error _
    · exact .bind _ fun args => .handle _ args
  · exact absurd ‹_› notBr
  · exact absurd ‹_› notCbr
  · exact absurd ‹_› notRet
  · exact absurd ‹_› notRet
  · exact .error _
  · exact .error _

theorem step_stays (host : Host σ)
    (all : ∀ i, c.frame.block.instrs[c.frame.ip]? = some i → Stationary p i) :
    Stays c (step p host c) := by
  cases here : c.frame.block.instrs[c.frame.ip]? with
  | none =>
    simp only [step, here]
    exact .trapped _ _
  | some i =>
    have stored : ∀ v, ((c.frame.advance i).store i.result v).func = c.frame.func ∧
        ((c.frame.advance i).store i.result v).block = c.frame.block ∧
        ((c.frame.advance i).store i.result v).ip = c.frame.ip + 1 := fun v =>
      store_keeps (c.frame.advance i) i.result v
    have effects := effect_local (all i here) host (c.frame.advance i)
    simp only [step, here]
    generalize effect p host (c.frame.advance i) i = result at effects ⊢
    cases effects with
    | error cause => exact .trapped _ _
    | store v => exact .next ⟨(stored v).1, (stored v).2.1, rfl⟩ (stored v).2.2
    | handle handler args =>
      simp only [perform]
      cases handler args c.state with
      | mk answer state =>
        cases answer with
        | error fault => exact .trapped _ _
        | ok v => exact .next ⟨(stored _).1, (stored _).2.1, rfl⟩ (stored _).2.2

section Block

variable (all : ∀ i ∈ c.frame.block.instrs, Stationary p i)
include all

theorem block_kept {m : Nat} (reached : after (step p host) m c = some d) : SameBlock c d := by
  refine after_invariant (fun e e' same moves => ?_) (⟨rfl, rfl, rfl⟩ : SameBlock c c) reached
  have stays := step_stays (c := e) host fun i here =>
    all i (same.block ▸ List.mem_of_getElem? here)
  rw [moves] at stays
  cases stays with
  | next same' ip =>
    exact ⟨same'.func.trans same.func, same'.block.trans same.block, same'.callers.trans same.callers⟩

theorem block_traps (host : Host σ) :
    ∃ bound t final, iterate (step p host) bound c = some (.trapped t, final) := by
  -- By induction on what is left of the block; a step at its end is a trap as well.
  induction left : c.frame.block.instrs.length - c.frame.ip using Nat.strong_induction_on
    generalizing c with
  | _ left ih =>
    have stays := step_stays host fun i here => all i (List.mem_of_getElem? here)
    generalize moves : step p host c = moved at stays
    cases stays with
    | trapped t state => exact ⟨1, t, state, by simp only [iterate, moves]⟩
    | @next d same ip =>
      by_cases inside : c.frame.ip < c.frame.block.instrs.length
      · obtain ⟨bound, t, final, ends⟩ := ih (d.frame.block.instrs.length - d.frame.ip)
          (by rw [same.block, ip]; omega) (by rw [same.block]; exact all) rfl
        exact ⟨bound + 1, t, final, by simp only [iterate, moves, ends]⟩
      · simp [step, List.getElem?_eq_none (Nat.le_of_not_lt inside)] at moves

end Block

theorem straight_runs {js tail : List Instr} {m : Nat}
    (code : c.frame.block.instrs.drop c.frame.ip = js ++ tail) (all : ∀ j ∈ js, Stationary p j)
    (short : m ≤ js.length) (reached : after (step p host) m c = some d) :
    d.frame.block = c.frame.block ∧ d.frame.ip = c.frame.ip + m := by
  induction m generalizing d with
  | zero =>
    obtain rfl := Option.some.inj reached
    exact ⟨rfl, rfl⟩
  | succ m ih =>
    obtain ⟨e, first, last⟩ := after_split reached
    obtain ⟨block, ip⟩ := ih (by omega) first
    have stays : Stays e (step p host e) := by
      refine step_stays host fun i here => all i ?_
      rw [block, ip, ← List.getElem?_drop, code, List.getElem?_append_left (by omega)] at here
      exact List.mem_of_getElem? here
    simp only [after] at last
    generalize step p host e = moved at stays last
    cases stays with
    | trapped t state => simp at last
    | next same ip' =>
      obtain rfl := Option.some.inj last
      exact ⟨same.block.trans block, by omega⟩

/-! ### Fault blocks -/

theorem fault_stationary (undefined : p.funcNamed? Host.panicName = none) (id : TempId) (loc : Loc) :
    ∀ i ∈ faultInstrs id loc, Stationary p i := by
  simp only [faultInstrs, List.mem_cons, List.not_mem_nil, or_false, forall_eq_or_imp, forall_eq]
  refine ⟨⟨by simp, by simp⟩, ⟨by simp, fun _ => undefined⟩, ⟨by simp, by simp⟩⟩

theorem fault_unmarked (id : TempId) (loc : Loc) : ∀ i ∈ faultInstrs id loc, i.checked = false := by
  simp [faultInstrs]

/-- The first piece of a block has its label, a continuation has a label of its own, and every other
piece is a fault block. -/
theorem guardInstrs_kinds {b x : Block} {rest : List Instr} {names : FreshNames}
    (member : x ∈ (guardInstrs s b rest names).1) :
    x.label = b.label ∨ (∃ n, x.label = contLabel n) ∨
      (∃ id loc, x.instrs = faultInstrs id loc) ∧ ∃ i ∈ rest, (candidate? i).isSome := by
  induction rest generalizing b names with
  | nil =>
    obtain rfl := List.mem_singleton.mp member
    exact .inl rfl
  | cons i rest ih =>
    cases found : candidate? i with
    | none =>
      rw [guardInstrs_other found] at member
      rcases ih member with label | cont | ⟨fault, j, later, isSome⟩
      · exact .inl label
      · exact .inr (.inl cont)
      · exact .inr (.inr ⟨fault, j, List.mem_cons_of_mem _ later, isSome⟩)
    | some k =>
      rw [guardInstrs_candidate found] at member
      rcases List.mem_cons.mp member with rfl | member
      · exact .inl rfl
      · rcases List.mem_cons.mp member with rfl | member
        · exact .inr (.inr ⟨⟨_, _, rfl⟩, i, List.mem_cons_self, by rw [found]; rfl⟩)
        · rcases ih member with label | cont | ⟨fault, j, later, isSome⟩
          · exact .inr (.inl ⟨_, label⟩)
          · exact .inr (.inl cont)
          · exact .inr (.inr ⟨fault, j, List.mem_cons_of_mem _ later, isSome⟩)

theorem AddedFault.instrs {f : Func} {b : Block} (added : AddedFault f b)
    (inside : b ∈ (f.guard s).blocks) :
    (∃ id loc, b.instrs = faultInstrs id loc) ∧ ∃ t ∈ f.blocks, ∃ i ∈ t.instrs, (candidate? i).isSome := by
  obtain ⟨⟨n, label⟩, new⟩ := added
  obtain ⟨t, member, start, piece, _⟩ := mem_pieces inside
  rcases guardInstrs_kinds piece with old | ⟨m, cont⟩ | ⟨fault, some⟩
  · exact absurd (List.mem_map.mpr ⟨t, member, old.symm⟩) new
  · exact absurd (label.symm.trans cont) (faultLabel_ne_contLabel n m)
  · exact ⟨fault, t, member, some⟩

theorem AddedFault.stationary {f : Func} {b : Block} (added : AddedFault f b)
    (guarded : GuardedBy s p p') (member : f ∈ p.funcs) (inside : b ∈ (f.guard s).blocks) :
    ∀ i ∈ b.instrs, Stationary p' i := by
  obtain ⟨⟨id, loc, instrs⟩, t, block, i, here, found⟩ := added.instrs inside
  rw [instrs]
  exact fault_stationary (guarded.panic_undefined (candidateCount_ne_zero member block here found)) id loc

theorem GuardedBy.func_of_name {f f' : Func} (guarded : GuardedBy s p p') (typed : ProgramTyped p)
    (member : f ∈ p.funcs) (inside : f' ∈ p'.funcs) (named : f.name = f'.name) : f' = f.guard s := by
  rw [guarded.funcs] at inside
  obtain ⟨f₀, member₀, rfl⟩ := List.mem_map.mp inside
  have found := (signature?_func typed member).1
  have found₀ := (signature?_func typed member₀).1
  rw [named] at found
  rw [Option.some.inj (found.symm.trans found₀)]

/-! ### Marked instructions -/

theorem div_by_zero_of_exact {op : GuardOp} {a b : Int} (none : op.exactResult? a b = none) :
    op = .div ∧ b = 0 := by
  cases op with
  | div => simpa [GuardOp.exactResult?] using none
  | _ => simp [GuardOp.exactResult?] at none

theorem sdiv_of_ofOpcode? {op : Opcode} (isOp : GuardOp.ofOpcode? op = some .div) :
    op = .arith .sdiv := by
  unfold GuardOp.ofOpcode? at isOp
  split at isOp
  · simp at isOp
  · simp at isOp
  · simp at isOp
  · rfl
  · simp at isOp

section Passed

variable (typed : ProgramTyped p) (room : p.IdsFit s) {fr fr' : Frame} {i : Instr}
  {rest : List Instr} {k : Candidate}
include typed room

theorem fitsAt_mirror (mirrors : Mirrors s p fr fr') (block : fr.block ∈ fr.func.blocks)
    (next : fr.block.instrs.drop fr.ip = i :: rest) (found : candidate? i = some k)
    (fits : overflowsAt fr i = false) : FitsAt fr' { i with checked := true } := by
  have func := typed.funcs _ mirrors.member
  have enough := room _ mirrors.member
  have admitted := admitted_of_next mirrors func block next
  have candidate := IsCandidate.of_candidate? found
  obtain ⟨a, b, args, left, right⟩ := candidate.guardable admitted.typed
  obtain ⟨_, x, readX, normalX, readX'⟩ := left.mirror mirrors func enough
  obtain ⟨_, y, readY, normalY, readY'⟩ := right.mirror mirrors func enough
  rw [← candidate.ty] at readX readY readX' readY' normalX normalY
  rw [normalX] at readX'
  rw [normalY] at readY'
  rw [overflowsAt_candidate candidate args readX readY, decide_eq_false_iff_not] at fits
  refine ⟨k, a, b, x, y, candidate.op, candidate.ty, args, readX', readY', ?_⟩
  cases exact : k.op.exactResult? x.toInt y.toInt with
  | some z =>
    refine .inl ⟨z, rfl, ?_⟩
    by_contra misses
    exact fits ⟨z, exact, misses⟩
  | none =>
    obtain ⟨isDiv, zero⟩ := div_by_zero_of_exact exact
    have isOp := candidate.op
    rw [isDiv] at isOp
    exact .inr ⟨sdiv_of_ofOpcode? isOp, Int64.toInt_inj.mp zero⟩

end Passed

/-! ### Phases of a run -/

/-- Between two instructions of the program, behind the check of one that fits, or in a fault block. -/
inductive Phase (s : MulStrategy) (p : Program) (c' : Config σ) : Prop
  | between (c : Config σ) (rel : ConfigRel s p c c')
  | passed (c : Config σ) (i : Instr) (rest : List Instr) (k : Candidate)
    (block : c.frame.block ∈ c.frame.func.blocks)
    (next : c.frame.block.instrs.drop c.frame.ip = i :: rest) (found : candidate? i = some k)
    (fits : overflowsAt c.frame i = false) (stands : Stands s p c c' i rest true)
  | fault (id : TempId) (loc : Loc) (instrs : c'.frame.block.instrs = faultInstrs id loc)
    (counted : p.candidateCount ≠ 0)

/-- The next instruction is not marked, or it fits. -/
def NextFits (c : Config σ) : Prop :=
  ∀ i, c.frame.block.instrs[c.frame.ip]? = some i → i.checked = true → FitsAt c.frame i

theorem stationary_of_onlyStores {j : Instr} (only : Lowering.OnlyStores j.op) : Stationary p j := by
  obtain ⟨straight, notCall⟩ := only
  refine ⟨⟨?_, ?_, ?_⟩, fun isCall => absurd isCall notCall⟩
  · rintro isBr
    simp [isBr, Opcode.isTerminator, Opcode.shape] at straight
  · rintro isCbr
    simp [isCbr, Opcode.isTerminator, Opcode.shape] at straight
  · rintro isRet
    simp [isRet, Opcode.isTerminator, Opcode.shape] at straight

theorem GuardRan.check_fits {fr fr₁ : Frame} {i : Instr} {rest : List Instr} {c' : Config σ} {g : Guard}
    {m : Nat} (ran : GuardRan s p p' host fr i rest c' g fr₁) (short : m ≤ g.check.length)
    (reached : after (step p' host) m c' = some d) : NextFits d := by
  intro j here marked
  have stationary : ∀ j ∈ g.check, Stationary p' j := fun j member =>
    stationary_of_onlyStores (ran.internal j member).2
  obtain ⟨block, ip⟩ := straight_runs ran.code stationary short reached
  rw [block, ip, ← List.getElem?_drop, ran.code] at here
  rcases List.mem_append.mp (List.mem_of_getElem? here) with check | branch
  · simp [(ran.internal j check).1] at marked
  · obtain rfl := List.mem_singleton.mp branch
    simp [Guard.branch] at marked

theorem GuardRan.phase {c c' : Config σ} {i : Instr} {rest : List Instr} {k : Candidate} {g : Guard}
    {fr₁ : Frame} (ran : GuardRan s p p' host c.frame i rest c' g fr₁) (rel : ConfigRel s p c c')
    (next : c.frame.block.instrs.drop c.frame.ip = i :: rest) (found : candidate? i = some k) :
    Phase s p { c' with frame := fr₁ } := by
  cases overflows : overflowsAt c.frame i with
  | false => exact .passed c i rest k rel.frame.block next found overflows (ran.stands rel overflows)
  | true =>
    have arrived := ran.arrived
    rw [overflows] at arrived
    obtain ⟨id, instrs, _⟩ := arrived
    have here := List.mem_of_getElem? (getElem?_of_drop next)
    exact .fault id i.loc instrs (candidateCount_ne_zero rel.frame.mirrors.member rel.frame.block here
      (by rw [found]; rfl))

section Phase

variable (guarded : GuardedBy s p p') (typed : ProgramTyped p) (room : p.IdsFit s)
include guarded typed room

theorem Stands.phase {c c' : Config σ} {i : Instr} {rest : List Instr} {mark : Bool}
    (stands : Stands s p c c' i rest mark) (block : c.frame.block ∈ c.frame.func.blocks)
    (next : c.frame.block.instrs.drop c.frame.ip = i :: rest) :
    ∀ d, step p' host c' = .next d → Phase s p d := by
  intro d moves
  have same : SameStep s p (step p host c) (step p' host c') :=
    step_mirror guarded typed room block next stands
  rw [moves] at same
  generalize step p host c = moved at same
  cases same with
  | next rel => exact .between _ rel

theorem phase_segment (unchecked : ∀ i ∈ p.instrs, i.checked = false) (host : Host σ)
    (c' : Config σ) (phase : Phase s p c') :
    Segment (step p' host) (Phase s p) NextFits c' := by
  cases phase with
  | between c rel =>
    obtain ⟨i, rest, next⟩ := List.exists_cons_of_ne_nil rel.frame.more
    cases found : candidate? i with
    | none =>
      have stands := rel.stands next found
      refine .single (fun j here marked => ?_)
        (stands.phase guarded typed room rel.frame.block next)
      obtain rfl := Option.some.inj (stands.here.symm.trans here)
      have inside : i ∈ p.instrs := List.mem_flatMap.mpr ⟨_, rel.frame.mirrors.member,
        List.mem_flatMap.mpr ⟨_, rel.frame.block, List.mem_of_getElem? (getElem?_of_drop next)⟩⟩
      exact absurd (unchecked i inside) (by simpa using marked)
    | some k =>
      -- The check and the branch are one stretch: none of it is marked, and behind it is a phase again.
      obtain ⟨g, fr₁, ran⟩ := guard_runs typed room p' host rel.frame next found
      refine ⟨g.check.length, fun m short d reached => ran.check_fits short reached, fun d reached => ?_⟩
      obtain rfl := Option.some.inj (ran.reached.symm.trans reached)
      exact ran.phase rel next found
  | passed c i rest k block next found fits stands =>
    refine .single (fun j here _ => ?_) (stands.phase guarded typed room block next)
    obtain rfl := Option.some.inj (stands.here.symm.trans here)
    exact fitsAt_mirror typed room stands.mirrors block next found fits
  | fault id loc instrs counted =>
    have undefined := guarded.panic_undefined counted
    refine .single (fun j here marked => ?_) fun d moves => ?_
    · rw [instrs] at here
      simp [fault_unmarked id loc j (List.mem_of_getElem? here)] at marked
    · have stays := step_stays (c := c') host fun j here =>
        fault_stationary undefined id loc j (instrs ▸ List.mem_of_getElem? here)
      rw [moves] at stays
      cases stays with
      | next same => exact .fault id loc (by rw [same.block, instrs]) counted

end Phase

end GuardedIL.Overflow

namespace GuardedIL.Program

open Overflow Machine Typing

/-- Whatever the host does, an instruction that guarding has marked runs only on operands for which its
exact result fits, and a run that is in a fault block ends in a trap there. -/
theorem guard_contains_overflow {σ : Type} {p : Program} {o : Options} {g : Guarded} {host : Host σ}
    {name : String} {args : List Value} {state : σ} {c d : Config σ} {n : Nat}
    (accepted : p.verify = .ok ()) (unchecked : ∀ i ∈ p.instrs, i.checked = false)
    (room : p.HasRoom o.mul) (ok : p.guard o true = .ok g)
    (starts : start g.program name args state = .ok c)
    (reached : after (step g.program host) n c = some d) :
    (∀ i, d.frame.block.instrs[d.frame.ip]? = some i → i.checked = true → FitsAt d.frame i) ∧
    ∀ f ∈ p.funcs, f.name = d.frame.func.name → AddedFault f d.frame.block →
      (∃ bound t final, run g.program host bound name args state = some (.trapped t, final)) ∧
      ∀ m e, after (step g.program host) m d = some e → SameBlock d e := by
  have guarded := guardedBy_of_guard ok
  rw [verify_iff] at accepted
  have accepted' := guard_programTyped guarded accepted room.idsFit
  refine ⟨?_, fun f member named added => ?_⟩
  · rcases start_mirror guarded accepted room.idsFit name args state with
      ⟨_, _, fails⟩ | ⟨c₀, c', _, starts', rel⟩
    · simp [starts] at fails
    · obtain rfl := Except.ok.inj (starts.symm.trans starts')
      have segments := phase_segment guarded accepted room.idsFit unchecked host
      exact after_segments segments (.between c₀ rel) reached
  · have sound := (after_sound accepted' (start_sound accepted' starts) reached).frame
    have func := guarded.func_of_name accepted member sound.member named
    have all := added.stationary guarded member (by rw [← func]; exact sound.block)
    obtain ⟨bound, trap, final, ends⟩ := block_traps all host
    refine ⟨⟨n + bound, trap, final, ?_⟩, fun m e later => block_kept all later⟩
    simp only [run, starts, runFrom_eq_iterate]
    rw [iterate_after reached, ends]

/-- The product is marked and fits after fifteen steps. The sum overflows, and though the host goes on
after the report, the run ends in the fault block that it comes to eleven steps later. -/
theorem guard_contains_overflow_tripled : tripled.verify = .ok () ∧
    (∀ i ∈ tripled.instrs, i.checked = false) ∧ tripled.HasRoom .backDivision ∧
    ∃ g c, tripled.guard { mul := .backDivision } true = .ok g ∧
      start g.program "main" [.int 700000000] () = .ok c ∧
      (∃ d i, after (step g.program lenient) 15 c = some d ∧
        d.frame.block.instrs[d.frame.ip]? = some i ∧ i.checked = true ∧ FitsAt d.frame i) ∧
      ∃ d, after (step g.program lenient) 26 c = some d ∧ d.frame.block.label = faultLabel 2 ∧
        (∃ bound t final, run g.program lenient bound "main" [.int 700000000] () =
          some (.trapped t, final)) ∧
        ∀ m e, after (step g.program lenient) m d = some e → SameBlock d e := by
  have accepted : tripled.verify = .ok () := by decide +kernel
  have unchecked : ∀ i ∈ tripled.instrs, i.checked = false := by decide +kernel
  have room : tripled.HasRoom .backDivision := by decide +kernel
  have marked : ((tripled.guard { mul := .backDivision } true).toOption.bind fun g =>
      (start g.program "main" [.int 700000000] ()).toOption.bind fun c =>
        (after (step g.program lenient) 15 c).bind fun d =>
          d.frame.block.instrs[d.frame.ip]?.map (·.checked)) = some true := by decide +kernel
  have faults : ((tripled.guard { mul := .backDivision } true).toOption.bind fun g =>
      (start g.program "main" [.int 700000000] ()).toOption.bind fun c =>
        (after (step g.program lenient) 26 c).map fun d =>
          (d.frame.func.name, d.frame.block.label)) = some ("main", faultLabel 2) := by decide +kernel
  cases ok : tripled.guard { mul := .backDivision } true with
  | error e => simp [ok, Except.toOption] at marked
  | ok g =>
    simp only [ok, Except.toOption, Option.bind_some] at marked faults
    cases starts : start g.program "main" [.int 700000000] () with
    | error cause => simp [starts] at marked
    | ok c =>
      simp only [starts, Option.bind_some] at marked faults
      obtain ⟨d, reached, next⟩ := Option.bind_eq_some_iff.mp marked
      obtain ⟨i, here, mark⟩ := Option.map_eq_some_iff.mp next
      obtain ⟨d', reached', place⟩ := Option.map_eq_some_iff.mp faults
      obtain ⟨name, label⟩ := Prod.mk.inj place
      have added : AddedFault tripled.funcs[0] d'.frame.block := by
        refine ⟨⟨2, label⟩, ?_⟩
        rw [label]
        decide +kernel
      have contains := @guard_contains_overflow Unit tripled { mul := .backDivision } g lenient "main"
        [.int 700000000] () c
      have fits := (contains accepted unchecked room ok starts reached).1 i here mark
      have closed := (contains accepted unchecked room ok starts reached').2 tripled.funcs[0]
        List.mem_cons_self name.symm added
      exact ⟨accepted, unchecked, room, g, c, rfl, starts, ⟨d, i, reached, here, mark, fits⟩, d', reached',
        label, closed⟩

end GuardedIL.Program

import GuardedIL.Proofs.Layout

/-!
# Guarding keeps programs well formed

A guarded program declares what its guards call, and its functions keep their signatures, so what
was typed before is typed in the larger program. The pieces of a block are typed because their
checks are. `guard_verified` puts this together for every program that the checker accepts.
-/

namespace GuardedIL.Overflow

/-! ### Candidates -/

theorem ofTy?_eq_some {ty : Ty} {w : Width} : Width.ofTy? ty = some w ↔ ty = w.ty := by
  cases ty <;> cases w <;> simp [Width.ofTy?, Width.ty]

/-- A candidate is unchecked arithmetic of two operands at its width. -/
structure IsCandidate (i : Instr) (c : Candidate) : Prop where
  op : GuardOp.ofOpcode? i.op = some c.op
  ty : i.ty = c.width.ty
  args : ∃ a b, i.args = [a, b]
  unchecked : i.checked = false
  exact : i.wraps = false

theorem IsCandidate.of_candidate? {i : Instr} {c : Candidate} (found : candidate? i = some c) :
    IsCandidate i c := by
  unfold candidate? at found
  split at found
  · rename_i verdict
    obtain rfl := Option.some.inj found
    unfold classify at verdict
    split at verdict
    · rename_i op isOp
      split_ifs at verdict with integer count result signed unsigned exempt
      split at verdict
      · rename_i guardOp width opcode ty
        obtain rfl := Verdict.qualifies.inj verdict
        simp only [not_or, Bool.not_eq_true] at exempt
        exact ⟨opcode, ofTy?_eq_some.mp ty, List.length_eq_two.mp (by simpa using count),
          exempt.1, exempt.2⟩
      · simp at verdict
    · simp at verdict
  · simp at found

theorem IsCandidate.arith {i : Instr} {c : Candidate} (candidate : IsCandidate i c) :
    ∃ op, i.op = .arith op := by
  have op := candidate.op
  unfold GuardOp.ofOpcode? at op
  split at op
  · exact ⟨_, ‹_›⟩
  · exact ⟨_, ‹_›⟩
  · exact ⟨_, ‹_›⟩
  · exact ⟨_, ‹_›⟩
  · simp at op

theorem candidate?_terminator {i : Instr} (terminator : i.op.isTerminator = true) :
    candidate? i = none := by
  cases found : candidate? i with
  | none => rfl
  | some c =>
    obtain ⟨op, isOp⟩ := (IsCandidate.of_candidate? found).arith
    rw [isOp] at terminator
    exact absurd terminator (by simp [Opcode.isTerminator, Opcode.shape])

/-- A typed candidate has operands that a guard can read. -/
theorem IsCandidate.guardable {i : Instr} {c : Candidate} (candidate : IsCandidate i c)
    {context : Typing.Context} (typed : Typing.Typed context i) : ∃ a b, i.args = [a, b] ∧
      Guardable context.scope c.width a ∧ Guardable context.scope c.width b := by
  have operand : ∀ o, context.scope.operandTy? i.ty o = some i.ty →
      Guardable context.scope c.width o := by
    intro o has
    rw [candidate.ty] at has
    cases o with
    | temp id => exact .temp id has
    | int v => exact .literal v
    | _ => cases width : c.width <;> simp [Scope.operandTy?, width, Width.ty] at has
  obtain ⟨op, isOp⟩ := candidate.arith
  cases typed with
  | arith op' a b isOp' args result labels integer number signed unsigned left right =>
    exact ⟨a, b, args, operand a left, operand b right⟩
  | _ => simp_all

/-! ### What guarding adds to a program -/

/-- The program `p'` is `p` with its functions guarded, and with the declarations that guards need. -/
structure GuardedBy (s : MulStrategy) (p p' : Program) : Prop where
  funcs : p'.funcs = p.funcs.map (Func.guard s)
  externs : p'.externs = p.externs ∨ p'.externs = p.externs ++ [panicExtern] ∧
    p.externNamed? Host.panicName = none ∧ p.funcNamed? Host.panicName = none
  globals : p'.globals = p.globals ∨ p'.globals = p.globals ++ [panicGlobal] ∧
    p.globalNamed? messageGlobal = none
  panic : p.candidateCount ≠ 0 → p.funcNamed? Host.panicName = none ∧
    ∃ e, p'.externNamed? Host.panicName = some e ∧ e.signature = ⟨.void, [.str]⟩
  message : p.candidateCount ≠ 0 →
    ∃ g, p'.globalNamed? messageGlobal = some g ∧ g.init = overflowMessage

theorem declarePanic_ok {p p' : Program} (ok : p.declarePanic = .ok p') :
    p.funcNamed? Host.panicName = none ∧
    (∀ e, p.externNamed? Host.panicName = some e → e.signature = ⟨.void, [.str]⟩) ∧
    (∀ g, p.globalNamed? messageGlobal = some g → g.init = overflowMessage) ∧
    p' = { p with
      externs := if (p.externNamed? Host.panicName).isSome then p.externs else p.externs ++ [panicExtern]
      globals := if (p.globalNamed? messageGlobal).isSome then p.globals else p.globals ++ [panicGlobal] } := by
  unfold Program.declarePanic at ok
  split at ok
  · simp at ok
  · rename_i conflict
    unfold Program.panicConflict? at conflict
    split_ifs at conflict with func extern_ global
    refine ⟨by simpa using func, ?_, ?_, (Except.ok.inj ok).symm⟩
    · intro e found
      simp only [found, Option.any_some, decide_eq_true_eq, not_or, not_not] at extern_
      rw [Extern.signature, extern_.1, extern_.2]
      rfl
    · intro g found
      simp only [found, Option.any_some, decide_eq_true_eq, not_or, not_not] at global
      exact global.2

theorem guardedBy_of_guard {p : Program} {o : Options} {g : Guarded} (ok : p.guard o true = .ok g) :
    GuardedBy o.mul p g.program := by
  unfold Program.guard at ok
  split at ok
  · simp at ok
  · simp only [not_true_eq_false, if_false] at ok
    by_cases count : p.candidateCount = 0
    · rw [if_pos count] at ok
      obtain rfl := Except.ok.inj ok
      exact ⟨rfl, .inl rfl, .inl rfl, fun some => absurd count some, fun some => absurd count some⟩
    · rw [if_neg count] at ok
      cases declared : p.declarePanic with
      | error e => simp [declared, bind, Except.bind] at ok
      | ok d =>
        rw [declared] at ok
        obtain rfl := Except.ok.inj ok
        obtain ⟨func, signature, text, rfl⟩ := declarePanic_ok declared
        refine ⟨rfl, ?_, ?_, fun _ => ⟨func, ?_⟩, fun _ => ?_⟩
        · cases known : p.externNamed? Host.panicName with
          | none => exact .inr ⟨by simp, rfl, func⟩
          | some e => exact .inl (by simp)
        · cases known : p.globalNamed? messageGlobal with
          | none => exact .inr ⟨by simp, rfl⟩
          | some g => exact .inl (by simp)
        · cases known : p.externNamed? Host.panicName with
          | none =>
            refine ⟨panicExtern, ?_, rfl⟩
            simp only [Program.externNamed?] at known ⊢
            simp [List.find?_append, known, panicExtern]
          | some e => exact ⟨e, by simpa [Program.externNamed?] using known, signature e known⟩
        · cases known : p.globalNamed? messageGlobal with
          | none =>
            refine ⟨panicGlobal, ?_, rfl⟩
            simp only [Program.globalNamed?] at known ⊢
            simp [List.find?_append, known, panicGlobal]
          | some g => exact ⟨g, by simpa [Program.globalNamed?] using known, text g known⟩

namespace GuardedBy

variable {s : MulStrategy} {p p' : Program} (guarded : GuardedBy s p p')
include guarded

theorem funcNamed? (name : String) : p'.funcNamed? name = (p.funcNamed? name).map (Func.guard s) := by
  rw [Program.funcNamed?, guarded.funcs, List.find?_map]
  rfl

theorem panic_undefined (counted : p.candidateCount ≠ 0) : p'.funcNamed? Host.panicName = none := by
  rw [guarded.funcNamed?, (guarded.panic counted).1]
  rfl

theorem globalNamed? {name : String} {g : Global} (known : p.globalNamed? name = some g) :
    p'.globalNamed? name = some g := by
  rcases guarded.globals with same | ⟨more, _⟩
  · rwa [Program.globalNamed?, same]
  · rw [Program.globalNamed?, more, List.find?_append]
    simp only [Program.globalNamed?] at known
    rw [known, Option.some_or]

theorem signature? {name : String} {sig : Signature} (known : p.signature? name = some sig) :
    p'.signature? name = some sig := by
  have named := guarded.funcNamed? name
  -- The added declaration hides no function, as there is none of its name.
  have externs : p'.externNamed? name = p.externNamed? name := by
    rcases guarded.externs with same | ⟨more, absent, noFunc⟩
    · rw [Program.externNamed?, same, Program.externNamed?]
    · rw [Program.externNamed?, more, List.find?_append, ← Program.externNamed?]
      by_cases panic : name = Host.panicName
      · subst panic
        simp [Program.signature?, absent, noFunc] at known
      · have other : [panicExtern].find? (fun e => e.name == name) = none := by
          simp [panicExtern, Ne.symm panic]
        rw [other, Option.or_none]
  unfold Program.signature? at known ⊢
  rw [externs, named]
  cases found : p.externNamed? name with
  | some e => rwa [found] at known
  | none =>
    rw [found] at known
    rw [Option.map_map]
    exact known

theorem panicSignature (some : p.candidateCount ≠ 0) :
    p'.signature? Host.panicName = .some ⟨.void, [.str]⟩ := by
  obtain ⟨_, e, found, signature⟩ := guarded.panic some
  rw [Program.signature?, found, ← signature]

end GuardedBy

end GuardedIL.Overflow

/-! ### Larger contexts -/

namespace GuardedIL.Typing

/-- Everything that `c` knows, `c'` knows too. -/
structure Context.Within (c c' : Context) : Prop where
  scope : ∀ {id ty}, c.scope.ty? id = some ty → c'.scope.ty? id = some ty
  signatures : ∀ {name sig}, c.program.signature? name = some sig →
    c'.program.signature? name = some sig
  globals : ∀ {name g}, c.program.globalNamed? name = some g → c'.program.globalNamed? name = some g
  ret : c'.func.ret = c.func.ret
  targets : ∀ {label t}, c.func.blockLabelled? label = some t →
    ∃ t', c'.func.blockLabelled? label = some t' ∧ t'.params = t.params

variable {c c' : Context} {i : Instr}

theorem Context.Within.operandTy? (within : c.Within c') {expected ty : Ty} {o : Operand}
    (known : c.scope.operandTy? expected o = some ty) : c'.scope.operandTy? expected o = some ty := by
  cases o with
  | temp id => exact within.scope known
  | _ => exact known

theorem Typed.mono (within : c.Within c') (typed : Typed c i) : Typed c' i := by
  cases typed with
  | arith op a b isOp args result labels integer number signed unsigned left right =>
    exact .arith op a b isOp args result labels integer number signed unsigned
      (within.operandTy? left) (within.operandTy? right)
  | bitwise op a b isOp args result labels integer left right =>
    exact .bitwise op a b isOp args result labels integer (within.operandTy? left)
      (within.operandTy? right)
  | compare op a b ta tb isOp args result labels condition left right common =>
    exact .compare op a b ta tb isOp args result labels condition (within.operandTy? left)
      (within.operandTy? right) common
  | cast op a source isOp args result labels operand target integer width =>
    exact .cast op a source isOp args result labels (within.operandTy? operand) target integer width
  | constStr name isOp args result labels text known =>
    obtain ⟨g, found⟩ := Option.isSome_iff_exists.mp known
    exact .constStr name isOp args result labels text (by rw [within.globals found]; rfl)
  | call sig isOp labels known count args result =>
    exact .call sig isOp labels (within.signatures known) count
      (fun pair member => within.operandTy? (args pair member)) result
  | br isOp args result labels => exact .br isOp args result labels
  | cbr a isOp args result labels condition =>
    exact .cbr a isOp args result labels (within.operandTy? condition)
  | ret isOp result labels count form operand =>
    refine .ret isOp result labels count (by rw [within.ret, form]) fun a member => ?_
    rw [within.ret]
    exact within.operandTy? (operand a member)
  | trap isOp args result labels => exact .trap isOp args result labels

theorem Branches.mono (within : c.Within c') (branches : Branches c i) : Branches c' i := by
  intro n label successor
  obtain ⟨target, known, count, args⟩ := branches n label successor
  obtain ⟨target', known', params⟩ := within.targets known
  refine ⟨target', known', by rw [params, count], ?_⟩
  rw [params]
  exact fun pair member => within.operandTy? (args pair member)

theorem Admitted.mono (within : c.Within c') (admitted : Admitted c i) : Admitted c' i :=
  ⟨admitted.typed.mono within, admitted.branches.mono within⟩

/-- The mark of a guarded instruction plays no part in its typing. -/
theorem Admitted.checked (admitted : Admitted c i) : Admitted c { i with checked := true } :=
  ⟨(checkInstr_iff c _).mp ((checkInstr_iff c i).mpr admitted.typed), admitted.branches⟩

/-- An instruction with a result does not branch. -/
theorem Typed.straight (typed : Typed c i) (result : i.result.isSome) :
    i.op.isTerminator = false ∧ Admitted c i := by
  have plain : i.op.isTerminator = false ∧ i.labels = [] := by
    cases typed <;> simp_all [Opcode.isTerminator, Opcode.shape]
  refine ⟨plain.1, typed, fun n label successor => ?_⟩
  rw [plain.2] at successor
  simp at successor

end GuardedIL.Typing

/-! ### Pieces are typed -/

namespace GuardedIL.Overflow

open Typing

/-- A context whose function has single labels and knows the temporaries of its instructions. -/
structure Settled (c : Context) : Prop where
  labels : (c.func.blocks.map Block.label).Nodup
  declared : ∀ b ∈ c.func.blocks, Lowering.Declares c.scope b.instrs

/-- A context whose program has what guards call. -/
structure Equipped (c : Context) : Prop where
  panic : c.program.signature? Host.panicName = some ⟨.void, [.str]⟩
  message : (c.program.globalNamed? messageGlobal).isSome

theorem faultBlock_typed {c : Context} {i : Instr} {q : Predicate} {names : FreshNames}
    (settled : Settled c) (equipped : Equipped c)
    (inside : (Guard.ofInstr i q names).1.faultBlock ∈ c.func.blocks) :
    BlockTyped c (Guard.ofInstr i q names).1.faultBlock := by
  obtain ⟨id, instrs⟩ : ∃ id, (Guard.ofInstr i q names).1.faultBlock.instrs = faultInstrs id i.loc :=
    ⟨_, rfl⟩
  have declared := settled.declared _ inside
  rw [instrs] at declared
  have text : c.scope.ty? id = some .str := declared _ List.mem_cons_self id rfl
  refine ⟨(faultInstrs id i.loc).take 2, _, instrs, rfl, ?_, ?_⟩
  · simp [faultInstrs, Opcode.isTerminator, Opcode.shape]
  · have branchless : ∀ j ∈ faultInstrs id i.loc, Branches c j := by
      simp [faultInstrs, Branches]
    rw [instrs]
    intro j member
    refine ⟨?_, branchless j member⟩
    simp only [faultInstrs, List.mem_cons, List.not_mem_nil, or_false] at member
    rcases member with rfl | rfl | rfl
    · exact .constStr messageGlobal rfl rfl rfl rfl rfl equipped.message
    · refine .call _ rfl rfl equipped.panic rfl ?_ (by simp)
      simpa [Scope.operandTy?] using text
    · exact .trap rfl rfl rfl rfl

theorem headBlock_typed {c : Context} {i : Instr} {a b : Operand} {w : Width} {q : Predicate}
    {names : FreshNames} {block cont : Block} (settled : Settled c) (args : i.args = [a, b])
    (left : Guardable c.scope w a) (right : Guardable c.scope w b)
    (typed : ScheduleTyped w q.steps)
    (inside : (Guard.ofInstr i q names).1.headBlock block block.instrs ∈ c.func.blocks)
    (faultInside : (Guard.ofInstr i q names).1.faultBlock ∈ c.func.blocks)
    (contInside : cont ∈ c.func.blocks)
    (label : cont.label = (Guard.ofInstr i q names).1.contLabel) (params : cont.params = [])
    (before : ∀ j ∈ block.instrs, j.op.isTerminator = false ∧ Admitted c j) :
    BlockTyped c ((Guard.ofInstr i q names).1.headBlock block block.instrs) := by
  have declared : Lowering.Declares c.scope (Lowering.ofSteps i names q.steps).instrs := by
    intro j member
    refine settled.declared _ inside j ?_
    exact List.mem_append_left _ (List.mem_append_right _ member)
  obtain ⟨held, check⟩ := Lowering.ofSteps_typed args left right typed.each declared
  obtain ⟨id, condition, isCondition⟩ := (held.condition typed).condition
  have checks : ∀ j ∈ (Guard.ofInstr i q names).1.check, j.op.isTerminator = false ∧ Admitted c j :=
    fun j member => (check j member).straight
      ((Lowering.ofSteps_numbered i names q.steps).isSome member)
  have branch : Admitted c (Guard.ofInstr i q names).1.branch := by
    refine ⟨.cbr (.temp id) rfl ?_ rfl rfl isCondition, ?_⟩
    · rw [← condition]
      rfl
    · intro n successor known
      match n with
      | 0 =>
        obtain rfl := Option.some.inj known
        exact ⟨_, Func.blockLabelled?_of_mem settled.labels faultInside, rfl, by simp [Guard.faultBlock]⟩
      | 1 =>
        obtain rfl := Option.some.inj known
        refine ⟨cont, ?_, by rw [params]; rfl, by simp [params]⟩
        rw [← label]
        exact Func.blockLabelled?_of_mem settled.labels contInside
      | n + 2 => simp [Guard.branch] at known
  refine ⟨block.instrs ++ (Guard.ofInstr i q names).1.check, _, rfl, rfl, ?_, ?_⟩
  · intro j member
    rcases List.mem_append.mp member with early | late
    · exact (before j early).1
    · exact (checks j late).1
  · intro j member
    rcases List.mem_append.mp member with body | last
    · rcases List.mem_append.mp body with early | late
      · exact (before j early).2
      · exact (checks j late).2
    · rw [List.mem_singleton.mp last]
      exact branch

/-- The pieces of a block are typed if what the block holds already and what follows are. -/
theorem guardInstrs_typed {c : Context} {s : MulStrategy} {body : List Instr} {last : Instr}
    {b : Block} {names : FreshNames} (settled : Settled c)
    (equipped : (∃ i ∈ body, (candidate? i).isSome) → Equipped c)
    (inside : (guardInstrs s b (body ++ [last]) names).1 ⊆ c.func.blocks)
    (before : ∀ j ∈ b.instrs, j.op.isTerminator = false ∧ Admitted c j)
    (straight : ∀ j ∈ body, j.op.isTerminator = false ∧ Admitted c j)
    (terminator : last.op.isTerminator = true) (admitted : Admitted c last) :
    ∀ piece ∈ (guardInstrs s b (body ++ [last]) names).1, BlockTyped c piece := by
  induction body generalizing b names with
  | nil =>
    rw [List.nil_append, guardInstrs_other (candidate?_terminator terminator)]
    intro piece member
    rw [List.mem_singleton.mp member]
    refine ⟨b.instrs, last, rfl, terminator, fun j early => (before j early).1, ?_⟩
    intro j member
    rcases List.mem_append.mp member with early | end_
    · exact (before j early).2
    · rw [List.mem_singleton.mp end_]
      exact admitted
  | cons i body ih =>
    obtain ⟨notLast, isAdmitted⟩ := straight i List.mem_cons_self
    have later : ∀ j ∈ body, j.op.isTerminator = false ∧ Admitted c j :=
      fun j member => straight j (List.mem_cons_of_mem _ member)
    have equippedLater : (∃ i ∈ body, (candidate? i).isSome) → Equipped c := by
      rintro ⟨j, member, found⟩
      exact equipped ⟨j, List.mem_cons_of_mem _ member, found⟩
    cases found : candidate? i with
    | none =>
      rw [List.cons_append, guardInstrs_other found] at inside ⊢
      refine ih equippedLater inside ?_ later
      intro j member
      rcases List.mem_append.mp member with early | here
      · exact before j early
      · rw [List.mem_singleton.mp here]
        exact ⟨notLast, isAdmitted⟩
    | some candidate =>
      rw [List.cons_append, guardInstrs_candidate found] at inside ⊢
      obtain ⟨x, y, args, left, right⟩ :=
        (IsCandidate.of_candidate? found).guardable isAdmitted.typed
      have equip := equipped ⟨i, List.mem_cons_self, by rw [found]; rfl⟩
      dsimp only at inside ⊢
      obtain ⟨cont, tail, after, label, params, _⟩ :=
        guardInstrs_head s ((Guard.ofInstr i (candidate.predicate s) names).1.contBlock b [])
          (body ++ [last]) (Guard.ofInstr i (candidate.predicate s) names).2
      have insideAfter := (List.cons_subset.mp (List.cons_subset.mp inside).2).2
      have headInside := (List.cons_subset.mp inside).1
      have faultInside := (List.cons_subset.mp (List.cons_subset.mp inside).2).1
      have contInside : cont ∈ c.func.blocks := insideAfter (by rw [after]; exact List.mem_cons_self)
      intro piece member
      rcases List.mem_cons.mp member with rfl | member
      · exact headBlock_typed settled args left right (predicate_typed candidate s) headInside
          faultInside contInside label params before
      · rcases List.mem_cons.mp member with rfl | member
        · exact faultBlock_typed settled equip faultInside
        · refine ih equippedLater insideAfter ?_ later piece member
          intro j here
          rw [List.mem_singleton.mp here]
          exact ⟨notLast, isAdmitted.checked⟩

/-! ### Functions and programs -/

theorem candidateCount_ne_zero {p : Program} {f : Func} {t : Block} {i : Instr}
    (func : f ∈ p.funcs) (block : t ∈ f.blocks) (instr : i ∈ t.instrs)
    (found : (candidate? i).isSome) : p.candidateCount ≠ 0 := by
  intro none
  have inside : i ∈ p.instrs :=
    List.mem_flatMap.mpr ⟨f, func, List.mem_flatMap.mpr ⟨t, block, instr⟩⟩
  exact List.countP_eq_zero.mp none i inside found

theorem mem_of_blockLabelled? {f : Func} {label : String} {t : Block}
    (known : f.blockLabelled? label = some t) : t ∈ f.blocks ∧ t.label = label :=
  ⟨List.mem_of_find?_eq_some known, by simpa using List.find?_some known⟩

section Guarded

variable {s : MulStrategy} {p p' : Program} {f : Func} (guarded : GuardedBy s p p')
  (func : f ∈ p.funcs) (typed : FuncTyped p f) (room : f.IdsFit s)
include guarded typed room

theorem guard_within : Context.Within ⟨p, f, f.scope⟩ ⟨p', f.guard s, (f.guard s).scope⟩ := by
  obtain ⟨_, labels⟩ := Func.guard_labels (s := s) typed.labelled typed.labels
  refine ⟨Func.guard_scope room typed.ids, guarded.signature?, guarded.globalNamed?, rfl, ?_⟩
  intro label t known
  obtain ⟨member, rfl⟩ := mem_of_blockLabelled? known
  obtain ⟨_, head, _, _, _, params, found, _⟩ := Func.guard_target labels member
  exact ⟨head, found, params⟩

omit guarded in
theorem guard_settled : Settled ⟨p', f.guard s, (f.guard s).scope⟩ := by
  refine ⟨(Func.guard_labels typed.labelled typed.labels).2, ?_⟩
  intro b member j inside id result
  exact Func.scope_ty?_result (Func.guard_ids_nodup room typed.ids) member inside result

include func in
theorem guard_funcTyped : FuncTyped p' (f.guard s) := by
  obtain ⟨labelled, labels⟩ := Func.guard_labels (s := s) typed.labelled typed.labels
  have within := guard_within guarded typed room
  refine ⟨?_, labelled, labels, Func.guard_ids_nodup room typed.ids, ?_⟩
  · obtain ⟨entry, member⟩ := List.exists_mem_of_ne_nil _ typed.nonempty
    obtain ⟨_, head, _, blocks, subset, _⟩ := Func.guard_target labels member
    exact List.ne_nil_of_mem (subset (by rw [blocks]; exact List.mem_cons_self))
  · intro piece member
    obtain ⟨t, block, start, inside, subset⟩ := mem_pieces member
    obtain ⟨body, last, instrs, terminator, straight, admitted⟩ := typed.blocks t block
    rw [pieces, instrs] at inside subset
    have bodyInside : ∀ j ∈ body, j ∈ t.instrs := fun j here => by
      rw [instrs]
      exact List.mem_append_left _ here
    refine guardInstrs_typed (guard_settled typed room) ?_ subset (by simp) ?_ terminator ?_
      piece inside
    · rintro ⟨i, here, found⟩
      have some := candidateCount_ne_zero func block (bodyInside i here) found
      obtain ⟨g, message, _⟩ := guarded.message some
      exact ⟨guarded.panicSignature some, by rw [message]; rfl⟩
    · intro j here
      exact ⟨straight j here, (admitted j (bodyInside j here)).mono within⟩
    · refine (admitted last ?_).mono within
      rw [instrs]
      exact List.mem_append_right _ List.mem_cons_self

end Guarded

theorem guard_programTyped {s : MulStrategy} {p p' : Program} (guarded : GuardedBy s p p')
    (typed : ProgramTyped p) (room : ∀ f ∈ p.funcs, f.IdsFit s) : ProgramTyped p' := by
  have funcs : p'.funcs.map Func.name = p.funcs.map Func.name := by
    rw [guarded.funcs, List.map_map]
    rfl
  refine ⟨?_, ?_, ?_, ?_⟩
  · rw [funcs]
    rcases guarded.externs with same | ⟨more, absent, noFunc⟩
    · rw [same]
      exact typed.names
    · have newExtern : Host.panicName ∉ p.externs.map Extern.name := by
        simpa [Program.externNamed?] using absent
      have newFunc : Host.panicName ∉ p.funcs.map Func.name := by
        simpa [Program.funcNamed?] using noFunc
      rw [more, List.map_append, List.append_assoc]
      refine List.perm_middle.nodup_iff.mpr (List.nodup_cons.mpr ⟨?_, typed.names⟩)
      exact fun member => (List.mem_append.mp member).elim newExtern newFunc
  · rcases guarded.globals with same | ⟨more, absent⟩
    · rw [same]
      exact typed.globals
    · have new : messageGlobal ∉ p.globals.map Global.name := by
        simpa [Program.globalNamed?] using absent
      rw [more, List.map_append]
      refine List.perm_append_comm.nodup_iff.mpr (List.nodup_cons.mpr ⟨new, typed.globals⟩)
  · intro g member
    rcases guarded.globals with same | ⟨more, _⟩
    · exact typed.texts g (same ▸ member)
    · rw [more] at member
      rcases List.mem_append.mp member with old | new
      · exact typed.texts g old
      · rw [List.mem_singleton.mp new]
        rfl
  · intro f' member
    rw [guarded.funcs] at member
    obtain ⟨f, func, rfl⟩ := List.mem_map.mp member
    exact guard_funcTyped guarded func (typed.funcs f func) (room f func)

end GuardedIL.Overflow

namespace GuardedIL.Program

open Overflow Typing

/-- The temporaries of every function leave enough numbers for those of its guards. -/
def IdsFit (p : Program) (s : MulStrategy) : Prop :=
  ∀ f ∈ p.funcs, f.IdsFit s

instance (p : Program) (s : MulStrategy) : Decidable (p.IdsFit s) :=
  inferInstanceAs (Decidable (∀ f ∈ p.funcs, f.IdsFit s))

/-- All temporaries of the program and of its guards have registers. -/
def HasRoom (p : Program) (s : MulStrategy) : Prop :=
  ∀ f ∈ p.funcs, f.HasRoom s

instance (p : Program) (s : MulStrategy) : Decidable (p.HasRoom s) :=
  inferInstanceAs (Decidable (∀ f ∈ p.funcs, f.HasRoom s))

/-- All temporaries of the program have registers. -/
def SmallIds (p : Program) : Prop :=
  ∀ f ∈ p.funcs, f.SmallIds

instance (p : Program) : Decidable p.SmallIds :=
  inferInstanceAs (Decidable (∀ f ∈ p.funcs, f.SmallIds))

theorem HasRoom.idsFit {p : Program} {s : MulStrategy} (room : p.HasRoom s) : p.IdsFit s :=
  fun f member => (room f member).le

/-- A guarded program has small temporaries if there was room for them, so that what is said of the runs of
accepted programs holds of it. -/
theorem guard_smallIds {p : Program} {o : Options} {g : Guarded} (room : p.HasRoom o.mul)
    (ok : p.guard o true = .ok g) : g.program.SmallIds := by
  intro f' member
  rw [(guardedBy_of_guard ok).funcs] at member
  obtain ⟨f, original, rfl⟩ := List.mem_map.mp member
  exact Func.guard_smallIds (room f original)

/-- A program that the checker accepts is accepted again once it is guarded. -/
theorem guard_verified {p : Program} {o : Options} {instrument : Bool} {g : Guarded}
    (accepted : p.verify = .ok ()) (fits : p.IdsFit o.mul) (ok : p.guard o instrument = .ok g) :
    g.program.verify = .ok () := by
  cases instrument with
  | false =>
    unfold Program.guard at ok
    split at ok
    · simp at ok
    · obtain rfl := Except.ok.inj ok
      exact accepted
  | true =>
    rw [verify_iff] at accepted ⊢
    exact guard_programTyped (guardedBy_of_guard ok) accepted fits

/-- `main x` is `3 * x + 5000000000` in 32 bits. Its label is one that guards would take, its
literal is out of range, and it declares the function that reports an overflow. -/
def tripled : Program where
  externs := [panicExtern]
  funcs := [{
    name := "main"
    ret := .i32
    params := [{ name := "x", ty := .i32, id := 7 }]
    blocks := [{
      label := contLabel 0
      instrs := [
        { result := some 1, op := .arith .mul, ty := .i32, args := [.temp 7, .int 3], loc := { line := 4 } },
        { result := some 2, op := .arith .add, ty := .i32, args := [.int 5000000000, .temp 1]
          loc := { line := 5 } },
        { op := .ret, args := [.temp 2] }]
      terminated := true }] }]

theorem guard_verified_tripled : tripled.verify = .ok () ∧ tripled.IdsFit .backDivision ∧
    ∃ g, tripled.guard { mul := .backDivision } true = .ok g ∧ g.stats.instrumented = 2 ∧
      g.program.verify = .ok () := by
  have accepted : tripled.verify = .ok () := by decide +kernel
  have fits : tripled.IdsFit .backDivision := by decide +kernel
  have stats : (tripled.guard { mul := .backDivision } true).toOption.map (·.stats.instrumented) =
      some 2 := by decide +kernel
  cases ok : tripled.guard { mul := .backDivision } true with
  | error e => simp [ok, Except.toOption] at stats
  | ok g =>
    rw [ok] at stats
    exact ⟨accepted, fits, g, rfl, Option.some.inj stats,
      guard_verified (o := { mul := .backDivision }) accepted fits ok⟩

end GuardedIL.Program

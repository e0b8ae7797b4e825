import GuardedIL.Overflow.Program
import GuardedIL.Proofs.Lowering

/-!
# The layout of a guarded function

Guarding cuts each block into pieces. The first piece has the label and the parameters of the block,
every other piece has a fresh label, and the temporaries are those of the function and the next
fresh ones.
-/

namespace GuardedIL.Overflow

/-! ### The temporaries of guards -/

/-- The number of temporaries that guarding an instruction takes: one for each instruction of the
check and one for the message. -/
def instrTemps (s : MulStrategy) (i : Instr) : Nat :=
  match candidate? i with
  | none => 0
  | some c => (Guard.ofInstr i (c.predicate s) {}).1.check.length + 1

def guardTemps (s : MulStrategy) (is : List Instr) : Nat :=
  (is.map (instrTemps s)).sum

namespace Lowering

theorem operandAt_isNumeric (l : Lowering) (n : Option Nat) : (l.operandAt n).isNumeric =
    (n.bind fun n => (l.values.map Operand.isNumeric)[n]?).getD false := by
  cases n with
  | none => rfl
  | some n =>
    simp only [operandAt, Option.bind_some, Array.getElem?_map]
    cases l.values[n]? <;> rfl

/-- What is emitted depends on which operands are literals, not on the numbers of temporaries. -/
theorem ofSteps_shape (i : Instr) (names names' : FreshNames) (steps : List Step) :
    (ofSteps i names steps).values.map Operand.isNumeric =
        (ofSteps i names' steps).values.map Operand.isNumeric ∧
      (ofSteps i names steps).instrs.length = (ofSteps i names' steps).instrs.length := by
  induction steps using List.reverseRecOn with
  | nil => exact ⟨rfl, rfl⟩
  | append_singleton steps s ih =>
    obtain ⟨values, count⟩ := ih
    have numeric := operandAt_isNumeric (ofSteps i names steps) s.lhs
    rw [values, ← operandAt_isNumeric] at numeric
    rw [ofSteps_snoc, ofSteps_snoc]
    generalize ofSteps i names steps = l at *
    generalize ofSteps i names' steps = l' at *
    cases kind : s.kind with
    | sext =>
      simp only [step, kind, numeric]
      split
      · rename_i literal
        simp [reuse, values, count, numeric]
      · simp [emit, values, count, Operand.isNumeric]
    | _ => simp [step, kind, reuse, emit, values, count, Operand.isNumeric]

end Lowering

namespace Guard

variable (i : Instr) (q : Predicate) (names : FreshNames)

theorem ofInstr_check : (ofInstr i q names).1.check = (Lowering.ofSteps i names q.steps).instrs :=
  rfl

theorem ofInstr_check_length :
    (ofInstr i q names).1.check.length = (ofInstr i q {}).1.check.length :=
  (Lowering.ofSteps_shape i names {} q.steps).2

theorem ofInstr_nextTemp : (ofInstr i q names).2.nextTemp =
    names.nextTemp + UInt32.ofNat ((ofInstr i q names).1.check.length + 1) := by
  have numbered := Lowering.ofSteps_numbered i names q.steps
  change (Lowering.ofSteps i names q.steps).names.nextTemp + 1 = _
  rw [numbered.next, ofInstr_check, UInt32.ofNat_add]
  exact UInt32.add_assoc ..

/-- Labels do not depend on the check, nor on the temporaries. -/
theorem ofInstr_labels :
    ((ofInstr i q names).1.faultLabel, (ofInstr i q names).1.contLabel) = names.takeLabels.1 ∧
      (ofInstr i q names).2.nextLabel = names.takeLabels.2.nextLabel := by
  have numbered := Lowering.ofSteps_numbered i names q.steps
  have taken : (Lowering.ofSteps i names q.steps).names.takeLabels.1 = names.takeLabels.1 ∧
      (Lowering.ofSteps i names q.steps).names.takeLabels.2.nextLabel = names.takeLabels.2.nextLabel := by
    rw [numbered.next]
    exact ⟨rfl, rfl⟩
  exact taken

theorem ofInstr_used : (ofInstr i q names).2.used =
    (ofInstr i q names).1.faultLabel :: (ofInstr i q names).1.contLabel :: names.used := by
  have numbered := Lowering.ofSteps_numbered i names q.steps
  change _ :: _ :: (Lowering.ofSteps i names q.steps).names.used = _
  rw [numbered.next]
  rfl

theorem ofInstr_fresh : (ofInstr i q names).1.faultLabel ∉ names.used ∧
    (ofInstr i q names).1.contLabel ∉ names.used := by
  have numbered := Lowering.ofSteps_numbered i names q.steps
  have fresh := (Lowering.ofSteps i names q.steps).names.takeLabels_fresh
  rw [show (Lowering.ofSteps i names q.steps).names.used = names.used by rw [numbered.next]] at fresh
  exact fresh

theorem ofInstr_results : ((ofInstr i q names).1.check ++ (ofInstr i q names).1.fault).filterMap
    Instr.result = names.temps ((ofInstr i q names).1.check.length + 1) := by
  have numbered := Lowering.ofSteps_numbered i names q.steps
  have check : (ofInstr i q names).1.check.filterMap Instr.result =
      names.temps (ofInstr i q names).1.check.length := by
    rw [ofInstr_check]
    simpa [List.filterMap_map] using congrArg (List.filterMap id) numbered.results
  have fault : (ofInstr i q names).1.fault.filterMap Instr.result =
      [(Lowering.ofSteps i names q.steps).names.nextTemp] := rfl
  rw [List.filterMap_append, check, fault, numbered.next, FreshNames.temps, FreshNames.temps,
    List.range_succ, List.map_append]
  rfl

end Guard

/-! ### Definitions -/

end GuardedIL.Overflow

namespace GuardedIL

/-- The temporary that an instruction defines, with its type. -/
def Instr.typing? (i : Instr) : Option (TempId × Ty) :=
  i.result.map fun id => (id, i.ty)

/-- The temporaries that a block defines, with their types. -/
def Block.typings (b : Block) : List (TempId × Ty) :=
  b.params.map (fun p => (p.id, p.ty)) ++ b.instrs.filterMap Instr.typing?

def Func.typings (f : Func) : List (TempId × Ty) :=
  f.params.map (fun p => (p.id, p.ty)) ++ f.blocks.flatMap Block.typings

theorem Block.defs_typings (b : Block) : b.defs.map (fun d => (d.id, d.ty)) = b.typings := by
  simp only [Block.defs, Block.typings, List.map_append, List.map_map, List.map_filterMap,
    Instr.typing?, Option.map_map]
  rfl

theorem Func.defs_typings (f : Func) : f.defs.map (fun d => (d.id, d.ty)) = f.typings := by
  simp only [Func.defs, Func.typings, List.map_append, List.map_map, List.map_flatMap,
    Block.defs_typings]
  rfl

theorem Func.defs_ids (f : Func) : f.defs.map Def.id = f.typings.map Prod.fst := by
  rw [← f.defs_typings, List.map_map]
  rfl

theorem typing?_results (is : List Instr) :
    (is.filterMap Instr.typing?).map Prod.fst = is.filterMap Instr.result := by
  simp only [List.map_filterMap, Instr.typing?, Option.map_map]
  congr 1
  funext i
  cases i.result <;> rfl

end GuardedIL

namespace GuardedIL.Overflow

theorem guardTemps_cons (s : MulStrategy) (i : Instr) (rest : List Instr) :
    guardTemps s (i :: rest) = instrTemps s i + guardTemps s rest := by
  simp [guardTemps]

theorem instrTemps_none {s : MulStrategy} {i : Instr} (other : candidate? i = none) :
    instrTemps s i = 0 := by
  simp [instrTemps, other]

theorem instrTemps_some {s : MulStrategy} {i : Instr} {c : Candidate} (found : candidate? i = some c)
    (names : FreshNames) :
    instrTemps s i = (Guard.ofInstr i (c.predicate s) names).1.check.length + 1 := by
  rw [instrTemps, found, Guard.ofInstr_check_length i (c.predicate s) names]

section Pieces

variable {s : MulStrategy} {b : Block} {i : Instr} {rest : List Instr} {names : FreshNames}

theorem guardInstrs_other (other : candidate? i = none) : guardInstrs s b (i :: rest) names =
    guardInstrs s { b with instrs := b.instrs ++ [i] } rest names := by
  rw [guardInstrs, other]

theorem guardInstrs_candidate {c : Candidate} (found : candidate? i = some c) :
    guardInstrs s b (i :: rest) names =
      let g := Guard.ofInstr i (c.predicate s) names
      let after := guardInstrs s (g.1.contBlock b []) rest g.2
      (g.1.headBlock b b.instrs :: g.1.faultBlock :: after.1, after.2) := by
  rw [guardInstrs, found]

end Pieces

theorem guardInstrs_nextTemp (s : MulStrategy) (b : Block) (rest : List Instr) (names : FreshNames) :
    (guardInstrs s b rest names).2.nextTemp =
      names.nextTemp + UInt32.ofNat (guardTemps s rest) := by
  induction rest generalizing b names with
  | nil => simp [guardInstrs, guardTemps]
  | cons i rest ih =>
    rw [guardTemps_cons]
    cases found : candidate? i with
    | none => rw [guardInstrs_other found, ih, instrTemps_none found, Nat.zero_add]
    | some c =>
      rw [guardInstrs_candidate found]
      simp only [ih, Guard.ofInstr_nextTemp, ← instrTemps_some found]
      rw [UInt32.ofNat_add]
      exact UInt32.add_assoc ..

/-- The pieces define what the block defined, and the temporaries of the guards. -/
theorem guardInstrs_typings (s : MulStrategy) (b : Block) (rest : List Instr) (names : FreshNames) :
    ∃ fresh : List (TempId × Ty), fresh.map Prod.fst = names.temps (guardTemps s rest) ∧
      ((guardInstrs s b rest names).1.flatMap Block.typings).Perm
        (b.typings ++ rest.filterMap Instr.typing? ++ fresh) := by
  induction rest generalizing b names with
  | nil => exact ⟨[], by simp [guardTemps, FreshNames.temps], by simp [guardInstrs]⟩
  | cons i rest ih =>
    cases found : candidate? i with
    | none =>
      obtain ⟨fresh, ids, typings⟩ := ih { b with instrs := b.instrs ++ [i] } names
      refine ⟨fresh, ?_, ?_⟩
      · rw [ids, guardTemps_cons, instrTemps_none found, Nat.zero_add]
      · rw [guardInstrs_other found]
        refine typings.trans (List.Perm.of_eq ?_)
        cases typing : i.typing? <;> simp [Block.typings, typing]
    | some c =>
      generalize guarded : Guard.ofInstr i (c.predicate s) names = g
      obtain ⟨fresh, ids, typings⟩ := ih (g.1.contBlock b []) g.2
      have results := Guard.ofInstr_results i (c.predicate s) names
      have next := Guard.ofInstr_nextTemp i (c.predicate s) names
      have count := instrTemps_some (s := s) found names
      rw [guarded] at results next count
      refine ⟨(g.1.check ++ g.1.fault).filterMap Instr.typing? ++ fresh, ?_, ?_⟩
      · rw [List.map_append, typing?_results, results, ids, guardTemps_cons, count,
          FreshNames.temps_add next]
      · have head : (g.1.headBlock b b.instrs).typings =
            b.typings ++ g.1.check.filterMap Instr.typing? := by
          simp [Guard.headBlock, Guard.branch, Block.typings, Instr.typing?]
        have fault : g.1.faultBlock.typings = g.1.fault.filterMap Instr.typing? := rfl
        have cont : (g.1.contBlock b []).typings = [i].filterMap Instr.typing? := by
          rw [← guarded]
          rfl
        rw [cont] at typings
        rw [guardInstrs_candidate found, guarded, List.flatMap_cons, List.flatMap_cons, head, fault,
          show i :: rest = [i] ++ rest from rfl, List.filterMap_append, List.filterMap_append]
        refine ((typings.append_left _).append_left _).trans ?_
        rw [List.perm_iff_count]
        intro pair
        simp only [List.count_append]
        omega

theorem guardTemps_append (s : MulStrategy) (is js : List Instr) :
    guardTemps s (is ++ js) = guardTemps s is + guardTemps s js := by
  simp [guardTemps]

theorem guardBlocks_typings (s : MulStrategy) (blocks : List Block) (names : FreshNames) :
    ∃ fresh : List (TempId × Ty),
      fresh.map Prod.fst = names.temps (guardTemps s (blocks.flatMap Block.instrs)) ∧
      ((guardBlocks s blocks names).1.flatMap Block.typings).Perm
        (blocks.flatMap Block.typings ++ fresh) := by
  induction blocks generalizing names with
  | nil => exact ⟨[], rfl, .refl _⟩
  | cons b rest ih =>
    rw [guardBlocks, List.flatMap_cons, guardTemps_append]
    have next := guardInstrs_nextTemp s { b with instrs := [] } b.instrs names
    obtain ⟨fresh, ids, typings⟩ := guardInstrs_typings s { b with instrs := [] } b.instrs names
    obtain ⟨fresh', ids', typings'⟩ := ih (guardInstrs s { b with instrs := [] } b.instrs names).2
    have block : ({ b with instrs := [] } : Block).typings ++ b.instrs.filterMap Instr.typing? =
        b.typings := by
      simp [Block.typings]
    refine ⟨fresh ++ fresh', ?_, ?_⟩
    · rw [List.map_append, ids, ids', FreshNames.temps_add next]
    · rw [block] at typings
      rw [List.flatMap_append, List.flatMap_cons]
      refine (typings.append typings').trans ?_
      rw [List.perm_iff_count]
      intro pair
      simp only [List.count_append]
      omega

/-! ### Labels -/

/-- The labels `fresh` are taken between `names` and `later`. -/
structure TakesLabels (names later : FreshNames) (fresh : List String) : Prop where
  used : later.used.Perm (fresh ++ names.used)
  distinct : names.used.Nodup → later.used.Nodup
  named : ∀ label ∈ fresh, label ≠ ""

namespace TakesLabels

theorem refl (names : FreshNames) : TakesLabels names names [] :=
  ⟨.refl _, id, by simp⟩

theorem trans {first second third : FreshNames} {fresh fresh' : List String}
    (one : TakesLabels first second fresh) (two : TakesLabels second third fresh') :
    TakesLabels first third (fresh ++ fresh') := by
  refine ⟨?_, fun distinct => two.distinct (one.distinct distinct), ?_⟩
  · refine two.used.trans ((one.used.append_left fresh').trans ?_)
    rw [← List.append_assoc]
    exact List.perm_append_comm.append_right _
  · intro label member
    rcases List.mem_append.mp member with early | late
    · exact one.named label early
    · exact two.named label late

theorem ofInstr (i : Instr) (q : Predicate) (names : FreshNames) :
    TakesLabels names (Guard.ofInstr i q names).2
      [(Guard.ofInstr i q names).1.faultLabel, (Guard.ofInstr i q names).1.contLabel] := by
  obtain ⟨fault, cont⟩ := Guard.ofInstr_fresh i q names
  have differ : (Guard.ofInstr i q names).1.faultLabel ≠ (Guard.ofInstr i q names).1.contLabel :=
    faultLabel_ne_contLabel _ _
  refine ⟨?_, fun distinct => ?_, ?_⟩
  · rw [Guard.ofInstr_used]
    rfl
  · rw [Guard.ofInstr_used]
    simp [fault, cont, differ, distinct]
  · rintro label member
    rcases List.mem_pair.mp member with rfl | rfl
    · exact faultLabel_ne_empty _
    · exact contLabel_ne_empty _

end TakesLabels

theorem guardInstrs_labels (s : MulStrategy) (b : Block) (rest : List Instr) (names : FreshNames) :
    ∃ fresh, (guardInstrs s b rest names).1.map Block.label = b.label :: fresh ∧
      TakesLabels names (guardInstrs s b rest names).2 fresh := by
  induction rest generalizing b names with
  | nil => exact ⟨[], rfl, .refl names⟩
  | cons i rest ih =>
    cases found : candidate? i with
    | none =>
      rw [guardInstrs_other found]
      exact ih _ names
    | some c =>
      rw [guardInstrs_candidate found]
      have taken := TakesLabels.ofInstr i (c.predicate s) names
      generalize Guard.ofInstr i (c.predicate s) names = g at taken ⊢
      obtain ⟨fresh, labels, later⟩ := ih (g.1.contBlock b []) g.2
      refine ⟨_, ?_, taken.trans later⟩
      simp only [List.map_cons, labels]
      rfl

theorem guardBlocks_labels (s : MulStrategy) (blocks : List Block) (names : FreshNames) :
    ∃ fresh, ((guardBlocks s blocks names).1.map Block.label).Perm
        (blocks.map Block.label ++ fresh) ∧
      TakesLabels names (guardBlocks s blocks names).2 fresh := by
  induction blocks generalizing names with
  | nil => exact ⟨[], .refl _, .refl names⟩
  | cons b rest ih =>
    rw [guardBlocks]
    obtain ⟨fresh, labels, taken⟩ := guardInstrs_labels s { b with instrs := [] } b.instrs names
    obtain ⟨fresh', labels', taken'⟩ := ih (guardInstrs s { b with instrs := [] } b.instrs names).2
    refine ⟨fresh ++ fresh', ?_, taken.trans taken'⟩
    simp only [List.map_append, List.map_cons, labels, List.cons_append]
    refine ((labels'.append_left fresh).trans ?_).cons _
    rw [← List.append_assoc, ← List.append_assoc]
    exact List.perm_append_comm.append_right _

/-! ### Pieces -/

/-- The pieces of a block. -/
def pieces (s : MulStrategy) (t : Block) (names : FreshNames) : List Block :=
  (guardInstrs s { t with instrs := [] } t.instrs names).1

/-- The first piece goes on from what the block holds. -/
theorem guardInstrs_head (s : MulStrategy) (b : Block) (rest : List Instr) (names : FreshNames) :
    ∃ head tail, (guardInstrs s b rest names).1 = head :: tail ∧ head.label = b.label ∧
      head.params = b.params ∧ b.instrs <+: head.instrs := by
  induction rest generalizing b names with
  | nil => exact ⟨b, [], rfl, rfl, rfl, List.prefix_rfl⟩
  | cons i rest ih =>
    cases found : candidate? i with
    | none =>
      obtain ⟨head, tail, blocks, label, params, kept⟩ :=
        ih { b with instrs := b.instrs ++ [i] } names
      rw [guardInstrs_other found]
      exact ⟨head, tail, blocks, label, params, (List.prefix_append _ _).trans kept⟩
    | some c =>
      rw [guardInstrs_candidate found]
      refine ⟨_, _, rfl, rfl, rfl, ?_⟩
      exact (List.prefix_append _ _).trans (List.prefix_append _ _)

/-- Every block has its pieces in the guarded function, with room for the guards among them. -/
theorem pieces_subset {s : MulStrategy} {blocks : List Block} {names : FreshNames} {t : Block}
    (member : t ∈ blocks) : ∃ start : FreshNames,
      pieces s t start ⊆ (guardBlocks s blocks names).1 ∧
      ∀ bound, names.HasRoom bound (guardTemps s (blocks.flatMap Block.instrs)) →
        start.HasRoom bound (guardTemps s t.instrs) := by
  induction blocks generalizing names with
  | nil => simp at member
  | cons b rest ih =>
    rw [guardBlocks, List.flatMap_cons, guardTemps_append]
    rcases List.mem_cons.mp member with rfl | later
    · exact ⟨names, List.subset_append_left _ _, fun bound room => room.first⟩
    · obtain ⟨start, subset, room⟩ := ih later
      refine ⟨start, fun x inside => List.mem_append_right _ (subset inside), ?_⟩
      intro bound whole
      exact room bound (whole.rest (guardInstrs_nextTemp s _ _ names))

theorem mem_pieces {s : MulStrategy} {blocks : List Block} {names : FreshNames} {b : Block}
    (member : b ∈ (guardBlocks s blocks names).1) : ∃ t ∈ blocks, ∃ start : FreshNames,
      b ∈ pieces s t start ∧ pieces s t start ⊆ (guardBlocks s blocks names).1 := by
  induction blocks generalizing names with
  | nil => simp [guardBlocks] at member
  | cons t rest ih =>
    rw [guardBlocks] at member ⊢
    rcases List.mem_append.mp member with here | later
    · exact ⟨t, List.mem_cons_self, names, here, List.subset_append_left _ _⟩
    · obtain ⟨t', inside, start, piece, subset⟩ := ih later
      exact ⟨t', List.mem_cons_of_mem _ inside, start, piece,
        fun x found => List.mem_append_right _ (subset found)⟩

end GuardedIL.Overflow

/-! ### Guarded functions -/

namespace GuardedIL.Func

open Overflow

/-- The temporaries of the function leave enough numbers for those of its guards. -/
def IdsFit (f : Func) (s : MulStrategy) : Prop :=
  f.registerCount + guardTemps s f.instrs ≤ 2 ^ 32

instance (f : Func) (s : MulStrategy) : Decidable (f.IdsFit s) :=
  inferInstanceAs (Decidable (_ ≤ _))

/-- All temporaries of the function and of its guards have registers: none of them is the greatest number. -/
def HasRoom (f : Func) (s : MulStrategy) : Prop :=
  f.registerCount + guardTemps s f.instrs < 2 ^ 32

instance (f : Func) (s : MulStrategy) : Decidable (f.HasRoom s) :=
  inferInstanceAs (Decidable (_ < _))

/-- All temporaries of the function have registers. -/
def SmallIds (f : Func) : Prop :=
  ∀ d ∈ f.defs, d.id.toNat < 2 ^ 32 - 1

instance (f : Func) : Decidable f.SmallIds :=
  inferInstanceAs (Decidable (∀ d ∈ f.defs, d.id.toNat < 2 ^ 32 - 1))

theorem registerCount_lt {f : Func} (small : f.SmallIds) : f.registerCount < 2 ^ 32 := by
  have bounded : f.registerCount ≤ 2 ^ 32 - 1 := registers_le (Nat.zero_le _) small
  omega

theorem lt_registerCount_of_typing {f : Func} {id : TempId} {ty : Ty} (typing : (id, ty) ∈ f.typings) :
    id.toNat < f.registerCount := by
  rw [← f.defs_typings] at typing
  obtain ⟨d, member, same⟩ := List.mem_map.mp typing
  rw [← (Prod.mk.inj same).1]
  exact lt_registerCount member

theorem scope_ty?_iff {f : Func} (distinct : (f.defs.map Def.id).Nodup) {id : TempId} {ty : Ty} :
    f.scope.ty? id = some ty ↔ (id, ty) ∈ f.typings := by
  rw [Typing.scope_ty? distinct, ← f.defs_typings, List.mem_map]
  simp only [Prod.mk.injEq]

section Declared

variable {f : Func} (distinct : (f.defs.map Def.id).Nodup)
include distinct

theorem scope_ty?_param {q : Param} (member : q ∈ f.params) : f.scope.ty? q.id = some q.ty :=
  (scope_ty?_iff distinct).mpr (List.mem_append_left _ (List.mem_map.mpr ⟨q, member, rfl⟩))

theorem scope_ty?_blockParam {b : Block} {q : Param} (block : b ∈ f.blocks) (member : q ∈ b.params) :
    f.scope.ty? q.id = some q.ty := by
  refine (scope_ty?_iff distinct).mpr (List.mem_append_right _ (List.mem_flatMap.mpr ⟨b, block, ?_⟩))
  exact List.mem_append_left _ (List.mem_map.mpr ⟨q, member, rfl⟩)

theorem scope_ty?_result {b : Block} {i : Instr} {id : TempId} (block : b ∈ f.blocks)
    (member : i ∈ b.instrs) (result : i.result = some id) : f.scope.ty? id = some i.ty := by
  refine (scope_ty?_iff distinct).mpr (List.mem_append_right _ (List.mem_flatMap.mpr ⟨b, block, ?_⟩))
  exact List.mem_append_right _ (List.mem_filterMap.mpr ⟨i, member, by rw [Instr.typing?, result]; rfl⟩)

end Declared

theorem blockLabelled?_of_mem {f : Func} (distinct : (f.blocks.map Block.label).Nodup) {b : Block}
    (member : b ∈ f.blocks) : f.blockLabelled? b.label = some b := by
  rw [blockLabelled?, List.find?_eq_some_iff_getElem]
  obtain ⟨n, inside, rfl⟩ := List.mem_iff_getElem.mp member
  refine ⟨by simp, n, inside, rfl, fun m before => ?_⟩
  have differ := List.pairwise_iff_getElem.mp distinct m n (by simp; omega) (by simpa using inside) before
  simpa using differ

section Guard

variable {s : MulStrategy} {f : Func}

theorem guard_typings (s : MulStrategy) (f : Func) : ∃ fresh : List (TempId × Ty),
    fresh.map Prod.fst = (FreshNames.ofFunc f).temps (guardTemps s f.instrs) ∧
      (f.guard s).typings.Perm (f.typings ++ fresh) := by
  obtain ⟨fresh, ids, typings⟩ := guardBlocks_typings s f.blocks (.ofFunc f)
  refine ⟨fresh, ids, ?_⟩
  rw [Func.typings, Func.typings, List.append_assoc]
  exact typings.append_left _

theorem guard_typings_subset : f.typings ⊆ (f.guard s).typings := by
  obtain ⟨fresh, _, typings⟩ := f.guard_typings s
  exact fun pair member => typings.symm.subset (List.mem_append_left _ member)

/-- Guarding keeps the definitions of temporaries single. -/
theorem guard_ids_nodup (room : f.IdsFit s) (distinct : (f.defs.map Def.id).Nodup) :
    ((f.guard s).defs.map Def.id).Nodup := by
  obtain ⟨fresh, ids, typings⟩ := f.guard_typings s
  have enough := ofFunc_hasRoom room
  rw [defs_ids, (typings.map Prod.fst).nodup_iff, List.map_append, ids, ← defs_ids]
  refine List.nodup_append.mpr ⟨distinct, enough.temps_nodup, ?_⟩
  -- Old temporaries are below the register count, and fresh ones are not.
  rintro old isOld new isNew rfl
  obtain ⟨d, member, rfl⟩ := List.mem_map.mp isOld
  exact absurd (enough.le_of_mem isNew) (Nat.not_le.mpr (lt_registerCount member))

/-- With room, the temporaries of guards have registers too. -/
theorem guard_smallIds (room : f.HasRoom s) : (f.guard s).SmallIds := by
  intro d member
  obtain ⟨fresh, ids, typings⟩ := f.guard_typings s
  have typing : (d.id, d.ty) ∈ (f.guard s).typings := by
    rw [← defs_typings]
    exact List.mem_map_of_mem (f := fun d : Def => (d.id, d.ty)) member
  unfold HasRoom at room
  rcases List.mem_append.mp (typings.subset typing) with old | new
  · have below := lt_registerCount_of_typing old
    omega
  · have taken : d.id ∈ (FreshNames.ofFunc f).temps (guardTemps s f.instrs) := by
      rw [← ids]
      exact List.mem_map_of_mem (f := Prod.fst) new
    have below := (ofFunc_hasRoom room.le).lt_of_mem taken
    rw [firstTemp_eq_registerCount (by omega)] at below
    omega

theorem guard_scope (room : f.IdsFit s) (distinct : (f.defs.map Def.id).Nodup) {id : TempId} {ty : Ty}
    (known : f.scope.ty? id = some ty) : (f.guard s).scope.ty? id = some ty :=
  (scope_ty?_iff (guard_ids_nodup room distinct)).mpr
    (guard_typings_subset ((scope_ty?_iff distinct).mp known))

theorem guard_labels (labelled : ∀ b ∈ f.blocks, b.label ≠ "")
    (distinct : (f.blocks.map Block.label).Nodup) :
    (∀ b ∈ (f.guard s).blocks, b.label ≠ "") ∧ ((f.guard s).blocks.map Block.label).Nodup := by
  obtain ⟨fresh, labels, taken⟩ := guardBlocks_labels s f.blocks (.ofFunc f)
  refine ⟨?_, ?_⟩
  · intro b member
    have label := labels.subset (List.mem_map_of_mem (f := Block.label) member)
    rcases List.mem_append.mp label with old | new
    · obtain ⟨t, inside, same⟩ := List.mem_map.mp old
      rw [← same]
      exact labelled t inside
    · exact taken.named _ new
  · have all : (f.guard s).blocks.map Block.label |>.Perm
        (guardBlocks s f.blocks (.ofFunc f)).2.used :=
      labels.trans (List.perm_append_comm.trans taken.used.symm)
    rw [all.nodup_iff]
    exact taken.distinct distinct

/-- The first piece of a block stands in the guarded function under the label of the block. -/
theorem guard_target (labels : ((f.guard s).blocks.map Block.label).Nodup) {t : Block}
    (member : t ∈ f.blocks) : ∃ start head tail, pieces s t start = head :: tail ∧
      pieces s t start ⊆ (f.guard s).blocks ∧ head.params = t.params ∧
      (f.guard s).blockLabelled? t.label = some head ∧
      (f.IdsFit s → start.HasRoom f.registerCount (guardTemps s t.instrs)) := by
  obtain ⟨start, subset, room⟩ := @pieces_subset s _ (.ofFunc f) t member
  obtain ⟨head, tail, blocks, label, params, _⟩ :=
    guardInstrs_head s { t with instrs := [] } t.instrs start
  refine ⟨start, head, tail, blocks, subset, params, ?_, fun enough => room _ (ofFunc_hasRoom enough)⟩
  have inside : head ∈ (f.guard s).blocks :=
    subset (by rw [pieces, blocks]; exact List.mem_cons_self)
  rw [← show head.label = t.label from label]
  exact blockLabelled?_of_mem labels inside

end Guard

end GuardedIL.Func

import GuardedIL.Proofs.Walk

/-!
# Guarding twice

Guarding leaves nothing to guard. The arithmetic of a check belongs to its guard and is well formed, and a
candidate is marked once it has its guard, so that a second run ignores every instruction. It counts as many
temporaries as the first run had at its end, so that it has no names to add either.
-/

namespace GuardedIL.Overflow

/-! ### Nothing is left to guard -/

theorem classify_of_candidate?_none {i : Instr} (other : candidate? i = none)
    (sane : ∀ why, classify i ≠ .malformed why) : classify i = .ignored := by
  unfold candidate? at other
  cases verdict : classify i with
  | ignored => rfl
  | qualifies c => simp [verdict] at other
  | malformed why => exact absurd verdict (sane why)

theorem candidate?_of_ignored {i : Instr} (ignored : classify i = .ignored) : candidate? i = none := by
  rw [candidate?, ignored]

theorem classify_marked {i : Instr} {c : Candidate} (found : candidate? i = some c) :
    classify { i with checked := true } = .ignored := by
  unfold candidate? at found
  split at found
  · rename_i verdict
    unfold classify at verdict ⊢
    split at verdict
    · rename_i op isOp
      simp only [isOp]
      -- What makes arithmetic malformed is read off before the mark is.
      split_ifs at verdict with integer count result signed unsigned
      rw [if_neg integer, if_neg count, if_neg result, if_neg signed, if_neg unsigned]
      simp
    · simp at verdict
  · simp at found

theorem classify_of_other {i : Instr} (other : i.op.isArithmetic = false) : classify i = .ignored := by
  unfold classify
  split
  · rename_i op isOp
    rw [isOp] at other
    exact absurd other (by simp [Opcode.isArithmetic])
  · rfl

theorem classify_internal {i : Instr} {op : ArithOp} {bits : Int} (isOp : i.op = .arith op)
    (signed : op.dividesUnsigned = false) (word : bits ∈ wordBits) (ty : i.ty = tyOfBits bits)
    (count : i.args.length = 2) (result : i.result.isSome) (internal : i.wraps = true) :
    classify i = .ignored := by
  have present : i.result.isNone = false := by
    rw [← Option.not_isSome, result]
    rfl
  unfold classify
  simp [isOp, ty, tyOfBits_isInteger word, tyOfBits_ne_i1 word, tyOfBits_isSigned word, count, present,
    signed, internal]

theorem Lowering.step_ignored {i : Instr} {l : Lowering} {w : Width} {earlier : List Step} {s : Step}
    (typed : s.WellTyped w earlier) (before : ∀ j ∈ l.instrs, classify j = .ignored) :
    ∀ j ∈ (l.step i s).instrs, classify j = .ignored := by
  have emitted : ∀ op args, (∀ j : Instr, j.op = op → j.ty = tyOfBits s.bits → j.args = args →
      j.result.isSome → j.wraps = true → classify j = .ignored) →
      ∀ j ∈ (l.emit op s.bits args i.loc).instrs, classify j = .ignored := by
    intro op args ignored j member
    rcases List.mem_append.mp member with early | last
    · exact before j early
    · rw [List.mem_singleton.mp last]
      exact ignored _ rfl rfl rfl rfl rfl
  unfold Step.WellTyped at typed
  unfold step
  split
  · exact before
  · exact before
  · exact before
  · dsimp only
    split
    · exact before
    · exact emitted _ _ fun j isOp _ _ _ _ => classify_of_other (by rw [isOp]; rfl)
  · exact emitted _ _ fun j isOp _ _ _ _ => classify_of_other (by rw [isOp]; rfl)
  · rename_i o kind
    simp only [kind] at typed
    refine emitted _ _ fun j isOp ty args result internal => ?_
    cases o with
    | add | sub | mul | sdiv =>
      exact classify_internal isOp rfl typed.1 ty (by rw [args]; rfl) result internal
    | _ => exact classify_of_other (by rw [isOp]; rfl)

theorem Lowering.ofSteps_ignored {i : Instr} {names : FreshNames} {w : Width} {steps : List Step}
    (typed : StepsTyped w steps) : ∀ j ∈ (ofSteps i names steps).instrs, classify j = .ignored := by
  induction steps using List.reverseRecOn with
  | nil => simp [ofSteps]
  | append_singleton steps s ih =>
    obtain ⟨typedSteps, typedStep⟩ := stepsTyped_snoc.mp typed
    rw [ofSteps_snoc]
    exact step_ignored typedStep (ih typedSteps)

theorem fault_ignored (id : TempId) (loc : Loc) : ∀ j ∈ faultInstrs id loc, classify j = .ignored := by
  simp [faultInstrs, classify]

variable {s : MulStrategy}

theorem guardInstrs_ignored {b : Block} {rest : List Instr} {names : FreshNames}
    (before : ∀ j ∈ b.instrs, classify j = .ignored)
    (sane : ∀ j ∈ rest, ∀ why, classify j ≠ .malformed why) :
    ∀ piece ∈ (guardInstrs s b rest names).1, ∀ j ∈ piece.instrs, classify j = .ignored := by
  induction rest generalizing b names with
  | nil =>
    intro piece member
    rw [List.mem_singleton.mp member]
    exact before
  | cons i rest ih =>
    have later : ∀ j ∈ rest, ∀ why, classify j ≠ .malformed why := fun j member =>
      sane j (List.mem_cons_of_mem _ member)
    cases found : candidate? i with
    | none =>
      rw [guardInstrs_other found]
      refine ih (fun j member => ?_) later
      rcases List.mem_append.mp member with early | last
      · exact before j early
      · rw [List.mem_singleton.mp last]
        exact classify_of_candidate?_none found (sane i List.mem_cons_self)
    | some c =>
      rw [guardInstrs_candidate found]
      intro piece member
      rcases List.mem_cons.mp member with rfl | member
      · intro j inside
        rcases List.mem_append.mp inside with body | last
        · rcases List.mem_append.mp body with early | check
          · exact before j early
          · exact Lowering.ofSteps_ignored (predicate_typed c s).each j check
        · rw [List.mem_singleton.mp last]
          rfl
      · rcases List.mem_cons.mp member with rfl | member
        · exact fault_ignored _ _
        · refine ih (fun j here => ?_) later piece member
          rw [List.mem_singleton.mp here]
          exact classify_marked found

/-! ### Code without candidates is kept -/

theorem guardInstrs_plain {b : Block} {rest : List Instr} {names : FreshNames}
    (plain : ∀ j ∈ rest, candidate? j = none) :
    guardInstrs s b rest names = ([{ b with instrs := b.instrs ++ rest }], names) := by
  induction rest generalizing b with
  | nil => simp [guardInstrs]
  | cons i rest ih =>
    rw [guardInstrs_other (plain i List.mem_cons_self),
      ih fun j member => plain j (List.mem_cons_of_mem _ member), List.append_assoc]
    rfl

theorem guardBlocks_plain {blocks : List Block} {names : FreshNames}
    (plain : ∀ b ∈ blocks, ∀ j ∈ b.instrs, candidate? j = none) :
    guardBlocks s blocks names = (blocks, names) := by
  induction blocks with
  | nil => rfl
  | cons b rest ih =>
    rw [guardBlocks, guardInstrs_plain (plain b List.mem_cons_self)]
    dsimp only
    rw [ih fun t member => plain t (List.mem_cons_of_mem _ member)]
    rfl

/-! ### Counting temporaries -/

theorem guardBlocks_nextTemp (s : MulStrategy) (blocks : List Block) (names : FreshNames) :
    (guardBlocks s blocks names).2.nextTemp =
      names.nextTemp + UInt32.ofNat (guardTemps s (blocks.flatMap Block.instrs)) := by
  induction blocks generalizing names with
  | nil => simp [guardBlocks, guardTemps]
  | cons b rest ih =>
    rw [guardBlocks]
    dsimp only
    rw [ih, guardInstrs_nextTemp, List.flatMap_cons, guardTemps_append, UInt32.ofNat_add]
    exact UInt32.add_assoc ..

/-- The least number above all of the temporaries, in 32 bits, where the greatest counts as none. -/
def above (ids : List TempId) (n : Nat) : Nat :=
  ids.foldl (fun n id => max n (id + 1).toNat) n

theorem above_perm {ids ids' : List TempId} (perm : ids.Perm ids') (n : Nat) :
    above ids n = above ids' n := by
  refine perm.foldl_eq' (fun x _ y _ z => ?_) n
  omega

theorem above_temps {names : FreshNames} {count : Nat} (fits : names.nextTemp.toNat + count < 2 ^ 32) :
    above (names.temps count) names.nextTemp.toNat = names.nextTemp.toNat + count := by
  induction count with
  | zero => rfl
  | succ count ih =>
    have next : (names.nextTemp + UInt32.ofNat count + 1).toNat = names.nextTemp.toNat + count + 1 := by
      rw [UInt32.toNat_add, UInt32.toNat_add, UInt32.toNat_ofNat', UInt32.toNat_one]
      omega
    have before := ih (by omega)
    unfold above FreshNames.temps at before ⊢
    rw [List.range_succ, List.map_append, List.foldl_append, before]
    simp only [List.map_cons, List.map_nil, List.foldl_cons, List.foldl_nil, next]
    omega

theorem toNat_ofFunc_nextTemp (f : Func) :
    (FreshNames.ofFunc f).nextTemp.toNat = above (f.typings.map Prod.fst) 0 := by
  have counted : ∀ (defs : List Def) (n : TempId),
      (defs.foldl (fun next d => max next (d.id + 1)) n).toNat = above (defs.map Def.id) n.toNat := by
    intro defs
    induction defs with
    | nil => intro n; rfl
    | cons d defs ih =>
      intro n
      rw [List.foldl_cons, ih, toNat_max]
      rfl
  rw [← Func.defs_ids]
  exact counted f.defs 0

end GuardedIL.Overflow

namespace GuardedIL

open Overflow

theorem padNames_padNames (names : List String) (count : Nat) :
    padNames (padNames names count) count = padNames names count := by
  unfold padNames
  cases names with
  | nil => rfl
  | cons name rest =>
    simp only [List.isEmpty_cons, Bool.false_eq_true, if_false, List.cons_append, List.length_cons,
      List.length_append, List.length_replicate]
    rw [show count - (rest.length + (count - (rest.length + 1)) + 1) = 0 by omega]
    simp

namespace Func

variable {s : MulStrategy} {f : Func}

/-- The number of temporaries fits 32 bits when the function has its guards. -/
def CountFits (f : Func) (s : MulStrategy) : Prop :=
  (FreshNames.ofFunc f).nextTemp.toNat + guardTemps s f.instrs < 2 ^ 32

instance (f : Func) (s : MulStrategy) : Decidable (f.CountFits s) :=
  inferInstanceAs (Decidable (_ < _))

/-- A guarded function has as many temporaries as the guards have counted. -/
theorem guard_nextTemp (fits : f.CountFits s) :
    (FreshNames.ofFunc (f.guard s)).nextTemp = (guardBlocks s f.blocks (.ofFunc f)).2.nextTemp := by
  obtain ⟨fresh, ids, typings⟩ := f.guard_typings s
  unfold CountFits at fits
  apply UInt32.toNat_inj.mp
  calc (FreshNames.ofFunc (f.guard s)).nextTemp.toNat
      = above ((f.guard s).typings.map Prod.fst) 0 := toNat_ofFunc_nextTemp _
    _ = above (f.typings.map Prod.fst ++ fresh.map Prod.fst) 0 := by
      rw [← List.map_append]
      exact above_perm (typings.map Prod.fst) 0
    _ = above ((FreshNames.ofFunc f).temps (guardTemps s f.instrs)) (FreshNames.ofFunc f).nextTemp.toNat := by
      rw [ids, toNat_ofFunc_nextTemp]
      exact List.foldl_append
    _ = (FreshNames.ofFunc f).nextTemp.toNat + guardTemps s f.instrs := above_temps fits
    _ = (guardBlocks s f.blocks (.ofFunc f)).2.nextTemp.toNat := by
      rw [guardBlocks_nextTemp, UInt32.toNat_add, UInt32.toNat_ofNat']
      change _ = ((FreshNames.ofFunc f).nextTemp.toNat + guardTemps s f.instrs % 2 ^ 32) % 2 ^ 32
      omega

theorem guard_plain (plain : ∀ j ∈ f.instrs, candidate? j = none) :
    f.guard s = { f with valueNames := padNames f.valueNames (FreshNames.ofFunc f).nextTemp.toNat } := by
  have blocks : ∀ b ∈ f.blocks, ∀ j ∈ b.instrs, candidate? j = none := fun b member j inside =>
    plain j (List.mem_flatMap.mpr ⟨b, member, inside⟩)
  rw [Func.guard, guardBlocks_plain blocks]

theorem guard_ignored (sane : ∀ j ∈ f.instrs, ∀ why, classify j ≠ .malformed why) :
    ∀ j ∈ (f.guard s).instrs, classify j = .ignored := by
  intro j member
  obtain ⟨piece, inside, here⟩ := List.mem_flatMap.mp member
  obtain ⟨t, block, start, piece', _⟩ := mem_pieces inside
  refine guardInstrs_ignored (by simp) (fun i original => ?_) piece piece' j here
  exact sane i (List.mem_flatMap.mpr ⟨t, block, original⟩)

theorem guard_guard (sane : ∀ j ∈ f.instrs, ∀ why, classify j ≠ .malformed why)
    (fits : f.valueNames ≠ [] → f.CountFits s) (again : MulStrategy) :
    (f.guard s).guard again = f.guard s := by
  rw [guard_plain fun j member => candidate?_of_ignored (guard_ignored sane j member)]
  by_cases unnamed : f.valueNames = []
  · simp [Func.guard, unnamed, padNames]
  · rw [guard_nextTemp (fits unnamed)]
    have names : (f.guard s).valueNames =
        padNames f.valueNames (guardBlocks s f.blocks (.ofFunc f)).2.nextTemp.toNat := rfl
    rw [names, padNames_padNames, ← names]

end Func

namespace Program

variable {p : Program}

theorem malformedSites_eq_nil :
    p.malformedSites = [] ↔ ∀ i ∈ p.instrs, ∀ why, classify i ≠ .malformed why := by
  simp only [malformedSites, Func.malformedSites, Block.malformedSites, List.flatMap_eq_nil_iff,
    List.filterMap_eq_nil_iff, instrs, Func.instrs, List.mem_flatMap]
  constructor
  · rintro none i ⟨f, func, b, block, member⟩ why verdict
    have site := none f func b block i member
    simp [verdict] at site
  · intro sane f func b block i member
    cases verdict : classify i with
    | malformed why => exact absurd verdict (sane i ⟨f, func, b, block, member⟩ why)
    | _ => rfl

theorem guard_of_ignored (ignored : ∀ i ∈ p.instrs, classify i = .ignored) (o : Options) :
    ∃ g, p.guard o true = .ok g ∧ g.program = { p with funcs := p.funcs.map (Func.guard o.mul) } ∧
      g.stats = { visited := p.instrCount } := by
  have sane : p.malformedSites = [] := malformedSites_eq_nil.mpr fun i member why => by
    rw [ignored i member]
    simp
  have none : p.candidateCount = 0 := List.countP_eq_zero.mpr fun i member => by
    rw [candidate?_of_ignored (ignored i member)]
    simp
  simp only [Program.guard, sane, none, not_true_eq_false, if_false, if_true]
  exact ⟨_, rfl, rfl, rfl⟩

theorem guard_exempt (sane : p.malformedSites = []) (o : Options) :
    ∃ g, p.guard o false = .ok g ∧ g.program = p ∧ g.stats = { exempt := true } := by
  simp [Program.guard, sane]

theorem sane_of_guard {o : Options} {instrument : Bool} {g : Guarded} (ok : p.guard o instrument = .ok g) :
    p.malformedSites = [] := by
  unfold Program.guard at ok
  split at ok
  · simp at ok
  · assumption

theorem guard_instrs_ignored {o : Options} {g : Guarded} (ok : p.guard o true = .ok g) :
    ∀ i ∈ g.program.instrs, classify i = .ignored := by
  have sane := malformedSites_eq_nil.mp (sane_of_guard ok)
  intro i member
  rw [instrs, (guardedBy_of_guard ok).funcs] at member
  obtain ⟨f', func, inside⟩ := List.mem_flatMap.mp member
  obtain ⟨f, original, rfl⟩ := List.mem_map.mp func
  exact Func.guard_ignored (fun j here => sane j (List.mem_flatMap.mpr ⟨f, original, here⟩)) i inside

/-- A second run succeeds, changes nothing and finds nothing to guard, whatever the options of the
two runs. A list of names is lengthened to the number of temporaries, which has to fit its 32 bits. -/
theorem guard_idempotent {p : Program} {o : Options} {instrument : Bool} {g : Guarded}
    (ok : p.guard o instrument = .ok g)
    (fits : instrument = true → ∀ f ∈ p.funcs, f.valueNames ≠ [] → f.CountFits o.mul) (again : Options) :
    ∃ g', g.program.guard again instrument = .ok g' ∧ g'.program = g.program ∧
      g'.stats.instrumented = 0 ∧ g'.stats.unchanged = g'.stats.visited := by
  have sane := sane_of_guard ok
  cases instrument with
  | false =>
    obtain ⟨first, ok', same, _⟩ := guard_exempt sane o
    obtain rfl := Except.ok.inj (ok'.symm.trans ok)
    rw [same]
    obtain ⟨second, ok₂, same₂, stats⟩ := guard_exempt sane again
    exact ⟨second, ok₂, same₂, by rw [stats], by rw [stats]; rfl⟩
  | true =>
    obtain ⟨g', ok', program, stats⟩ := guard_of_ignored (guard_instrs_ignored ok) again
    refine ⟨g', ok', ?_, by rw [stats], by rw [stats]; rfl⟩
    have funcs : g.program.funcs.map (Func.guard again.mul) = g.program.funcs := by
      rw [(guardedBy_of_guard ok).funcs, List.map_map]
      refine List.map_congr_left fun f member => ?_
      refine Func.guard_guard (fun j here => ?_) (fits rfl f member) again.mul
      exact malformedSites_eq_nil.mp sane j (List.mem_flatMap.mpr ⟨f, member, here⟩)
    rw [program, funcs]

/-- The untidy program with a name for one of its temporaries. -/
def untidyNamed : Program :=
  { untidy with funcs := untidy.funcs.map fun f => { f with valueNames := ["x"] } }

theorem guard_idempotent_untidyNamed : ∃ g, untidyNamed.guard {} true = .ok g ∧
    g.stats.instrumented = 3 ∧ g.program.funcs.map (·.valueNames.length) = [26] ∧
    ∃ g', g.program.guard { mul := .backDivision, trace := true } true = .ok g' ∧
      g'.program = g.program ∧ g'.stats.instrumented = 0 ∧ g'.stats.unchanged = g'.stats.visited := by
  have fits : ∀ f ∈ untidyNamed.funcs, f.valueNames ≠ [] → f.CountFits .widen := by decide +kernel
  have first : (untidyNamed.guard {} true).toOption.map (fun g =>
      (g.stats.instrumented, g.program.funcs.map (·.valueNames.length))) = some (3, [26]) := by
    decide +kernel
  cases ok : untidyNamed.guard {} true with
  | error e => simp [ok, Except.toOption] at first
  | ok g =>
    simp only [ok, Except.toOption, Option.map_some, Option.some.injEq, Prod.mk.injEq] at first
    exact ⟨g, rfl, first.1, first.2, guard_idempotent ok (fun _ => fits) { mul := .backDivision, trace := true }⟩

end Program

end GuardedIL

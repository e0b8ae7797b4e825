import GuardedIL.Overflow.Predicate
import GuardedIL.Proofs.Narrowing

/-!
# Schedules compute their expressions

A schedule shares equal subexpressions, so a step may serve several users. `Sound` says what every
step of a partial schedule is worth, and `place` keeps it: the last step of a schedule has the value
of the expression.
-/

namespace GuardedIL.Overflow

/-- The value of an expression on a pair of operands. -/
def Expr.value (l r : Int64) : Expr → Int64
  | left bits => Word.signExtend bits l
  | right bits => Word.signExtend bits r
  | const bits v => Word.signExtend bits v
  | sext _ a => a.value l r
  | zext _ a => a.value l r &&& 1
  | op o bits a b => o.apply bits (a.value l r) (b.value l r)

/-- No quotient in the expression has the divisor zero. -/
def Expr.DividesNonzero (l r : Int64) : Expr → Prop
  | left _ | right _ | const _ _ => True
  | sext _ a | zext _ a => a.DividesNonzero l r
  | op o _ a b => a.DividesNonzero l r ∧ b.DividesNonzero l r ∧ (o = .sdiv → b.value l r ≠ 0)

/-- No quotient is computed with the divisor zero: step number `n` sees the values of the steps
before it. -/
def DivisorsNonzero (steps : List Step) (l r : Int64) : Prop :=
  ∀ (n : Nat) (s : Step), steps[n]? = some s → s.kind = .op .sdiv →
    valueAt (stepValues (steps.take n) l r) s.rhs ≠ 0

/-! ### Values of steps -/

theorem stepValues_snoc (steps : List Step) (s : Step) (l r : Int64) :
    stepValues (steps ++ [s]) l r = (stepValues steps l r).push
      (s.apply (valueAt (stepValues steps l r) s.lhs) (valueAt (stepValues steps l r) s.rhs) l r) := by
  rw [stepValues, List.foldl_append]
  rfl

theorem stepValues_size (steps : List Step) (l r : Int64) :
    (stepValues steps l r).size = steps.length := by
  induction steps using List.reverseRecOn with
  | nil => rfl
  | append_singleton steps s ih => rw [stepValues_snoc, Array.size_push, ih, List.length_append]; rfl

theorem valueAt_of_getElem? {values : Array Int64} {n : Nat} {v : Int64}
    (h : values[n]? = some v) : valueAt values (some n) = v := by
  simp [valueAt, h]

/-- A property of each step and the steps before it. -/
theorem forall_step_snoc {holds : List Step → Step → Prop} {steps : List Step} {s : Step} :
    (∀ (n : Nat) (t : Step), (steps ++ [s])[n]? = some t → holds ((steps ++ [s]).take n) t) ↔
      (∀ (n : Nat) (t : Step), steps[n]? = some t → holds (steps.take n) t) ∧ holds steps s := by
  constructor
  · intro h
    refine ⟨?_, ?_⟩
    · intro n t at_n
      have before : n < steps.length := (List.getElem?_eq_some_iff.mp at_n).1
      have kept := h n t (by rw [List.getElem?_append_left before, at_n])
      rwa [List.take_append_of_le_length before.le] at kept
    · have last := h steps.length s (by simp)
      rwa [List.take_left] at last
  · rintro ⟨first, last⟩ n t at_n
    rcases Nat.lt_or_ge n steps.length with before | after
    · rw [List.take_append_of_le_length before.le]
      exact first n t (by rwa [List.getElem?_append_left before] at at_n)
    · have position : n = steps.length := by
        have := (List.getElem?_eq_some_iff.mp at_n).1
        simp only [List.length_append, List.length_singleton] at this
        omega
      subst position
      have same : t = s := by simpa using at_n.symm
      subst same
      rwa [List.take_left]

theorem divisorsNonzero_snoc {steps : List Step} {s : Step} {l r : Int64} :
    DivisorsNonzero (steps ++ [s]) l r ↔ DivisorsNonzero steps l r ∧
      (s.kind = .op .sdiv → valueAt (stepValues steps l r) s.rhs ≠ 0) :=
  @forall_step_snoc
    (fun before t => t.kind = .op .sdiv → valueAt (stepValues before l r) t.rhs ≠ 0) steps s

/-! ### Placing an expression -/

/-- Every step placed so far has the value of its expression. -/
structure Sound (l r : Int64) (placed : List (Expr × Step)) : Prop where
  values : ∀ (n : Nat) (e : Expr) (s : Step), placed[n]? = some (e, s) →
    (stepValues (placed.map (·.2)) l r)[n]? = some (e.value l r)
  divisors : DivisorsNonzero (placed.map (·.2)) l r

theorem sound_nil (l r : Int64) : Sound l r [] :=
  ⟨by simp, by simp [DivisorsNonzero]⟩

theorem Sound.snoc {l r : Int64} {placed : List (Expr × Step)} {e : Expr} {s : Step}
    (sound : Sound l r placed)
    (value : s.apply (valueAt (stepValues (placed.map (·.2)) l r) s.lhs)
      (valueAt (stepValues (placed.map (·.2)) l r) s.rhs) l r = e.value l r)
    (divisor : s.kind = .op .sdiv → valueAt (stepValues (placed.map (·.2)) l r) s.rhs ≠ 0) :
    Sound l r (placed ++ [(e, s)]) := by
  refine ⟨?_, ?_⟩
  · intro n e' s' at_n
    rw [List.map_append, List.map_singleton, stepValues_snoc, value]
    rcases Nat.lt_or_ge n placed.length with before | after
    · rw [List.getElem?_append_left before] at at_n
      rw [Array.getElem?_push_lt (by simpa [stepValues_size] using before),
        ← Array.getElem?_eq_getElem]
      exact sound.values n e' s' at_n
    · have position : n = placed.length := by
        have := (List.getElem?_eq_some_iff.mp at_n).1
        simp only [List.length_append, List.length_singleton] at this
        omega
      subst position
      have same : (e', s') = (e, s) := by simpa using at_n.symm
      obtain ⟨rfl, rfl⟩ := Prod.mk.inj same
      rw [Array.getElem?_push, if_pos (by rw [stepValues_size, List.length_map])]
  · rw [List.map_append, List.map_singleton]
    exact divisorsNonzero_snoc.mpr ⟨sound.divisors, divisor⟩

theorem Sound.valueAt {l r : Int64} {placed : List (Expr × Step)} {n : Nat} {e : Expr} {s : Step}
    (sound : Sound l r placed) (at_n : placed[n]? = some (e, s)) :
    valueAt (stepValues (placed.map (·.2)) l r) (some n) = e.value l r :=
  valueAt_of_getElem? (sound.values n e s at_n)

/-- The result of placing `e`: what was there is kept, and step number `n` is that of `e`. -/
structure Placed (l r : Int64) (e : Expr) (placed placed' : List (Expr × Step)) (n : Nat) :
    Prop where
  kept : placed <+: placed'
  sound : Sound l r placed'
  found : ∃ s, placed'[n]? = some (e, s)

theorem Placed.already {l r : Int64} {e : Expr} {placed : List (Expr × Step)} {n : Nat}
    (sound : Sound l r placed) (found : placed.findIdx? (·.1 = e) = some n) :
    Placed l r e placed placed n := by
  obtain ⟨inside, same, _⟩ := List.findIdx?_eq_some_iff_getElem.mp found
  refine ⟨List.prefix_rfl, sound, placed[n].2, ?_⟩
  rw [List.getElem?_eq_getElem inside, ← of_decide_eq_true same]

theorem Placed.snoc {l r : Int64} {e : Expr} {placed before : List (Expr × Step)} {s : Step}
    (kept : placed <+: before) (sound : Sound l r (before ++ [(e, s)])) :
    Placed l r e placed (before ++ [(e, s)]) before.length :=
  ⟨kept.trans (List.prefix_append _ _), sound, s, List.getElem?_concat_length⟩

theorem place_sound {l r : Int64} (e : Expr) {placed : List (Expr × Step)}
    (sound : Sound l r placed) (safe : e.DividesNonzero l r) :
    Placed l r e placed (e.place placed).2 (e.place placed).1 := by
  induction e generalizing placed with
  | left bits | right bits | const bits v =>
    unfold Expr.place
    split
    · exact Placed.already sound ‹_›
    · exact Placed.snoc List.prefix_rfl (sound.snoc rfl (by simp))
  | sext bits a ih | zext bits a ih =>
    unfold Expr.place
    split
    · exact Placed.already sound ‹_›
    · obtain ⟨kept, soundA, s, at_a⟩ := ih sound safe
      refine Placed.snoc kept (soundA.snoc ?_ (by simp))
      simp only [Step.apply, Expr.value, soundA.valueAt at_a]
  | op o bits a b ihA ihB =>
    unfold Expr.place
    split
    · exact Placed.already sound ‹_›
    · obtain ⟨safeA, safeB, divisor⟩ := safe
      obtain ⟨keptA, soundA, s, at_a⟩ := ihA sound safeA
      obtain ⟨keptB, soundB, t, at_b⟩ := ihB soundA safeB
      -- The step of `a` is still there once `b` is placed.
      have at_a' : (b.place (a.place placed).2).2[(a.place placed).1]? = some (a, s) := by
        have inside := (List.getElem?_eq_some_iff.mp at_a).1
        rw [← at_a, List.getElem?_eq_getElem inside, keptB.getElem inside]
        exact List.getElem?_eq_getElem _
      refine Placed.snoc (keptA.trans keptB) (soundB.snoc ?_ ?_)
      · simp only [Step.apply, Expr.value, soundB.valueAt at_a', soundB.valueAt at_b]
      · intro quotient
        rw [soundB.valueAt at_b]
        exact divisor (by simpa using quotient)

/-- An expression that is new comes last. -/
theorem place_new (e : Expr) {placed : List (Expr × Step)}
    (new : placed.findIdx? (·.1 = e) = none) :
    ∃ before s, (e.place placed).2 = before ++ [(e, s)] := by
  cases e <;> (unfold Expr.place; simp only [new]; exact ⟨_, _, rfl⟩)

/-- The last step of a schedule has the value of its expression, and no quotient on the way is by
zero if none in the expression is. -/
theorem schedule_sound {l r : Int64} (e : Expr) (safe : e.DividesNonzero l r) :
    (stepValues e.schedule l r).back? = some (e.value l r) ∧ DivisorsNonzero e.schedule l r := by
  obtain ⟨_, sound, _⟩ := place_sound e (sound_nil l r) safe
  obtain ⟨before, s, last⟩ := @place_new e [] rfl
  refine ⟨?_, sound.divisors⟩
  have value := sound.values before.length e s (by rw [last]; simp)
  rw [Array.back?_eq_getElem?, stepValues_size, Expr.schedule]
  rwa [show ((e.place []).2.map (·.2)).length - 1 = before.length by rw [last]; simp]

end GuardedIL.Overflow

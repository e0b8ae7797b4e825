import GuardedIL.Machine.Step
import Mathlib

/-!
# Runs

Machines that differ in one step share what follows from repeating it. `iterate` repeats any step
function up to a bound, and `after` is the configuration that a run has reached.
-/

namespace GuardedIL.Machine

variable {σ : Type}

/-- The outcome of at most `bound` steps. -/
def iterate (next : Config σ → Step σ) : (bound : Nat) → Config σ → Option (Outcome × σ)
  | 0, _ => none
  | bound + 1, c =>
    match next c with
    | .next c => iterate next bound c
    | .halt o state => some (o, state)

/-- The configuration after `n` steps, if the run has not ended by then. -/
def after (next : Config σ → Step σ) : (n : Nat) → Config σ → Option (Config σ)
  | 0, c => some c
  | n + 1, c =>
    match next c with
    | .next c => after next n c
    | .halt _ _ => none

theorem runFrom_eq_iterate (p : Program) (host : Host σ) (bound : Nat) (c : Config σ) :
    runFrom p host bound c = iterate (step p host) bound c := by
  induction bound generalizing c with
  | zero => rfl
  | succ bound ih =>
    rw [runFrom, iterate]
    cases step p host c with
    | next d => exact ih d
    | halt o state => rfl

variable {next : Config σ → Step σ} {c d e : Config σ} {m n bound : Nat}

theorem after_one (moves : next c = .next d) : after next 1 c = some d := by
  simp [after, moves]

theorem next_of_after (reached : after next 1 c = some d) : next c = .next d := by
  cases moves : next c with
  | next e => simpa [after, moves] using reached
  | halt o state => simp [after, moves] at reached

theorem after_add (first : after next m c = some d) (second : after next n d = some e) :
    after next (m + n) c = some e := by
  induction m generalizing c with
  | zero =>
    obtain rfl := Option.some.inj first
    rwa [Nat.zero_add]
  | succ m ih =>
    rw [Nat.succ_add, after]
    rw [after] at first
    cases moves : next c with
    | next c' =>
      rw [moves] at first
      exact ih first
    | halt o state => simp [moves] at first

theorem after_split (reached : after next (m + n) c = some e) :
    ∃ d, after next m c = some d ∧ after next n d = some e := by
  induction m generalizing c with
  | zero => exact ⟨c, rfl, by rwa [Nat.zero_add] at reached⟩
  | succ m ih =>
    rw [Nat.succ_add, after] at reached
    rw [after]
    cases moves : next c with
    | next c' =>
      rw [moves] at reached
      exact ih reached
    | halt o state => simp [moves] at reached

theorem iterate_after (reached : after next n c = some d) :
    iterate next (n + bound) c = iterate next bound d := by
  induction n generalizing c with
  | zero =>
    obtain rfl := Option.some.inj reached
    rw [Nat.zero_add]
  | succ n ih =>
    rw [Nat.succ_add, iterate]
    rw [after] at reached
    cases moves : next c with
    | next c' =>
      rw [moves] at reached
      exact ih reached
    | halt o state => simp [moves] at reached

/-- A run that ends has taken more steps than any configuration on its way. -/
theorem lt_of_iterate {result : Outcome × σ} (ends : iterate next bound c = some result)
    (reached : after next n c = some d) : n < bound := by
  by_contra short
  obtain ⟨k, rfl⟩ : ∃ k, n = bound + k := ⟨n - bound, by omega⟩
  induction bound generalizing c with
  | zero => simp [iterate] at ends
  | succ bound ih =>
    rw [iterate] at ends
    rw [Nat.succ_add, after] at reached
    cases moves : next c with
    | next c' =>
      rw [moves] at ends reached
      exact ih ends reached (by omega)
    | halt o state => simp [moves] at reached

theorem iterate_unique {result result' : Outcome × σ} (one : iterate next m c = some result)
    (two : iterate next n c = some result') : result = result' := by
  induction m generalizing c n with
  | zero => simp [iterate] at one
  | succ m ih =>
    cases n with
    | zero => simp [iterate] at two
    | succ n =>
      rw [iterate] at one two
      cases moves : next c with
      | next c' =>
        rw [moves] at one two
        exact ih one two
      | halt o state =>
        rw [moves] at one two
        exact Option.some.inj (one.symm.trans two)

/-- A run ends in one way only, whatever bound it is given. -/
theorem run_unique {p : Program} {host : Host σ} {name : String} {args : List Value} {state : σ}
    {result result' : Outcome × σ} (one : run p host m name args state = some result)
    (two : run p host n name args state = some result') : result = result' := by
  unfold run at one two
  cases starts : start p name args state with
  | error cause =>
    rw [starts] at one two
    exact Option.some.inj (one.symm.trans two)
  | ok c =>
    simp only [starts, runFrom_eq_iterate] at one two
    exact iterate_unique one two

/-- What every step keeps holds of every configuration on the way. -/
theorem after_invariant {holds : Config σ → Prop}
    (preserved : ∀ c d, holds c → next c = .next d → holds d) (initially : holds c)
    (reached : after next n c = some d) : holds d := by
  induction n generalizing c with
  | zero =>
    obtain rfl := Option.some.inj reached
    exact initially
  | succ n ih =>
    rw [after] at reached
    cases moves : next c with
    | next c' =>
      rw [moves] at reached
      exact ih (preserved c c' initially moves) reached
    | halt o state => simp [moves] at reached

/-- From `c` on, everything is `good` for some steps, and what `holds` at their end is known. -/
def Segment (next : Config σ → Step σ) (holds good : Config σ → Prop) (c : Config σ) : Prop :=
  ∃ n, (∀ m ≤ n, ∀ d, after next m c = some d → good d) ∧ ∀ d, after next (n + 1) c = some d → holds d

theorem Segment.single {holds good : Config σ → Prop} (here : good c)
    (later : ∀ d, next c = .next d → holds d) : Segment next holds good c := by
  refine ⟨0, fun m none d reached => ?_, fun d reached => later d (next_of_after reached)⟩
  obtain rfl := Nat.le_zero.mp none
  obtain rfl := Option.some.inj reached
  exact here

/-- What is good in each segment of a run is so on the whole way. -/
theorem after_segments {holds good : Config σ → Prop}
    (segment : ∀ c, holds c → Segment next holds good c) (initially : holds c)
    (reached : after next m c = some d) : good d := by
  induction m using Nat.strong_induction_on generalizing c with
  | _ m ih =>
    obtain ⟨n, within, beyond⟩ := segment c initially
    by_cases short : m ≤ n
    · exact within m short d reached
    · obtain ⟨rest, rfl⟩ : ∃ rest, m = n + 1 + rest := ⟨m - (n + 1), by omega⟩
      obtain ⟨c', first, later⟩ := after_split reached
      exact ih rest (by omega) (beyond c' first) later

/-- A run that ends has a last configuration. -/
theorem exists_halt {o : Outcome} {state : σ} (ends : iterate next bound c = some (o, state)) :
    ∃ n d, after next n c = some d ∧ next d = .halt o state := by
  induction bound generalizing c with
  | zero => simp [iterate] at ends
  | succ bound ih =>
    rw [iterate] at ends
    cases moves : next c with
    | next c' =>
      rw [moves] at ends
      obtain ⟨n, d, reached, halts⟩ := ih ends
      exact ⟨n + 1, d, by simpa [after, moves] using reached, halts⟩
    | halt o' state' =>
      rw [moves] at ends
      obtain ⟨rfl, rfl⟩ := Prod.mk.inj (Option.some.inj ends)
      exact ⟨0, c, rfl, moves⟩

/-! ### Simulations -/

section Simulation

variable {next' : Config σ → Step σ} {related : Config σ → Config σ → Prop}
  {agrees : Outcome → Outcome → Prop}

/-- The machine `next'` answers a step of another machine from `c'`: it reaches a related
configuration in one or more steps, or it ends too. -/
def Answers (next' : Config σ → Step σ) (related : Config σ → Config σ → Prop)
    (agrees : Outcome → Outcome → Prop) (c' : Config σ) : Step σ → Prop
  | .next d => ∃ n d', after next' (n + 1) c' = some d' ∧ related d d'
  | .halt o state => ∃ n o', iterate next' n c' = some (o', state) ∧ agrees o o'

theorem Answers.of_after {c' d' : Config σ} {moved : Step σ} (reached : after next' n c' = some d')
    (answers : Answers next' related agrees d' moved) : Answers next' related agrees c' moved := by
  cases moved with
  | next d =>
    obtain ⟨m, e', later, still⟩ := answers
    refine ⟨n + m, e', ?_, still⟩
    rw [Nat.add_assoc]
    exact after_add reached later
  | halt o state =>
    obtain ⟨m, o', ends, agree⟩ := answers
    exact ⟨n + m, o', by rw [iterate_after reached, ends], agree⟩

variable (simulates : ∀ c c', related c c' → Answers next' related agrees c' (next c))
include simulates

theorem iterate_forward {c' : Config σ} {o : Outcome} {state : σ} (start : related c c')
    (ends : iterate next bound c = some (o, state)) :
    ∃ bound' o', iterate next' bound' c' = some (o', state) ∧ agrees o o' := by
  induction bound generalizing c c' with
  | zero => simp [iterate] at ends
  | succ bound ih =>
    have answer := simulates c c' start
    rw [iterate] at ends
    cases moves : next c with
    | next d =>
      rw [moves] at ends answer
      obtain ⟨n, d', reached, still⟩ := answer
      obtain ⟨bound', o', ends', agree⟩ := ih still ends
      exact ⟨n + 1 + bound', o', by rw [iterate_after reached, ends'], agree⟩
    | halt o₁ state₁ =>
      rw [moves] at ends answer
      obtain ⟨rfl, rfl⟩ := Prod.mk.inj (Option.some.inj ends)
      exact answer

theorem iterate_backward {c' : Config σ} {o' : Outcome} {state : σ} (start : related c c')
    (ends : iterate next' bound c' = some (o', state)) :
    ∃ bound' o, iterate next bound' c = some (o, state) ∧ agrees o o' := by
  -- One step of `next` may take `next'` many, so the induction must go down by more than one.
  induction bound using Nat.strong_induction_on generalizing c c' with
  | _ bound ih =>
    have answer := simulates c c' start
    cases moves : next c with
    | next d =>
      rw [moves] at answer
      obtain ⟨n, d', reached, still⟩ := answer
      have fewer := lt_of_iterate ends reached
      obtain ⟨rest, rfl⟩ : ∃ rest, bound = n + 1 + rest := ⟨bound - (n + 1), by omega⟩
      rw [iterate_after reached] at ends
      obtain ⟨bound', o, ends', agree⟩ := ih rest (by omega) still ends
      exact ⟨bound' + 1, o, by simp only [iterate, moves, ends'], agree⟩
    | halt o state₁ =>
      rw [moves] at answer
      obtain ⟨n, o₁, ends', agree⟩ := answer
      obtain ⟨rfl, rfl⟩ := Prod.mk.inj (iterate_unique ends' ends)
      exact ⟨1, o, by simp only [iterate, moves], agree⟩

end Simulation

/-! ### Runs side by side -/

section Meeting

variable {next' : Config σ → Step σ} {related : Config σ → Config σ → Prop} {c' d' : Config σ}
  {n' : Nat}

/-- Two runs come to related configurations in one or more steps each, or they end with the same
result. -/
def Meets (next next' : Config σ → Step σ) (related : Config σ → Config σ → Prop)
    (c c' : Config σ) : Prop :=
  (∃ n n' d d', after next (n + 1) c = some d ∧ after next' (n' + 1) c' = some d' ∧ related d d') ∨
    ∃ n n' result, iterate next n c = some result ∧ iterate next' n' c' = some result

theorem Meets.of_after (reached : after next n c = some d) (reached' : after next' n' c' = some d')
    (meets : Meets next next' related d d') : Meets next next' related c c' := by
  rcases meets with ⟨m, m', e, e', later, later', still⟩ | ⟨m, m', result, ends, ends'⟩
  · refine .inl ⟨n + m, n' + m', e, e', ?_, ?_, still⟩
    · rw [Nat.add_assoc]
      exact after_add reached later
    · rw [Nat.add_assoc]
      exact after_add reached' later'
  · exact .inr ⟨n + m, n' + m', result, by rw [iterate_after reached, ends],
      by rw [iterate_after reached', ends']⟩

theorem Meets.symm (meets : Meets next next' related c c') :
    Meets next' next (fun c' c => related c c') c' c := by
  rcases meets with ⟨m, m', e, e', later, later', still⟩ | ⟨m, m', result, ends, ends'⟩
  · exact .inl ⟨m', m, e', e, later', later, still⟩
  · exact .inr ⟨m', m, result, ends', ends⟩

theorem iterate_of_meets (meets : ∀ c c', related c c' → Meets next next' related c c')
    {result : Outcome × σ} (start : related c c') (ends : iterate next bound c = some result) :
    ∃ bound', iterate next' bound' c' = some result := by
  induction bound using Nat.strong_induction_on generalizing c c' with
  | _ bound ih =>
    rcases meets c c' start with
      ⟨n, n', d, d', reached, reached', still⟩ | ⟨n, n', result', halts, halts'⟩
    · have fewer := lt_of_iterate ends reached
      obtain ⟨rest, rfl⟩ : ∃ rest, bound = n + 1 + rest := ⟨bound - (n + 1), by omega⟩
      rw [iterate_after reached] at ends
      obtain ⟨bound', ends'⟩ := ih rest (by omega) still ends
      exact ⟨n' + 1 + bound', by rw [iterate_after reached', ends']⟩
    · obtain rfl := iterate_unique halts ends
      exact ⟨n', halts'⟩

/-- Runs that always meet again both never end, or both end with the same result. -/
theorem same_end_of_meets (meets : ∀ c c', related c c' → Meets next next' related c c')
    (start : related c c') :
    (∀ bound, iterate next bound c = none ∧ iterate next' bound c' = none) ∨
      ∃ bound bound' result, iterate next bound c = some result ∧
        iterate next' bound' c' = some result := by
  by_cases ends : ∃ bound, iterate next bound c ≠ none
  · obtain ⟨bound, ends⟩ := ends
    obtain ⟨result, ends⟩ := Option.ne_none_iff_exists'.mp ends
    obtain ⟨bound', ends'⟩ := iterate_of_meets meets start ends
    exact .inr ⟨bound, bound', result, ends, ends'⟩
  · push Not at ends
    refine .inl fun bound => ⟨ends bound, ?_⟩
    by_contra ends'
    obtain ⟨result, ends'⟩ := Option.ne_none_iff_exists'.mp ends'
    obtain ⟨bound', also⟩ := iterate_of_meets (fun c' c rel => (meets c c' rel).symm) start ends'
    rw [ends bound'] at also
    exact absurd also (by simp)

end Meeting

end GuardedIL.Machine

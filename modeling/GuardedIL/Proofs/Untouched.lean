import GuardedIL.Proofs.Refusal

/-!
# Programs without candidates

Where there is nothing to guard, guarding still lengthens lists of value names that do not reach the last
temporary, and touches nothing else. The pass says that it preserves every analysis then. That is so for
analyses that do not tell a lengthened list from the one before.
-/

namespace GuardedIL

open Overflow

theorem padNames_eq_self {names : List String} {count : Nat} :
    padNames names count = names ↔ names = [] ∨ count ≤ names.length := by
  unfold padNames
  cases names with
  | nil => simp
  | cons name rest => simp [Nat.sub_eq_zero_iff_le]

theorem Overflow.above_le {ids : List TempId} {n bound : Nat} :
    above ids n ≤ bound ↔ n ≤ bound ∧ ∀ id ∈ ids, (id + 1).toNat ≤ bound := by
  unfold above
  induction ids generalizing n with
  | nil => simp
  | cons id rest ih =>
    rw [List.foldl_cons, ih, List.forall_mem_cons, Nat.max_le, and_assoc]

namespace Func

/-- The function with a name for each of its temporaries, unless it has no names. -/
def padded (f : Func) : Func :=
  { f with valueNames := padNames f.valueNames (FreshNames.ofFunc f).nextTemp.toNat }

/-- The names are none at all, or reach every temporary, where the greatest possible counts as none. -/
def NamesReach (f : Func) : Prop :=
  f.valueNames = [] ∨ ∀ d ∈ f.defs, (d.id + 1).toNat ≤ f.valueNames.length

instance (f : Func) : Decidable f.NamesReach :=
  inferInstanceAs (Decidable (_ ∨ _))

theorem padded_eq_self {f : Func} : f.padded = f ↔ f.NamesReach := by
  have same : f.padded = f ↔ padNames f.valueNames (FreshNames.ofFunc f).nextTemp.toNat = f.valueNames := by
    constructor
    · intro same
      exact congrArg Func.valueNames same
    · intro same
      rw [padded, same]
  rw [same, padNames_eq_self, toNat_ofFunc_nextTemp, above_le, ← defs_ids]
  simp [NamesReach]

end Func

namespace Program

variable {p : Program} {o : Options} {instrument : Bool} {g : Guarded}

def padded (p : Program) : Program :=
  { p with funcs := p.funcs.map Func.padded }

theorem padded_eq_self : p.padded = p ↔ ∀ f ∈ p.funcs, f.NamesReach := by
  have same : p.padded = p ↔ p.funcs.map Func.padded = p.funcs := by
    constructor
    · intro same
      exact congrArg Program.funcs same
    · intro same
      rw [padded, same]
  rw [same]
  nth_rewrite 2 [← List.map_id p.funcs]
  simp only [List.map_inj_left, id, Func.padded_eq_self]

theorem guard_without_candidates (none : p.candidateCount = 0) (ok : p.guard o true = .ok g) :
    g.program = p.padded := by
  -- No candidate anywhere, so nothing is declared and every block stays whole; the names remain.
  have plain : ∀ f ∈ p.funcs, ∀ j ∈ f.instrs, candidate? j = .none := by
    intro f func j member
    have uncounted := List.countP_eq_zero.mp none j (List.mem_flatMap.mpr ⟨f, func, member⟩)
    simpa using uncounted
  have funcs : p.funcs.map (Func.guard o.mul) = p.funcs.map Func.padded :=
    List.map_congr_left fun f func => Func.guard_plain (plain f func)
  simp only [Program.guard, sane_of_guard ok, none, not_true_eq_false, if_false, if_true] at ok
  rw [← Except.ok.inj ok, padded, ← funcs]

theorem guard_nothing (ok : p.guard o instrument = .ok g) (none : g.stats.instrumented = 0) :
    g.program = if instrument then p.padded else p := by
  cases instrument with
  | true =>
    rw [guard_stats ok] at none
    exact guard_without_candidates none ok
  | false =>
    obtain ⟨g', ok', same, _⟩ := guard_exempt (sane_of_guard ok) o
    obtain rfl := Except.ok.inj (ok'.symm.trans ok)
    exact same

end Program

namespace Pipeline

variable {σ : Type} {m : Setup Fact σ} {o : Options} {g : Guarded} {s s' : State Fact σ}

theorem Setup.runScript_finished {pass : String} {script : Script Fact σ} {preserved : Preserved}
    (run : script.run m.analyses (m.enter pass s) = (.ok preserved, s')) :
    (m.runScript pass script s).2.program = s'.program ∧
      (m.runScript pass script s).2.cache = s'.cache.invalidate preserved := by
  rw [Setup.runScript_eq, run]
  exact ⟨by simp, by simp⟩

theorem Setup.fetch_enter_cache (m : Setup Fact σ) (pass : String) (s : State Fact σ)
    (analyses : Analyses Fact) (analysis : String) :
    ((m.enter pass s).fetch analyses analysis).2.cache = (s.fetch analyses analysis).2.cache := by
  unfold State.fetch
  rw [Setup.enter_cache, Setup.enter_program]
  split
  · exact Setup.enter_cache ..
  · split
    · exact Setup.enter_cache ..
    · rfl

theorem Cache.Accurate.moved_iff {cache : Cache Fact} {analyses : Analyses Fact} {p p' : Program}
    (accurate : cache.Accurate analyses p) : cache.Accurate analyses p' ↔
      ∀ entry ∈ cache, analyses.factOf entry.1 p' = analyses.factOf entry.1 p := by
  constructor
  · rintro still ⟨analysis, fact⟩ member
    rw [still analysis fact member, accurate analysis fact member]
  · intro same analysis fact member
    rw [same (analysis, fact) member, accurate analysis fact member]

/-- A pass that guards nothing keeps the whole cache, with the fact that it has fetched. -/
theorem overflowPass_nothing (m : Setup Fact σ) (ok : s.program.guard o (instruments o s) = .ok g)
    (none : g.stats.instrumented = 0) :
    let ended := ((m.addOverflowPass o).runPasses [overflowPassName] s).2
    ended.program = g.program ∧
      ended.cache = (s.fetch (m.addOverflowPass o).analyses exemptionAnalysis).2.cache := by
  have run := overflowScript_run m o ((m.addOverflowPass o).enter overflowPassName s)
  dsimp only at run ⊢
  rw [instruments_enter, Setup.enter_program, if_neg (not_not.mpr (Program.sane_of_guard ok)), ok] at run
  dsimp only at run
  rw [if_pos none] at run
  obtain ⟨program, cache⟩ := Setup.runScript_finished run
  rw [runPasses_overflow, program, cache]
  exact ⟨rfl, Setup.fetch_enter_cache ..⟩

/-- A run that guards nothing changes nothing but lists of value names: if the program is to be guarded, those
that do not reach every temporary are lengthened. The pass says then that it preserves every analysis and keeps
all that is cached. If that was right before, it is right behind the pass exactly if each cached analysis finds
the same in the program with lengthened lists. -/
theorem guard_nothing_pads_names {p : Program} {o : Options} {instrument : Bool} {g : Guarded}
    (ok : p.guard o instrument = .ok g) (none : g.stats.instrumented = 0) :
    g.program = (if instrument then p.padded else p) ∧
    (g.program = p ↔ (instrument = true → ∀ f ∈ p.funcs, f.NamesReach)) ∧
    ∀ {σ : Type} (m : Setup Fact σ) (s : State Fact σ), s.program = p → instruments o s = instrument →
      let analyses := (m.addOverflowPass o).analyses
      let ended := ((m.addOverflowPass o).runPasses [overflowPassName] s).2
      ((overflowScript o).run analyses s).1 = .ok .everything ∧
      ended.program = g.program ∧ s.cache ⊆ ended.cache ∧
      (s.cache.Accurate analyses p → (ended.cache.Accurate analyses ended.program ↔
        ∀ entry ∈ ended.cache, analyses.factOf entry.1 g.program = analyses.factOf entry.1 p)) := by
  have program := Program.guard_nothing ok none
  refine ⟨program, ?_, fun m s same decided => ?_⟩
  · rw [program]
    cases instrument with
    | true => simp [Program.padded_eq_self]
    | false => simp
  · subst same decided
    obtain ⟨left, kept⟩ := overflowPass_nothing m ok none
    refine ⟨?_, left, ?_, fun accurate => ?_⟩
    · rw [overflowScript_run, if_neg (not_not.mpr (Program.sane_of_guard ok)), ok]
      simp [none]
    · rw [kept]
      exact s.cache_subset_fetch _ _
    · rw [left, kept]
      exact (fetch_accurate accurate exemptionAnalysis).2.moved_iff

/-- A function of two parameters, with these names for its temporaries. -/
def twoParams (names : List String) : Program where
  funcs := [{
    name := "first", ret := .i64, valueNames := names
    params := [{ name := "x", ty := .i64, id := 0 }, { name := "y", ty := .i64, id := 1 }]
    blocks := [{ label := "entry", instrs := [{ op := .ret, args := [.temp 0] }], terminated := true }] }]

/-- Counts the names of temporaries. -/
def countingSetup : Setup Fact Unit :=
  (Setup.addAnalysis {} "names" fun p => .number (p.funcs.flatMap Func.valueNames).length).addPass "count"
    (.fetch "names" fun _ => .finish .everything)

theorem guard_nothing_pads_names_twoParams :
    let p := twoParams ["x", "y"]
    let s : State Fact Unit := { program := p, cache := [("names", .number 2)], host := () }
    let analyses := (countingSetup.addOverflowPass {}).analyses
    let ended := ((countingSetup.addOverflowPass {}).runPasses [overflowPassName] s).2
    (∃ g, p.guard {} true = .ok g ∧ g.stats.instrumented = 0 ∧ g.program = p) ∧
    ended.cache = [(exemptionAnalysis, .answer true), ("names", .number 2)] ∧
    ended.cache.Accurate analyses ended.program := by
  have ok : (twoParams ["x", "y"]).guard {} true =
      .ok { program := twoParams ["x", "y"], stats := { visited := 1 }, trace := "" } := by decide +kernel
  obtain ⟨_, unchanged, pass⟩ := guard_nothing_pads_names ok rfl
  obtain ⟨_, _, _, accurate⟩ := pass countingSetup
    { program := twoParams ["x", "y"], cache := [("names", .number 2)], host := () } rfl (by decide +kernel)
  refine ⟨⟨_, ok, rfl, unchanged.mpr (by decide +kernel)⟩, by decide +kernel, (accurate ?_).mpr (by simp)⟩
  intro analysis fact member
  obtain ⟨rfl, rfl⟩ : analysis = "names" ∧ fact = .number 2 := by simpa using member
  rfl

/-- Names that reach only the first of two temporaries are lengthened, though nothing is guarded. The number
of names that the pass hands on is wrong then. -/
theorem short_names_lengthened :
    let p := twoParams ["x"]
    let m := countingSetup.addOverflowPass {}
    let ended := m.run ["count", overflowPassName] p ()
    (∃ g, p.guard {} true = .ok g ∧ g.stats.instrumented = 0 ∧ g.program ≠ p) ∧
    ended.1 = .ok () ∧ ended.2.cache.lookup "names" = some (.number 1) ∧
    m.analyses.factOf "names" ended.2.program = some (.number 2) :=
  ⟨⟨{ program := twoParams ["x", ""], stats := { visited := 1 }, trace := "" }, by decide +kernel, rfl,
    by decide⟩, by decide +kernel, by decide +kernel, by decide +kernel⟩

end Pipeline

end GuardedIL

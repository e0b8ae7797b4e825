import GuardedIL.Pipeline.Setup
import Mathlib

/-!
# Caching

Facts about a program are kept from one pass to the next as long as passes preserve them. Passes that are
honest about what they preserve see no difference to a pipeline that computes every fact anew at every request,
as long as they neither change a fact where it is kept nor act on the number of computations. Honesty alone is
not enough (`honest_passes_see_cache`).
-/

namespace GuardedIL.Pipeline

variable {ρ σ : Type}

section Fetch

variable (s : State ρ σ) (analyses : Analyses ρ) (analysis : String)

/-- Fetching adds a fact to the cache or leaves everything as it is. -/
theorem State.fetch_cases : (s.fetch analyses analysis).2 = s ∨ ∃ fact, (s.fetch analyses analysis).2 =
    { s with cache := (analysis, fact) :: s.cache, computed := s.computed + 1 } := by
  unfold State.fetch
  split
  · exact .inl rfl
  · split
    · exact .inl rfl
    · exact .inr ⟨_, rfl⟩

@[simp]
theorem State.fetch_program : (s.fetch analyses analysis).2.program = s.program := by
  rcases s.fetch_cases analyses analysis with same | ⟨fact, same⟩ <;> rw [same]

@[simp]
theorem State.fetch_log : (s.fetch analyses analysis).2.log = s.log := by
  rcases s.fetch_cases analyses analysis with same | ⟨fact, same⟩ <;> rw [same]

@[simp]
theorem State.fetch_host : (s.fetch analyses analysis).2.host = s.host := by
  rcases s.fetch_cases analyses analysis with same | ⟨fact, same⟩ <;> rw [same]

theorem State.cache_subset_fetch : s.cache ⊆ (s.fetch analyses analysis).2.cache := by
  rcases s.fetch_cases analyses analysis with same | ⟨fact, same⟩ <;> rw [same]
  · exact List.Subset.refl _
  · exact List.subset_cons_self _ _

end Fetch

/-! ### Serving requests -/

def Analyses.factOf (analyses : Analyses ρ) (analysis : String) (p : Program) : Option ρ :=
  (analyses.lookup analysis).map (· p)

/-- A fact that was handed out, with the program at that time and whether the pass had edited it before. -/
structure Fetched (ρ : Type) where
  analysis : String
  program : Program
  edited : Bool
  fact : Option ρ

/-- How a pipeline answers a request for the fact of an analysis. -/
abbrev Service (ρ σ : Type) := State ρ σ → String → Option ρ × State ρ σ

def caching (analyses : Analyses ρ) : Service ρ σ := fun s analysis =>
  s.fetch analyses analysis

def recomputing (analyses : Analyses ρ) : Service ρ σ := fun s analysis =>
  (analyses.factOf analysis s.program, { s with computed := s.computed + 1 })

structure Served (ρ σ ε α : Type) where
  result : Except ε α
  state : State ρ σ
  fetched : List (Fetched ρ) := []

namespace Script

/-- Runs a script with any service and notes the facts it fetches. -/
def serve (analyses : Analyses ρ) (service : Service ρ σ) :
    Script ρ σ → (edited : Bool) → State ρ σ → Served ρ σ String Preserved
  | inspect next, edited, s => (next s.program).serve analyses service edited s
  | edit change next, _, s => next.serve analyses service true { s with program := change s.program }
  | fetch analysis next, edited, s =>
    let (fact, s') := service s analysis
    let served := (next fact).serve analyses service edited s'
    { served with fetched := ⟨analysis, s.program, edited, fact⟩ :: served.fetched }
  | revise analysis change next, edited, s => next.serve analyses service edited (s.revise analysis change)
  | isKnown analysis next, edited, s => (next (analyses.lookup analysis).isSome).serve analyses service edited s
  | computations next, edited, s => (next s.computed).serve analyses service edited s
  | invalidate preserved next, edited, s =>
    next.serve analyses service edited { s with cache := s.cache.invalidate preserved }
  | write text next, edited, s => next.serve analyses service edited (s.write text)
  | host change next, edited, s => next.serve analyses service edited { s with host := change s.host }
  | consult next, edited, s => (next s.host).serve analyses service edited s
  | finish preserved, _, s => { result := .ok preserved, state := s }
  | abort message, _, s => { result := .error message, state := s }

theorem serve_caching (analyses : Analyses ρ) (script : Script ρ σ) (edited : Bool) (s : State ρ σ) :
    script.run analyses s = ((script.serve analyses (caching analyses) edited s).result,
      (script.serve analyses (caching analyses) edited s).state) := by
  induction script generalizing edited s with
  | inspect next ih => exact ih _ edited s
  | edit change next ih => exact ih true _
  | fetch analysis next ih => exact ih _ edited _
  | revise analysis change next ih => exact ih edited _
  | isKnown analysis next ih => exact ih _ edited s
  | computations next ih => exact ih _ edited s
  | invalidate preserved next ih => exact ih edited _
  | write text next ih => exact ih edited _
  | host change next ih => exact ih edited _
  | consult next ih => exact ih _ edited s
  | finish preserved => rfl
  | abort message => rfl

end Script

namespace Setup

/-- The state in which a pass begins. -/
def enter (m : Setup ρ σ) (pass : String) (s : State ρ σ) : State ρ σ :=
  if m.printBefore then s.dump "before" pass else s

section Enter

variable (m : Setup ρ σ) (pass : String) (s : State ρ σ)

@[simp]
theorem enter_program : (m.enter pass s).program = s.program := by
  unfold enter
  split_ifs <;> rfl

@[simp]
theorem enter_cache : (m.enter pass s).cache = s.cache := by
  unfold enter
  split_ifs <;> rfl

end Enter

/-- The state behind a pass that has come to its end. -/
def leave (m : Setup ρ σ) (pass : String) (preserved : Preserved) (s : State ρ σ) : State ρ σ :=
  let s := { s with cache := s.cache.invalidate preserved }
  if m.printAfter then s.dump "after" pass else s

theorem runScript_eq (m : Setup ρ σ) (pass : String) (script : Script ρ σ) (s : State ρ σ) :
    m.runScript pass script s =
      match script.run m.analyses (m.enter pass s) with
      | (.error message, s') => (.error (.aborted (Text.untilNul message)), s')
      | (.ok preserved, s') => m.verifyAfter pass (m.leave pass preserved s') :=
  rfl

def serveScript (m : Setup ρ σ) (service : Service ρ σ) (pass : String) (script : Script ρ σ)
    (s : State ρ σ) : Served ρ σ RunError Unit :=
  let served := script.serve m.analyses service false (m.enter pass s)
  match served.result with
  | .error message => { served with result := .error (.aborted (Text.untilNul message)) }
  | .ok preserved =>
    let (result, s) := m.verifyAfter pass (m.leave pass preserved served.state)
    { result, state := s, fetched := served.fetched }

def servePasses (m : Setup ρ σ) (service : Service ρ σ) :
    List String → State ρ σ → Served ρ σ RunError Unit
  | [], s => { result := .ok (), state := s }
  | pass :: rest, s =>
    match m.entry? pass with
    | none | some .missing => { result := .error (.unknownPass pass), state := s }
    | some .unmade => { result := .error (.unmadePass pass), state := s }
    | some (.script script) =>
      let first := m.serveScript service pass script s
      match first.result with
      | .error _ => first
      | .ok () =>
        let later := m.servePasses service rest first.state
        { later with fetched := first.fetched ++ later.fetched }

theorem serveScript_caching (m : Setup ρ σ) (pass : String) (script : Script ρ σ) (s : State ρ σ) :
    m.runScript pass script s = ((m.serveScript (caching m.analyses) pass script s).result,
      (m.serveScript (caching m.analyses) pass script s).state) := by
  rw [runScript_eq, Script.serve_caching m.analyses script false]
  unfold serveScript
  dsimp only
  cases (script.serve m.analyses (caching m.analyses) false (m.enter pass s)).result with
  | error message => rfl
  | ok preserved => rfl

/-- Runs as they are defined serve requests from the cache. -/
theorem servePasses_caching (m : Setup ρ σ) (passes : List String) (s : State ρ σ) :
    m.runPasses passes s = ((m.servePasses (caching m.analyses) passes s).result,
      (m.servePasses (caching m.analyses) passes s).state) := by
  induction passes generalizing s with
  | nil => rfl
  | cons pass rest ih =>
    unfold runPasses servePasses
    cases m.entry? pass with
    | none => rfl
    | some entry =>
      cases entry with
      | missing => rfl
      | unmade => rfl
      | script script =>
        dsimp only
        rw [serveScript_caching]
        cases ended : (m.serveScript (caching m.analyses) pass script s).result with
        | error e => simp [ended]
        | ok u => exact ih _

end Setup

/-! ### Honest passes -/

/-- The pass that received the program `received` has fetched facts only before it edited the program, and
preserves only analyses that find the same in the program it leaves. -/
structure Served.Honest (analyses : Analyses ρ) (received : Program) (l : Served ρ σ String Preserved) :
    Prop where
  early : ∀ f ∈ l.fetched, f.edited = false
  preserved : ∀ preserved, l.result = .ok preserved → ∀ analysis, preserved.keeps analysis = true →
    analyses.factOf analysis l.state.program = analyses.factOf analysis received

/-- Every pass is honest about the program that it receives in the run from `s`. -/
def Setup.HonestRun (m : Setup ρ σ) : List String → State ρ σ → Prop
  | [], _ => True
  | pass :: rest, s => ∀ script, m.entry? pass = some (.script script) →
    (script.serve m.analyses (caching m.analyses) false (m.enter pass s)).Honest m.analyses s.program ∧
    ∀ s', m.runScript pass script s = (.ok (), s') → m.HonestRun rest s'

/-- Two scripts do the same work from states of the host that are `alike` to them. They may tell the host how
many computations there were, as long as it stays alike, and do the same whatever that number is. Neither of
them changes a fact of the cache. -/
inductive Script.SameWork (alike : σ → σ → Prop) : Script ρ σ → Script ρ σ → Prop
  | inspect {next next' : Program → Script ρ σ} (then_ : ∀ p, SameWork alike (next p) (next' p)) :
    SameWork alike (.inspect next) (.inspect next')
  | edit {change : Program → Program} {next next' : Script ρ σ} (then_ : SameWork alike next next') :
    SameWork alike (.edit change next) (.edit change next')
  | fetch {analysis : String} {next next' : Option ρ → Script ρ σ}
    (then_ : ∀ fact, SameWork alike (next fact) (next' fact)) :
    SameWork alike (.fetch analysis next) (.fetch analysis next')
  | isKnown {analysis : String} {next next' : Bool → Script ρ σ}
    (then_ : ∀ known, SameWork alike (next known) (next' known)) :
    SameWork alike (.isKnown analysis next) (.isKnown analysis next')
  | computations {next next' : Nat → Script ρ σ} (then_ : ∀ n n', SameWork alike (next n) (next' n')) :
    SameWork alike (.computations next) (.computations next')
  | invalidate {preserved : Preserved} {next next' : Script ρ σ} (then_ : SameWork alike next next') :
    SameWork alike (.invalidate preserved next) (.invalidate preserved next')
  | write {text : String} {next next' : Script ρ σ} (then_ : SameWork alike next next') :
    SameWork alike (.write text next) (.write text next')
  | host {change change' : σ → σ} {next next' : Script ρ σ}
    (kept : ∀ h h', alike h h' → alike (change h) (change' h')) (then_ : SameWork alike next next') :
    SameWork alike (.host change next) (.host change' next')
  | consult {next next' : σ → Script ρ σ} (then_ : ∀ h h', alike h h' → SameWork alike (next h) (next' h')) :
    SameWork alike (.consult next) (.consult next')
  | finish {preserved : Preserved} : SameWork alike (.finish preserved) (.finish preserved)
  | abort {message : String} : SameWork alike (.abort message) (.abort message)

/-- The pass does not act on the number of computations and does not change facts of the cache. -/
def Setup.Impartial (m : Setup ρ σ) (alike : σ → σ → Prop) (pass : String) : Prop :=
  ∀ script, m.entry? pass = some (.script script) → script.SameWork alike script

/-! ### Accurate caches -/

/-- Every fact of the cache is the one that its analysis finds in the program. -/
def Cache.Accurate (cache : Cache ρ) (analyses : Analyses ρ) (p : Program) : Prop :=
  ∀ analysis fact, (analysis, fact) ∈ cache → analyses.factOf analysis p = some fact

theorem Cache.invalidate_eq (cache : Cache ρ) (preserved : Preserved) :
    cache.invalidate preserved = cache.filter fun fact => preserved.keeps fact.1 := by
  unfold Cache.invalidate Preserved.keeps
  split_ifs with all named
  · simp [all]
  · rfl
  · have none : preserved.named = [] := by simpa [Preserved.hasNamed] using named
    simp [all, none]

theorem Cache.Accurate.invalidate {cache : Cache ρ} {analyses : Analyses ρ} {p p' : Program}
    {preserved : Preserved} (accurate : cache.Accurate analyses p)
    (honest : ∀ analysis, preserved.keeps analysis = true →
      analyses.factOf analysis p' = analyses.factOf analysis p) :
    (cache.invalidate preserved).Accurate analyses p' := by
  intro analysis fact member
  rw [Cache.invalidate_eq, List.mem_filter] at member
  rw [honest analysis member.2]
  exact accurate analysis fact member.1

theorem fetch_accurate {s : State ρ σ} {analyses : Analyses ρ} (accurate : s.cache.Accurate analyses s.program)
    (analysis : String) : (s.fetch analyses analysis).1 = analyses.factOf analysis s.program ∧
      (s.fetch analyses analysis).2.cache.Accurate analyses s.program := by
  unfold State.fetch
  cases known : analyses.lookup analysis with
  | none => exact ⟨by simp [Analyses.factOf, known], accurate⟩
  | some compute =>
    have right : analyses.factOf analysis s.program = some (compute s.program) := by
      simp [Analyses.factOf, known]
    cases found : s.cache.lookup analysis with
    | some fact =>
      obtain ⟨early, late, shape, _⟩ := List.lookup_eq_some_iff.mp found
      have member : (analysis, fact) ∈ s.cache := by simp [shape]
      exact ⟨(accurate analysis fact member).symm, accurate⟩
    | none =>
      refine ⟨right.symm, fun analysis' fact member => ?_⟩
      rcases List.mem_cons.mp member with new | old
      · obtain ⟨rfl, rfl⟩ := Prod.mk.inj new
        exact right
      · exact accurate analysis' fact old

/-! ### Both services side by side -/

/-- Two states differ at most in what is cached, in the number of computations and in what is alike to
passes. -/
structure State.Alike (alike : σ → σ → Prop) (s t : State ρ σ) : Prop where
  program : t.program = s.program
  log : t.log = s.log
  host : alike s.host t.host

/-- Two runs end in the same way and in states that are alike, and hand out the same facts. -/
structure Served.Agrees {ε α : Type} (alike : σ → σ → Prop) (l r : Served ρ σ ε α) : Prop where
  result : r.result = l.result
  state : l.state.Alike alike r.state
  fetched : r.fetched = l.fetched

/-- What the cached run of a script comes to that fetches facts early: all of them are right, and the cache is
right about the program that the script received. -/
structure Served.Sound (analyses : Analyses ρ) (received : Program) (l : Served ρ σ String Preserved) :
    Prop where
  facts : ∀ f ∈ l.fetched, f.fact = analyses.factOf f.analysis f.program
  accurate : l.state.cache.Accurate analyses received

theorem Script.serve_agrees {analyses : Analyses ρ} {alike : σ → σ → Prop} {received : Program}
    {left right : Script ρ σ} (work : left.SameWork alike right) {edited : Bool} {s t : State ρ σ}
    (same : s.Alike alike t) (unedited : edited = false → s.program = received)
    (early : ∀ f ∈ (left.serve analyses (caching analyses) edited s).fetched, f.edited = false)
    (accurate : s.cache.Accurate analyses received) :
    (left.serve analyses (caching analyses) edited s).Agrees alike
        (right.serve analyses (recomputing analyses) edited t) ∧
      (left.serve analyses (caching analyses) edited s).Sound analyses received := by
  induction work generalizing edited s t with
  | inspect _ ih =>
    unfold serve at early ⊢
    rw [same.program]
    exact ih _ same unedited early accurate
  | edit _ ih =>
    -- The cache stays as it is, and still speaks of the program received.
    unfold serve at early ⊢
    rw [same.program]
    exact ih ⟨rfl, same.log, same.host⟩ (by simp) early accurate
  | @fetch analysis next next' _ ih =>
    -- Nothing is edited yet, so what the cache says of the program received holds of this one.
    unfold serve at early ⊢
    simp only [caching, recomputing] at early ⊢
    obtain ⟨first, later⟩ := List.forall_mem_cons.mp early
    obtain rfl := unedited first
    obtain ⟨right, still⟩ := fetch_accurate accurate analysis
    rw [right] at later ⊢
    rw [same.program]
    have moved : (s.fetch analyses analysis).2.Alike alike
        { t with program := s.program, computed := t.computed + 1 } :=
      ⟨by rw [State.fetch_program], by rw [State.fetch_log]; exact same.log,
        by rw [State.fetch_host]; exact same.host⟩
    obtain ⟨agrees, sound⟩ := ih (analyses.factOf analysis s.program) moved
      (fun _ => State.fetch_program ..) later still
    refine ⟨⟨agrees.result, agrees.state, congrArg (List.cons _) agrees.fetched⟩, ?_, sound.accurate⟩
    exact List.forall_mem_cons.mpr ⟨rfl, sound.facts⟩
  | isKnown _ ih => exact ih _ same unedited early accurate
  | computations _ ih => exact ih _ _ same unedited early accurate
  | invalidate _ ih =>
    exact ih ⟨same.program, same.log, same.host⟩ unedited early (accurate.invalidate fun _ _ => rfl)
  | write _ ih =>
    exact ih ⟨same.program, by simp [State.write, same.log], same.host⟩ unedited early accurate
  | host kept _ ih => exact ih ⟨same.program, same.log, kept _ _ same.host⟩ unedited early accurate
  | consult _ ih => exact ih _ _ same.host same unedited early accurate
  | finish | abort => exact ⟨⟨rfl, same, rfl⟩, by simp [serve], accurate⟩

namespace Setup

variable {m : Setup ρ σ} {pass : String} {s t : State ρ σ}

theorem enter_alike (m : Setup ρ σ) (pass : String) {alike : σ → σ → Prop} (same : s.Alike alike t) :
    (m.enter pass s).Alike alike (m.enter pass t) := by
  unfold enter
  split_ifs
  · exact ⟨same.program, by simp [State.dump, State.write, same.program, same.log], same.host⟩
  · exact same

@[simp]
theorem leave_program (kept : Preserved) : (m.leave pass kept s).program = s.program := by
  unfold leave
  split_ifs <;> rfl

@[simp]
theorem leave_cache (kept : Preserved) : (m.leave pass kept s).cache = s.cache.invalidate kept := by
  unfold leave
  split_ifs <;> rfl

theorem leave_alike (m : Setup ρ σ) (pass : String) {alike : σ → σ → Prop} (kept : Preserved)
    (same : s.Alike alike t) :
    (m.leave pass kept s).Alike alike (m.leave pass kept t) := by
  unfold leave
  split_ifs
  · exact ⟨same.program, by simp [State.dump, State.write, same.program, same.log], same.host⟩
  · exact ⟨same.program, same.log, same.host⟩

@[simp]
theorem verifyAfter_program : (m.verifyAfter pass s).2.program = s.program := by
  unfold verifyAfter
  split_ifs
  · split <;> rfl
  · rfl

@[simp]
theorem verifyAfter_cache : (m.verifyAfter pass s).2.cache = s.cache := by
  unfold verifyAfter
  split_ifs
  · split <;> rfl
  · rfl

theorem verifyAfter_alike (m : Setup ρ σ) (pass : String) {alike : σ → σ → Prop} (same : s.Alike alike t) :
    (m.verifyAfter pass t).1 = (m.verifyAfter pass s).1 ∧
      (m.verifyAfter pass s).2.Alike alike (m.verifyAfter pass t).2 := by
  unfold verifyAfter
  rw [same.program]
  split_ifs
  · split
    · exact ⟨rfl, same⟩
    · exact ⟨rfl, same.program, by simp [State.write, same.log], same.host⟩
  · exact ⟨rfl, same⟩

/-- The caching run `l` agrees with the run `r` without a cache, has fetched what is true, and has a cache
that is right about the program if it comes to its end. -/
structure Invisible (m : Setup ρ σ) (alike : σ → σ → Prop) (l r : Served ρ σ RunError Unit) : Prop where
  agrees : l.Agrees alike r
  facts : ∀ f ∈ l.fetched, f.fact = m.analyses.factOf f.analysis f.program
  accurate : l.result = .ok () → l.state.cache.Accurate m.analyses l.state.program

theorem serveScript_invisible {alike : σ → σ → Prop} {script : Script ρ σ} (work : script.SameWork alike script)
    (honest : (script.serve m.analyses (caching m.analyses) false (m.enter pass s)).Honest m.analyses s.program)
    (same : s.Alike alike t) (accurate : s.cache.Accurate m.analyses s.program) :
    m.Invisible alike (m.serveScript (caching m.analyses) pass script s)
      (m.serveScript (recomputing m.analyses) pass script t) := by
  obtain ⟨agrees, sound⟩ := Script.serve_agrees work (enter_alike m pass same)
    (fun _ => enter_program ..) honest.early (by rwa [enter_cache])
  unfold serveScript
  dsimp only
  rw [agrees.result]
  cases ended : (script.serve m.analyses (caching m.analyses) false (m.enter pass s)).result with
  | error message => exact ⟨⟨rfl, agrees.state, agrees.fetched⟩, sound.facts, by simp⟩
  | ok preserved =>
    obtain ⟨result, state⟩ := verifyAfter_alike m pass (leave_alike m pass preserved agrees.state)
    refine ⟨⟨result, state, agrees.fetched⟩, sound.facts, fun _ => ?_⟩
    simp only [verifyAfter_cache, leave_cache, verifyAfter_program, leave_program]
    exact sound.accurate.invalidate (honest.preserved preserved ended)

theorem servePasses_invisible {alike : σ → σ → Prop} {passes : List String}
    (impartial : ∀ pass ∈ passes, m.Impartial alike pass) (honest : m.HonestRun passes s)
    (same : s.Alike alike t) (accurate : s.cache.Accurate m.analyses s.program) :
    m.Invisible alike (m.servePasses (caching m.analyses) passes s)
      (m.servePasses (recomputing m.analyses) passes t) := by
  induction passes generalizing s t with
  | nil => exact ⟨⟨rfl, same, rfl⟩, by simp [servePasses], fun _ => accurate⟩
  | cons pass rest ih =>
    have stopped : ∀ e : RunError, m.Invisible alike { result := .error e, state := s }
        { result := .error e, state := t } := fun e => ⟨⟨rfl, same, rfl⟩, by simp, by simp⟩
    unfold servePasses
    cases known : m.entry? pass with
    | none => exact stopped _
    | some entry =>
      cases entry with
      | missing => exact stopped _
      | unmade => exact stopped _
      | script script =>
        obtain ⟨honestHere, honestLater⟩ := honest script known
        obtain ⟨agrees, facts, still⟩ :=
          serveScript_invisible (impartial pass List.mem_cons_self script known) honestHere same accurate
        dsimp only
        rw [agrees.result]
        cases ended : (m.serveScript (caching m.analyses) pass script s).result with
        | error e => exact ⟨agrees, facts, still⟩
        | ok u =>
          have ran := serveScript_caching m pass script s
          rw [ended] at ran
          obtain ⟨agrees', facts', still'⟩ := ih (fun p member => impartial p (List.mem_cons_of_mem _ member))
            (honestLater _ ran) agrees.state (still ended)
          refine ⟨⟨agrees'.result, agrees'.state, ?_⟩, fun f member => ?_, still'⟩
          · rw [agrees.fetched, agrees'.fetched]
          · rcases List.mem_append.mp member with early | late
            · exact facts f early
            · exact facts' f late

theorem HonestRun.of_append {before after : List String} (honest : m.HonestRun (before ++ after) s) :
    m.HonestRun before s := by
  induction before generalizing s with
  | nil => trivial
  | cons pass rest ih =>
    intro script known
    obtain ⟨here, later⟩ := honest script known
    exact ⟨here, fun s' ran => ih (later s' ran)⟩

/-- A pipeline of honest passes that neither change facts of the cache nor act on the number of computations
works as if it had no cache. It does the same to the program and to the log, ends in the same way and hands out
the same facts as one that computes every fact anew, and all of them are true of the program at that time. Every
pass begins with a cache that is right about the program, and what is left of the cache behind it are the facts
of the analyses that it preserves. -/
theorem caching_invisible (m : Setup ρ σ) {alike : σ → σ → Prop} {passes : List String} {p : Program} {host : σ}
    (honest : m.HonestRun passes { program := p, host }) (impartial : ∀ pass ∈ passes, m.Impartial alike pass)
    (initially : alike host host) :
    let start : State ρ σ := { program := p, host }
    let kept := m.servePasses (caching m.analyses) passes start
    let plain := m.servePasses (recomputing m.analyses) passes start
    m.run passes p host = (kept.result, kept.state) ∧ kept.Agrees alike plain ∧
    (∀ f ∈ kept.fetched, f.fact = m.analyses.factOf f.analysis f.program) ∧
    (∀ before pass after s, passes = before ++ pass :: after → m.run before p host = (.ok (), s) →
      s.cache.Accurate m.analyses s.program) ∧
    ∀ (cache : Cache ρ) (preserved : Preserved),
      cache.invalidate preserved = cache.filter fun fact => preserved.keeps fact.1 := by
  have invisible : ∀ started : List String, m.HonestRun started { program := p, host } →
      (∀ pass ∈ started, m.Impartial alike pass) →
      m.Invisible alike (m.servePasses (caching m.analyses) started { program := p, host })
        (m.servePasses (recomputing m.analyses) started { program := p, host }) :=
    fun started honest impartial =>
      servePasses_invisible impartial honest ⟨rfl, rfl, initially⟩ (by simp [Cache.Accurate])
  obtain ⟨agrees, facts, _⟩ := invisible passes honest impartial
  refine ⟨servePasses_caching m passes _, agrees, facts, ?_, Cache.invalidate_eq⟩
  rintro before pass after s rfl started
  obtain ⟨ended, reached⟩ := Prod.mk.inj ((servePasses_caching m before _).symm.trans started)
  have impartialBefore := fun pass member => impartial pass (List.mem_append_left _ member)
  rw [← reached]
  exact (invisible before honest.of_append impartialBefore).accurate ended

/-- Two analyses, and two passes. One asks for both, counts its visits with the host and tells it how many
computations there were. The other adds a global, whose name depends on the number of visits, and preserves what
is known about functions. -/
def censusSetup : Setup Nat (Nat × List Nat) where
  analyses := [("functions", fun p => p.funcs.length), ("globals", fun p => p.globals.length)]
  passes :=
    [("count", .script (.fetch "functions" fun _ => .fetch "globals" fun _ => .computations fun n =>
      .host (fun (visits, seen) => (visits + 1, seen ++ [n])) (.finish .everything))),
     ("declare", .script (.fetch "globals" fun _ => .consult fun (visits, _) =>
      .edit (fun p => { p with globals := p.globals ++ [{ name := if visits = 1 then "text" else "more" }] })
        (.finish ((.nothing : Preserved).preserve "functions"))))]

/-- The passes read the number of visits and nothing else. -/
def sameVisits (h h' : Nat × List Nat) : Prop :=
  h.1 = h'.1

theorem census_impartial : ∀ pass ∈ ["count", "declare", "count"], censusSetup.Impartial sameVisits pass := by
  have count : censusSetup.Impartial sameVisits "count" := by
    rintro script ⟨⟩
    exact .fetch fun _ => .fetch fun _ => .computations fun _ _ =>
      .host (fun _ _ same => congrArg (· + 1) same) .finish
  have declare : censusSetup.Impartial sameVisits "declare" := by
    rintro script ⟨⟩
    refine .fetch fun _ => .consult ?_
    rintro ⟨visits, seen⟩ ⟨_, seen'⟩ ⟨⟩
    exact .edit .finish
  simp [count, declare]

theorem census_honest :
    censusSetup.HonestRun ["count", "declare", "count"] { program := {}, host := (0, []) } := by
  rintro script ⟨⟩
  refine ⟨⟨by decide, fun _ ended _ _ => by cases ended; rfl⟩, ?_⟩
  rintro s ran
  obtain rfl := congrArg Prod.snd ran
  rintro script ⟨⟩
  refine ⟨⟨by decide, ?_⟩, ?_⟩
  · rintro preserved ⟨⟩ analysis kept
    obtain rfl : analysis = "functions" := by
      simpa [Preserved.keeps, Preserved.preserve, Preserved.nothing] using kept
    rfl
  rintro s ran
  obtain rfl := congrArg Prod.snd ran
  rintro script ⟨⟩
  exact ⟨⟨by decide, fun _ ended _ _ => by cases ended; rfl⟩, fun _ _ => trivial⟩

theorem caching_invisible_census :
    let passes := ["count", "declare", "count"]
    let start : State Nat (Nat × List Nat) := { program := {}, host := (0, []) }
    let kept := censusSetup.servePasses (caching censusSetup.analyses) passes start
    let plain := censusSetup.servePasses (recomputing censusSetup.analyses) passes start
    censusSetup.HonestRun passes start ∧ (∀ pass ∈ passes, censusSetup.Impartial sameVisits pass) ∧
    kept.Agrees sameVisits plain ∧
    (kept.fetched.map fun f => (f.analysis, f.fact)) =
      [("functions", some 0), ("globals", some 0), ("globals", some 0), ("functions", some 0),
        ("globals", some 1)] ∧
    kept.state.host = (2, [2, 3]) ∧ plain.state.host = (2, [2, 5]) :=
  ⟨census_honest, census_impartial, (caching_invisible censusSetup census_honest census_impartial rfl).2.1,
    by decide, by decide, by decide⟩

/-- A pass that names the package after the number of computations, one that changes a fact where it is kept,
and one that asks for that fact. -/
def curiousSetup : Setup Nat Unit where
  analyses := [("functions", fun p => p.funcs.length)]
  passes :=
    [("peek", .script (.fetch "functions" fun _ => .fetch "functions" fun _ => .computations fun n =>
      .edit (fun p => { p with package := if n = 1 then "kept" else "computed anew" }) (.finish .nothing))),
     ("revise", .script (.fetch "functions" fun _ => .revise "functions" (· + 1) (.finish .everything))),
     ("ask", .script (.fetch "functions" fun _ => .finish .everything))]

/-- Honest passes can tell a cache from none, by the number of computations and by a fact that one of them has
changed in it. -/
theorem honest_passes_see_cache :
    let start : State Nat Unit := { program := {}, host := () }
    let kept := fun passes => curiousSetup.servePasses (caching curiousSetup.analyses) passes start
    let plain := fun passes => curiousSetup.servePasses (recomputing curiousSetup.analyses) passes start
    (curiousSetup.HonestRun ["peek"] start ∧ (kept ["peek"]).state.program.package = "kept" ∧
      (plain ["peek"]).state.program.package = "computed anew") ∧
    (curiousSetup.HonestRun ["revise", "ask"] start ∧
      (kept ["revise", "ask"]).fetched.map Fetched.fact = [some 0, some 1] ∧
      (plain ["revise", "ask"]).fetched.map Fetched.fact = [some 0, some 0]) := by
  refine ⟨⟨?_, by decide, by decide⟩, ?_, by decide, by decide⟩
  · rintro script ⟨⟩
    refine ⟨⟨by decide, ?_⟩, fun _ _ => trivial⟩
    rintro preserved ⟨⟩ analysis kept
    simp [Preserved.keeps, Preserved.nothing] at kept
  · rintro script ⟨⟩
    refine ⟨⟨by decide, fun _ ended _ _ => by cases ended; rfl⟩, ?_⟩
    rintro s ran
    obtain rfl := congrArg Prod.snd ran
    rintro script ⟨⟩
    exact ⟨⟨by decide, fun _ ended _ _ => by cases ended; rfl⟩, fun _ _ => trivial⟩

end Setup

end GuardedIL.Pipeline

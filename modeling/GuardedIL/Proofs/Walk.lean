import GuardedIL.Proofs.Preservation

/-!
# The walk over a function

Guards can be put in place by a walk over the blocks of a function by number, which splits the block
that it stands in at each candidate and goes on behind the guard. The list of blocks grows under way.
Still the walk visits every instruction of the function once, in order, and none that it has added, and
what it leaves is the guarded function.
-/

namespace GuardedIL.Overflow

/-! ### Chains of pieces -/

/-- The pieces `head :: later` hold some instructions of a block, behind `opening`. A piece ends ahead of
the first candidate, with its check and a branch to a fault block and to the next piece; that one begins
with the candidate, which is marked now. -/
inductive Chain (s : MulStrategy) : List Instr → Block → List Block → List Instr → Prop
  | last {opening kept : List Instr} {head : Block} (plain : ∀ j ∈ kept, candidate? j = none)
    (instrs : head.instrs = opening ++ kept) : Chain s opening head [] kept
  | guard {opening kept rest : List Instr} {head cont : Block} {later : List Block} {i : Instr}
    {k : Candidate} {id : TempId} {n : Nat} (names : FreshNames)
    (plain : ∀ j ∈ kept, candidate? j = none) (found : candidate? i = some k)
    (instrs : head.instrs = opening ++ kept ++ (Guard.ofInstr i (k.predicate s) names).1.check ++
      [{ op := .cbr, args := [(Guard.ofInstr i (k.predicate s) names).1.condition]
         labels := [faultLabel n, contLabel n], labelArgs := [[], []], loc := i.loc }])
    (label : cont.label = contLabel n) (params : cont.params = [])
    (following : Chain s [{ i with checked := true }] cont later rest) :
    Chain s opening head
      ({ label := faultLabel n, instrs := faultInstrs id i.loc, terminated := true } :: cont :: later)
      (kept ++ i :: rest)

variable {s : MulStrategy}

theorem candidateCount_plain {kept : List Instr} (plain : ∀ j ∈ kept, candidate? j = none) :
    candidateCount kept = 0 :=
  List.countP_eq_zero.mpr fun j member => by simp [plain j member]

theorem Chain.length {opening is : List Instr} {head : Block} {later : List Block}
    (chain : Chain s opening head later is) : later.length = 2 * candidateCount is := by
  induction chain with
  | last plain => rw [candidateCount_plain plain, List.length_nil]
  | @guard _ kept rest _ _ _ i _ _ _ _ plain found _ _ _ _ ih =>
    have counted : candidateCount (kept ++ i :: rest) = candidateCount rest + 1 := by
      rw [candidateCount, List.countP_append, List.countP_cons_of_pos (by rw [found]; rfl),
        ← candidateCount, ← candidateCount, candidateCount_plain plain, Nat.zero_add]
    rw [counted, List.length_cons, List.length_cons, ih]
    omega

theorem guardInstrs_chain {b : Block} {opening kept rest : List Instr} {names : FreshNames}
    (plain : ∀ j ∈ kept, candidate? j = none) (instrs : b.instrs = opening ++ kept) :
    ∃ head later, (guardInstrs s b rest names).1 = head :: later ∧
      Chain s opening head later (kept ++ rest) := by
  induction rest generalizing b opening kept names with
  | nil =>
    refine ⟨b, [], rfl, ?_⟩
    rw [List.append_nil]
    exact .last plain instrs
  | cons i rest ih =>
    cases found : candidate? i with
    | none =>
      have more : ∀ j ∈ kept ++ [i], candidate? j = none := by
        intro j member
        rcases List.mem_append.mp member with early | last
        · exact plain j early
        · rw [List.mem_singleton.mp last, found]
      obtain ⟨head, later, blocks, chain⟩ := @ih { b with instrs := b.instrs ++ [i] } opening
        (kept ++ [i]) names more (by rw [instrs, List.append_assoc])
      rw [guardInstrs_other found]
      refine ⟨head, later, blocks, ?_⟩
      rwa [List.append_assoc] at chain
    | some k =>
      obtain ⟨cont, later, blocks, chain⟩ := @ih ((Guard.ofInstr i (k.predicate s) names).1.contBlock b [])
        [{ i with checked := true }] [] (Guard.ofInstr i (k.predicate s) names).2 (by simp) rfl
      obtain ⟨cont', later', blocks', label, params, _⟩ :=
        guardInstrs_head s ((Guard.ofInstr i (k.predicate s) names).1.contBlock b []) rest
          (Guard.ofInstr i (k.predicate s) names).2
      obtain ⟨rfl, rfl⟩ := List.cons.inj (blocks.symm.trans blocks')
      rw [guardInstrs_candidate found]
      refine ⟨_, _, rfl, ?_⟩
      simp only [blocks]
      refine .guard names plain found ?_ label params chain
      rw [← instrs]
      rfl

/-- The pieces of a block have its label and parameters at their head, and two more for each candidate. -/
def SplitInto (s : MulStrategy) (b : Block) (pieces : List Block) : Prop :=
  ∃ head later, pieces = head :: later ∧ head.label = b.label ∧ head.params = b.params ∧
    later.length = 2 * candidateCount b.instrs ∧ Chain s [] head later b.instrs

theorem guardInstrs_split (s : MulStrategy) (b : Block) (names : FreshNames) :
    SplitInto s b (guardInstrs s { b with instrs := [] } b.instrs names).1 := by
  obtain ⟨head, later, blocks, chain⟩ := @guardInstrs_chain s { b with instrs := [] } [] [] b.instrs
    names (by simp) rfl
  obtain ⟨head', later', blocks', label, params, _⟩ :=
    guardInstrs_head s { b with instrs := [] } b.instrs names
  obtain ⟨rfl, rfl⟩ := List.cons.inj (blocks.symm.trans blocks')
  exact ⟨head, later, blocks, label, params, chain.length, chain⟩

theorem guardBlocks_split (s : MulStrategy) (blocks : List Block) (names : FreshNames) :
    ∃ groups, (guardBlocks s blocks names).1 = groups.flatten ∧
      List.Forall₂ (SplitInto s) blocks groups := by
  induction blocks generalizing names with
  | nil => exact ⟨[], rfl, .nil⟩
  | cons b rest ih =>
    obtain ⟨groups, flat, split⟩ := ih (guardInstrs s { b with instrs := [] } b.instrs names).2
    refine ⟨_ :: groups, ?_, .cons (guardInstrs_split s b names) split⟩
    rw [guardBlocks, List.flatten_cons, ← flat]

/-! ### The walk -/

inductive VisitState where
  | unvisited | instrumented | unchanged
  deriving DecidableEq, Repr, Inhabited

/-- The function so far, the place in it by numbers of the block and the instruction, and a state for
every instruction of the function as it was at first; `ordinal` is the number of the next to visit. -/
structure Walk where
  func : Func
  names : FreshNames
  block : Nat := 0
  instr : Nat := 0
  ordinal : Nat := 0
  states : List VisitState

namespace Walk

def start (f : Func) : Walk where
  func := f
  names := .ofFunc f
  states := List.replicate f.instrCount .unvisited

/-- The instruction that the walk stands at, unless it is at the end of a block. -/
def next? (w : Walk) : Option Instr :=
  w.func.blocks[w.block]?.bind (·.instrs[w.instr]?)

def note (w : Walk) (state : VisitState) : Walk :=
  { w with ordinal := w.ordinal + 1, states := w.states.set w.ordinal state }

/-- Visits the next instruction, or goes on to the next block. -/
def step (s : MulStrategy) (w : Walk) : Option Walk :=
  match w.next? with
  | none =>
    if w.block < w.func.blocks.length then some { w with block := w.block + 1, instr := 0 } else none
  | some i =>
    match candidate? i with
    | none => some { w.note .unchanged with instr := w.instr + 1 }
    | some k =>
      let (g, names) := Guard.ofInstr i (k.predicate s) w.names
      let (func, block) := w.func.splice w.block w.instr g
      -- The instruction is the first of that block now, and the walk goes on behind it.
      some { w.note .instrumented with func, names, block, instr := 1 }

def after (s : MulStrategy) : Nat → Walk → Option Walk
  | 0, w => some w
  | n + 1, w => (w.step s).bind (after s n)

/-- The function that the walk leaves, with a name for every temporary if there are names. -/
def result (w : Walk) : Func :=
  { w.func with valueNames := padNames w.func.valueNames w.names.nextTemp.toNat }

/-! ### What the walk has visited -/

def stateOf (i : Instr) : VisitState :=
  if (candidate? i).isSome then .instrumented else .unchanged

/-- The walk has visited the instructions `before` of the function, and those `ahead` are left. -/
structure Visited (f : Func) (w : Walk) (before ahead : List Instr) : Prop where
  instrs : f.instrs = before ++ ahead
  ordinal : w.ordinal = before.length
  states : w.states = before.map stateOf ++ List.replicate ahead.length .unvisited

/-- The walk stands in the piece `b`, ahead of the instructions `rest`, with the blocks `todo` left; or it
has come to the end. What is left to guard makes up the guarded function. -/
inductive Place (s : MulStrategy) (f : Func) (w : Walk) : List Instr → Nat → Prop
  | inside (done : List Block) (b : Block) (rest : List Instr) (todo : List Block)
    (func : w.func = { f with blocks := done ++ { b with instrs := b.instrs ++ rest } :: todo })
    (block : w.block = done.length) (instr : w.instr = b.instrs.length)
    (result : guardBlocks s f.blocks (.ofFunc f) =
      (done ++ (guardInstrs s b rest w.names).1 ++
        (guardBlocks s todo (guardInstrs s b rest w.names).2).1,
        (guardBlocks s todo (guardInstrs s b rest w.names).2).2)) :
    Place s f w (rest ++ todo.flatMap Block.instrs) (todo.length + 1)
  | finished (func : w.func = { f with blocks := (guardBlocks s f.blocks (.ofFunc f)).1 })
    (block : w.block = w.func.blocks.length)
    (names : w.names = (guardBlocks s f.blocks (.ofFunc f)).2) : Place s f w [] 0

/-- The walk has `left` steps to go: one for each instruction, and one for the end of each block. -/
def Progress (s : MulStrategy) (f : Func) (w : Walk) (left : Nat) : Prop :=
  ∃ before ahead blocks, Visited f w before ahead ∧ Place s f w ahead blocks ∧
    left = ahead.length + blocks

variable {f : Func} {w : Walk}

theorem Place.enter {done todo : List Block} (func : w.func = { f with blocks := done ++ todo })
    (block : w.block = done.length) (instr : w.instr = 0)
    (result : guardBlocks s f.blocks (.ofFunc f) =
      (done ++ (guardBlocks s todo w.names).1, (guardBlocks s todo w.names).2)) :
    Place s f w (todo.flatMap Block.instrs) todo.length := by
  cases todo with
  | nil =>
    refine .finished ?_ ?_ ?_
    · rw [func, result]
      rfl
    · rw [block, func, List.append_nil]
    · rw [result]
      rfl
  | cons t todo =>
    refine .inside done { t with instrs := [] } t.instrs todo func block instr ?_
    rw [result, guardBlocks, List.append_assoc]

theorem start_progress (s : MulStrategy) (f : Func) :
    Progress s f (start f) (f.instrCount + f.blocks.length) := by
  refine ⟨[], f.instrs, f.blocks.length, ⟨rfl, rfl, rfl⟩, ?_, rfl⟩
  exact @Place.enter s f (start f) [] f.blocks rfl rfl rfl rfl

theorem Visited.note {before ahead : List Instr} {i : Instr} (visited : Visited f w before (i :: ahead)) :
    Visited f (w.note (stateOf i)) (before ++ [i]) ahead := by
  refine ⟨?_, ?_, ?_⟩
  · rw [visited.instrs, List.append_assoc]
    rfl
  · rw [List.length_append, ← visited.ordinal]
    rfl
  · change w.states.set w.ordinal (stateOf i) = _
    rw [visited.states, visited.ordinal, List.set_append_right _ _ (by simp)]
    simp [List.replicate_succ]

theorem Visited.unvisited {before ahead : List Instr} {i : Instr}
    (visited : Visited f w before (i :: ahead)) :
    f.instrs[w.ordinal]? = some i ∧ w.states[w.ordinal]? = some .unvisited := by
  refine ⟨?_, ?_⟩
  · rw [visited.instrs, visited.ordinal]
    simp
  · rw [visited.states, visited.ordinal]
    simp

section Step

variable {done todo : List Block} {b : Block} {before rest : List Instr} {i : Instr}

theorem next?_inside (func : w.func = { f with
      blocks := done ++ { b with instrs := b.instrs ++ rest } :: todo })
    (block : w.block = done.length) (instr : w.instr = b.instrs.length) : w.next? = rest.head? := by
  rw [next?, func, block, instr]
  cases rest <;> simp

theorem step_end (visited : Visited f w before (todo.flatMap Block.instrs))
    (func : w.func = { f with blocks := done ++ { b with instrs := b.instrs ++ [] } :: todo })
    (block : w.block = done.length) (instr : w.instr = b.instrs.length)
    (result : guardBlocks s f.blocks (.ofFunc f) =
      (done ++ [b] ++ (guardBlocks s todo w.names).1, (guardBlocks s todo w.names).2)) :
    ∃ w', w.step s = some w' ∧ Progress s f w' ((todo.flatMap Block.instrs).length + todo.length) := by
  have inside : w.block < w.func.blocks.length := by
    rw [func, block]
    simp
  refine ⟨{ w with block := w.block + 1, instr := 0 }, ?_, before, _, _,
    ⟨visited.instrs, visited.ordinal, visited.states⟩,
    @Place.enter s f _ (done ++ [b]) todo ?_ ?_ rfl result, rfl⟩
  · rw [step, next?_inside func block instr]
    exact if_pos inside
  · simp [func]
  · simp [block]

section Visit

variable (visited : Visited f w before (i :: (rest ++ todo.flatMap Block.instrs)))
  (func : w.func = { f with blocks := done ++ { b with instrs := b.instrs ++ i :: rest } :: todo })
  (block : w.block = done.length) (instr : w.instr = b.instrs.length)
  (result : guardBlocks s f.blocks (.ofFunc f) =
    (done ++ (guardInstrs s b (i :: rest) w.names).1 ++
      (guardBlocks s todo (guardInstrs s b (i :: rest) w.names).2).1,
      (guardBlocks s todo (guardInstrs s b (i :: rest) w.names).2).2))
include visited func block instr result

theorem step_other (other : candidate? i = none) : ∃ w', w.step s = some w' ∧
    Progress s f w' ((rest ++ todo.flatMap Block.instrs).length + (todo.length + 1)) := by
  have noted := visited.note
  rw [show stateOf i = .unchanged by simp [stateOf, other]] at noted
  refine ⟨{ w.note .unchanged with instr := w.instr + 1 }, ?_, _, _, _,
    ⟨noted.instrs, noted.ordinal, noted.states⟩,
    .inside done { b with instrs := b.instrs ++ [i] } rest todo ?_ block ?_ ?_, rfl⟩
  · simp only [step, next?_inside func block instr, List.head?_cons, other]
  · change w.func = _
    rw [func]
    simp
  · simp [instr]
  · rw [guardInstrs_other other] at result
    exact result

theorem step_candidate {k : Candidate} (found : candidate? i = some k) : ∃ w', w.step s = some w' ∧
    Progress s f w' ((rest ++ todo.flatMap Block.instrs).length + (todo.length + 1)) := by
  have noted := visited.note
  rw [show stateOf i = .instrumented by simp [stateOf, found]] at noted
  rw [guardInstrs_candidate found] at result
  generalize guarded : Guard.ofInstr i (k.predicate s) w.names = g at result
  -- The two pieces before the guarded instruction are done, and it is itself the first of its piece.
  have spliced : w.func.splice w.block w.instr g.1 =
      ({ f with blocks := done ++ [g.1.headBlock b b.instrs, g.1.faultBlock] ++
          { g.1.contBlock b [] with instrs := (g.1.contBlock b []).instrs ++ rest } :: todo },
        (done ++ [g.1.headBlock b b.instrs, g.1.faultBlock]).length) := by
    rw [func, block, instr]
    simp [Func.splice, Block.split, Guard.headBlock, Guard.contBlock]
  refine ⟨{ w.note .instrumented with
      func := (w.func.splice w.block w.instr g.1).1, names := g.2
      block := (w.func.splice w.block w.instr g.1).2, instr := 1 }, ?_, _, _, _,
    ⟨noted.instrs, noted.ordinal, noted.states⟩,
    .inside (done ++ [g.1.headBlock b b.instrs, g.1.faultBlock]) (g.1.contBlock b []) rest todo ?_ ?_
      rfl ?_, rfl⟩
  · simp only [step, next?_inside func block instr, List.head?_cons, found, guarded]
  · rw [spliced]
  · rw [spliced]
  · rw [result]
    simp

end Visit

theorem step_progress {left : Nat} (progress : Progress s f w (left + 1)) :
    ∃ w', w.step s = some w' ∧ Progress s f w' left := by
  obtain ⟨before, ahead, blocks, visited, place, count⟩ := progress
  cases place with
  | finished => simp at count
  | inside done b rest todo func block instr result =>
    cases rest with
    | nil =>
      obtain rfl : left = (todo.flatMap Block.instrs).length + todo.length := by
        rw [List.nil_append] at count
        omega
      exact step_end visited func block instr result
    | cons i rest =>
      obtain rfl : left = (rest ++ todo.flatMap Block.instrs).length + (todo.length + 1) := by
        rw [List.cons_append, List.length_cons] at count
        omega
      cases found : candidate? i with
      | none => exact step_other visited func block instr result found
      | some k => exact step_candidate visited func block instr result found

end Step

theorem after_add (s : MulStrategy) (m n : Nat) (w : Walk) :
    after s (m + n) w = (after s m w).bind (after s n) := by
  induction m generalizing w with
  | zero => simp [after]
  | succ m ih =>
    rw [Nat.succ_add, after, after, Option.bind_assoc]
    simp only [ih]

theorem after_progress {left m : Nat} (progress : Progress s f w left) (enough : m ≤ left) :
    ∃ w', after s m w = some w' ∧ Progress s f w' (left - m) := by
  induction m generalizing w left with
  | zero => exact ⟨w, rfl, progress⟩
  | succ m ih =>
    obtain ⟨rest, rfl⟩ : ∃ rest, left = rest + 1 := ⟨left - 1, by omega⟩
    obtain ⟨w₁, moves, progress⟩ := step_progress progress
    obtain ⟨w', reached, still⟩ := ih progress (by omega)
    exact ⟨w', by rw [after, moves]; exact reached, by rwa [Nat.add_sub_add_right]⟩

theorem Progress.completed (progress : Progress s f w 0) : w.step s = none ∧ w.result = f.guard s ∧
    w.states = f.instrs.map stateOf ∧ w.ordinal = w.states.length := by
  obtain ⟨before, ahead, blocks, visited, place, count⟩ := progress
  cases place with
  | inside done b rest todo => omega
  | finished func block names =>
    have nothing : w.next? = none := by simp [next?, block]
    have all : f.instrs = before := by rw [visited.instrs, List.append_nil]
    refine ⟨?_, ?_, ?_, ?_⟩
    · rw [step, nothing]
      simp [block]
    · rw [result, func, names]
      rfl
    · rw [visited.states, all]
      simp
    · rw [visited.ordinal, visited.states]
      simp

theorem Progress.fresh {left : Nat} {i : Instr} (progress : Progress s f w left)
    (here : w.next? = some i) :
    f.instrs[w.ordinal]? = some i ∧ w.states[w.ordinal]? = some .unvisited := by
  obtain ⟨before, ahead, blocks, visited, place, _⟩ := progress
  cases place with
  | inside done b rest todo func block instr =>
    rw [next?_inside func block instr] at here
    obtain ⟨rest, rfl⟩ : ∃ later, rest = i :: later := List.head?_eq_some_iff.mp here
    exact visited.unvisited
  | finished func block => simp [next?, block] at here

/-- The walk over `f` is over after one step for each instruction and one for each block. It leaves
`f'`, and notes one state for each instruction. Wherever it stands at an instruction, that is the one of
its number in `f`, and not visited before. -/
structure Covers (s : MulStrategy) (f f' : Func) : Prop where
  ends : ∃ w, after s (f.instrCount + f.blocks.length) (start f) = some w ∧ w.step s = none ∧
    w.result = f' ∧ w.states = f.instrs.map stateOf ∧ w.ordinal = w.states.length
  visits : ∀ m w i, after s m (start f) = some w → w.next? = some i →
    f.instrs[w.ordinal]? = some i ∧ w.states[w.ordinal]? = some .unvisited

theorem covers_guard (s : MulStrategy) (f : Func) : Covers s f (f.guard s) := by
  have initially := start_progress s f
  obtain ⟨w, reached, last⟩ := after_progress initially le_rfl
  rw [Nat.sub_self] at last
  refine ⟨⟨w, reached, last.completed⟩, fun m v i way here => ?_⟩
  by_cases enough : m ≤ f.instrCount + f.blocks.length
  · obtain ⟨v', way', progress⟩ := after_progress initially enough
    obtain rfl := Option.some.inj (way.symm.trans way')
    exact progress.fresh here
  · -- There is no such walk, as it would have gone on after its end.
    obtain ⟨more, rfl⟩ : ∃ more, m = f.instrCount + f.blocks.length + (more + 1) :=
      ⟨m - (f.instrCount + f.blocks.length) - 1, by omega⟩
    rw [after_add, reached] at way
    simp [after, last.completed.1] at way

/-- The walk over `f` ends in `w`. -/
def Leaves (s : MulStrategy) (f : Func) (w : Walk) : Prop :=
  after s (f.instrCount + f.blocks.length) (start f) = some w ∧ w.step s = none

/-- The walks over some functions note the states of their instructions, in order. -/
theorem exists_leaves (s : MulStrategy) (funcs : List Func) : ∃ walks, List.Forall₂ (Leaves s) funcs walks ∧
    walks.flatMap states = (funcs.flatMap Func.instrs).map stateOf := by
  induction funcs with
  | nil => exact ⟨[], .nil, rfl⟩
  | cons f rest ih =>
    obtain ⟨walks, leave, noted⟩ := ih
    obtain ⟨w, reached, last, _, states, _⟩ := (covers_guard s f).ends
    refine ⟨w :: walks, .cons ⟨reached, last⟩ leave, ?_⟩
    rw [List.flatMap_cons, List.flatMap_cons, List.map_append, states, noted]

theorem count_instrumented (instrs : List Instr) :
    (instrs.map stateOf).count .instrumented = instrs.countP fun i => (candidate? i).isSome := by
  rw [List.count, List.countP_map]
  congr 1
  funext i
  cases found : candidate? i <;> simp [stateOf, found]

theorem count_unchanged (instrs : List Instr) :
    (instrs.map stateOf).count .unchanged = instrs.countP fun i => (candidate? i).isNone := by
  rw [List.count, List.countP_map]
  congr 1
  funext i
  cases found : candidate? i <;> simp [stateOf, found]

end Walk

structure SplitFunc (s : MulStrategy) (f f' : Func) : Prop where
  name : f'.name = f.name
  ret : f'.ret = f.ret
  params : f'.params = f.params
  blocks : ∃ groups, f'.blocks = groups.flatten ∧ List.Forall₂ (SplitInto s) f.blocks groups

theorem guard_split (s : MulStrategy) (f : Func) : SplitFunc s f (f.guard s) :=
  ⟨rfl, rfl, rfl, guardBlocks_split s f.blocks (.ofFunc f)⟩

end GuardedIL.Overflow

namespace GuardedIL.Program

open Overflow

theorem guard_stats {p : Program} {o : Options} {g : Guarded} (ok : p.guard o true = .ok g) :
    g.stats = { visited := p.instrCount, instrumented := p.candidateCount } := by
  unfold Program.guard at ok
  split at ok
  · simp at ok
  · simp only [not_true_eq_false, if_false] at ok
    by_cases none : p.candidateCount = 0
    · rw [if_pos none] at ok
      obtain rfl := Except.ok.inj ok
      rfl
    · rw [if_neg none] at ok
      cases declared : p.declarePanic with
      | error e => simp [declared, bind, Except.bind] at ok
      | ok d =>
        rw [declared] at ok
        obtain rfl := Except.ok.inj ok
        rfl

theorem guard_stats_counts {p : Program} {o : Options} {g : Guarded} (ok : p.guard o true = .ok g) :
    g.stats.visited = p.instrs.length ∧
    g.stats.instrumented = p.instrs.countP (fun i => (candidate? i).isSome) ∧
    g.stats.unchanged = p.instrs.countP (fun i => (candidate? i).isNone) := by
  have stats := guard_stats ok
  refine ⟨by rw [stats]; rfl, by rw [stats]; rfl, ?_⟩
  have both : p.instrs.length = p.instrs.countP (fun i => (candidate? i).isSome) +
      p.instrs.countP (fun i => (candidate? i).isNone) := by
    rw [List.length_eq_countP_add_countP fun i => (candidate? i).isSome]
    congr 2
    funext i
    cases candidate? i <;> rfl
  rw [Stats.unchanged, stats]
  simp only [instrCount, candidateCount, Overflow.candidateCount]
  omega

/-- Guarding splits the blocks of every function at their candidates and loses, repeats and moves
nothing, whether the program is accepted or not. The walk that does so visits every instruction once,
and the numbers reported are those of its visits. -/
theorem guard_covers {p : Program} {o : Options} {g : Guarded} (ok : p.guard o true = .ok g) :
    List.Forall₂ (fun f f' => SplitFunc o.mul f f' ∧ Walk.Covers o.mul f f') p.funcs g.program.funcs ∧
    (∃ walks, List.Forall₂ (Walk.Leaves o.mul) p.funcs walks ∧
      g.stats.visited = (walks.flatMap Walk.states).length ∧
      g.stats.instrumented = (walks.flatMap Walk.states).count .instrumented ∧
      g.stats.unchanged = (walks.flatMap Walk.states).count .unchanged) ∧
    g.stats.visited = p.instrs.length ∧
    g.stats.instrumented = p.instrs.countP (fun i => (candidate? i).isSome) ∧
    g.stats.unchanged = p.instrs.countP (fun i => (candidate? i).isNone) := by
  obtain ⟨visited, instrumented, unchanged⟩ := guard_stats_counts ok
  refine ⟨?_, ?_, visited, instrumented, unchanged⟩
  · rw [(guardedBy_of_guard ok).funcs, List.forall₂_map_right_iff, List.forall₂_same]
    exact fun f _ => ⟨guard_split o.mul f, Walk.covers_guard o.mul f⟩
  · obtain ⟨walks, leave, noted⟩ := Walk.exists_leaves o.mul p.funcs
    refine ⟨walks, leave, ?_⟩
    rw [noted, List.length_map, Walk.count_instrumented, Walk.count_unchanged]
    exact ⟨visited, instrumented, unchanged⟩

/-- Two blocks of one label, of which the first goes on after its return and the second has no end. One
of the differences is marked already. -/
def untidy : Program where
  funcs := [{
    name := "f"
    ret := .i32
    params := [{ name := "x", ty := .i32, id := 0 }]
    blocks := [
      { label := faultLabel 0
        instrs := [
          { result := some 1, op := .arith .mul, ty := .i32, args := [.temp 0, .temp 0] },
          { op := .ret, args := [.temp 1] },
          { result := some 2, op := .arith .sdiv, ty := .i8, args := [.int 300, .temp 9] }] },
      { label := faultLabel 0, params := [{ name := "y", ty := .i16, id := 3 }]
        instrs := [
          { result := some 4, op := .arith .sub, ty := .i16, args := [.temp 3, .int 1], checked := true },
          { result := some 4, op := .arith .sub, ty := .i16, args := [.temp 3, .int 1] }] }] }]

theorem guard_covers_untidy : untidy.verify ≠ .ok () ∧ ∃ g, untidy.guard {} true = .ok g ∧
    (∃ f' ∈ g.program.funcs, f'.blocks.length = 8 ∧ SplitFunc .widen untidy.funcs[0] f' ∧
      Walk.Covers .widen untidy.funcs[0] f') ∧
    g.stats.visited = 5 ∧ g.stats.instrumented = 3 ∧ g.stats.unchanged = 2 := by
  have refused : untidy.verify ≠ .ok () := by decide +kernel
  have count : (untidy.guard {} true).toOption.map (fun g => g.program.funcs.map (·.blocks.length)) =
      some [8] := by decide +kernel
  cases ok : untidy.guard {} true with
  | error e => simp [ok, Except.toOption] at count
  | ok g =>
    obtain ⟨funcs, _, visited, instrumented, unchanged⟩ := guard_covers ok
    refine ⟨refused, g, rfl, ?_, ?_, ?_, ?_⟩
    · simp only [ok, Except.toOption, Option.map_some, Option.some.injEq] at count
      obtain ⟨f', rest, ⟨split, covers⟩, _, same⟩ := List.forall₂_cons_left_iff.mp funcs
      rw [same] at count ⊢
      exact ⟨f', List.mem_cons_self, (List.cons.inj count).1, split, covers⟩
    · rw [visited]
      decide +kernel
    · rw [instrumented]
      decide +kernel
    · rw [unchanged]
      decide +kernel

end GuardedIL.Program

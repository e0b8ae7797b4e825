import GuardedIL.Draft
import GuardedIL.Proofs.Accepted

/-!
# Drafts in single-assignment form

A draft numbers the temporaries of the function that was started last by one counter, which parameters,
block parameters, results and calls with a chosen destination all advance. The numbers that are taken, by
a definition or by a reservation that is still open, stay distinct and below the counter; one lemma,
`Numbered.step`, says when taking more of them keeps that, and `next_tidy` goes through the actions.
Reservations end with their function: a number reserved in one may be taken in the next
(`reservation_outlives_function`).
-/

namespace GuardedIL

/-! ### Actions -/

namespace Draft

inductive Action where
  | addExtern (e : Extern)
  | addGlobal (name init : String)
  | startFunc (name : String) (ret : Ty) (params : List Param)
  | addBlock (func : Nat) (label : String) (params : List Param)
  | setPlace (func block : Nat)
  | reserve
  | binary (op : Opcode) (ty : Ty) (a b : Operand) (loc : Loc)
  | compare (op : Opcode) (a b : Operand) (loc : Loc)
  | cast (op : Opcode) (ty : Ty) (a : Operand) (loc : Loc)
  | br (target : Block) (args : List Operand)
  | cbr (condition : Operand) (yes : Block) (yesArgs : List Operand) (no : Block) (noArgs : List Operand)
  | ret (value : Option Operand) (loc : Loc)
  | trap (loc : Loc)
  | call (callee : String) (args : List Operand) (result : Option TempId) (loc : Loc)

/-- Carries out an action. The draft goes on after an error too. -/
def perform (d : Draft) : Action → Except DraftError Unit × Draft
  | .addExtern e => (.ok (), d.addExtern e)
  | .addGlobal name init => (.ok (), d.addGlobal name init)
  | .startFunc name ret params => (.ok (), d.startFunc name ret params)
  | .addBlock func label params => (.ok (), d.addBlock func label params)
  | .setPlace func block => (.ok (), d.setPlace func block)
  | .reserve => (.ok (), d.reserve.2)
  | .binary op ty a b loc => (.ok (), (d.binary op ty a b loc).2)
  | .compare op a b loc => (.ok (), (d.compare op a b loc).2)
  | .cast op ty a loc => (.ok (), (d.cast op ty a loc).2)
  | .br target args => (.ok (), d.br target args)
  | .cbr condition yes yesArgs no noArgs => (.ok (), d.cbr condition yes yesArgs no noArgs)
  | .ret value loc => (.ok (), d.ret value loc)
  | .trap loc => (.ok (), d.trap loc)
  | .call callee args result loc =>
    match d.call callee args result loc with
    | .ok d' => (.ok (), d')
    | .error e => (.error e, d)

section Call

variable {d : Draft} {callee : String} {args : List Operand} {result : Option TempId} {loc : Loc}

theorem perform_call_ok {d' : Draft} (made : d.call callee args result loc = .ok d') :
    d.perform (.call callee args result loc) = (.ok (), d') := by
  simp only [perform, made]

theorem perform_call_error {e : DraftError} (failed : d.call callee args result loc = .error e) :
    d.perform (.call callee args result loc) = (.error e, d) := by
  simp only [perform, failed]

theorem call_unknown (unknown : d.callees.lookup callee = none) :
    d.call callee args result loc = .error (.unknownCallee callee) := by
  unfold Draft.call
  rw [unknown]

theorem call_known (known : d.callees.lookup callee ≠ none) : ∃ d', d.call callee args result loc = .ok d' := by
  obtain ⟨ty, found⟩ := Option.ne_none_iff_exists'.mp known
  unfold Draft.call
  rw [found]
  exact ⟨_, rfl⟩

end Call

namespace Action

def target? : Action → Option Nat
  | .addBlock func _ _ | .setPlace func _ => some func
  | _ => none

def chosen? : Action → Option (Nat × Nat)
  | .setPlace func block => some (func, block)
  | _ => none

/-- Whether an action adds an instruction. A call of something unknown fails before it does. -/
def emits (d : Draft) : Action → Bool
  | .binary .. | .compare .. | .cast .. | .br .. | .cbr .. | .ret .. | .trap .. => true
  | .call callee .. => (d.callees.lookup callee).isSome
  | _ => false

def destination? : Action → Option TempId
  | .call _ _ result _ => result
  | _ => none

/-- The numbers of temporaries that an action brings in. -/
def numbers (d : Draft) : Action → List Nat
  | .startFunc _ _ params => List.range params.length
  | .addBlock _ _ params => List.range' d.nextTemp.toNat params.length
  | .reserve | .binary .. | .compare .. | .cast .. => [d.nextTemp.toNat]
  | .call _ _ (some id) _ => [id.toNat]
  | _ => []

end Action

def hasBlock (d : Draft) (func block : Nat) : Bool :=
  d.program.funcs[func]?.any fun f => block < f.blocks.length

/-- A draft with its history. A place stands for a reference to a block and is lost when a block or a function
is made; `placed` says that one was chosen since. `reserved` are the temporaries of the current function that
were reserved by hand and are no destination yet, `everReserved` and `everUsed` all that were reserved and that
were destinations in any function. -/
structure Session where
  draft : Draft
  placed : Bool := false
  reserved : List TempId := []
  everReserved : List TempId := []
  everUsed : List TempId := []

namespace Session

def next (s : Session) (a : Action) : Session :=
  let draft := (s.draft.perform a).2
  match a, (s.draft.perform a).1 with
  | .startFunc .., _ => { s with draft, placed := false, reserved := [] }
  | .addBlock .., _ => { s with draft, placed := false }
  | .setPlace .., _ => { s with draft, placed := true }
  | .reserve, _ =>
    { s with
      draft
      reserved := s.draft.reserve.1 :: s.reserved
      everReserved := s.draft.reserve.1 :: s.everReserved }
  | .call _ _ (some id) _, .ok () =>
    { s with draft, reserved := s.reserved.erase id, everUsed := id :: s.everUsed }
  | _, _ => { s with draft }

def run (s : Session) (actions : List Action) : Session :=
  actions.foldl next s

/-- Reserved since the start of the current function, and no destination since. -/
def reservedHere (s : Session) (id : TempId) : Bool :=
  s.reserved.contains id

/-- Reserved at any time, and never a destination. -/
def reservedBefore (s : Session) (id : TempId) : Bool :=
  s.everReserved.contains id && !s.everUsed.contains id

/-- Blocks are made and chosen in the current function, instructions are added at a place that is good, a
destination is reserved or new, and no temporary has the greatest number. -/
structure Permits (allowed : Session → TempId → Bool) (s : Session) (a : Action) : Prop where
  target : ∀ func ∈ a.target?, s.draft.current = some func
  chosen : ∀ place ∈ a.chosen?, s.draft.hasBlock place.1 place.2 = true
  placed : a.emits s.draft = true → s.placed = true
  destination : ∀ id ∈ a.destination?, allowed s id = true ∨ s.draft.nextTemp ≤ id
  room : ∀ n ∈ a.numbers s.draft, n < 2 ^ 32 - 1

instance (allowed : Session → TempId → Bool) (s : Session) (a : Action) : Decidable (s.Permits allowed a) :=
  -- The general instance would go through all the numbers that a word can hold.
  have : Decidable (∀ id ∈ a.destination?, allowed s id = true ∨ s.draft.nextTemp ≤ id) :=
    Option.decidableForallMem a.destination?
  decidable_of_iff
    ((∀ func ∈ a.target?, s.draft.current = some func) ∧
      (∀ place ∈ a.chosen?, s.draft.hasBlock place.1 place.2 = true) ∧
      (a.emits s.draft = true → s.placed = true) ∧
      (∀ id ∈ a.destination?, allowed s id = true ∨ s.draft.nextTemp ≤ id) ∧
      ∀ n ∈ a.numbers s.draft, n < 2 ^ 32 - 1)
    ⟨fun ⟨target, chosen, placed, destination, room⟩ => ⟨target, chosen, placed, destination, room⟩,
      fun ⟨target, chosen, placed, destination, room⟩ => ⟨target, chosen, placed, destination, room⟩⟩

def Follows (allowed : Session → TempId → Bool) (s : Session) : List Action → Prop
  | [] => True
  | a :: rest => s.Permits allowed a ∧ (s.next a).Follows allowed rest

instance decidableFollows (allowed : Session → TempId → Bool) (s : Session) :
    (actions : List Action) → Decidable (s.Follows allowed actions)
  | [] => .isTrue trivial
  | a :: rest =>
    have := decidableFollows allowed (s.next a) rest
    inferInstanceAs (Decidable (s.Permits allowed a ∧ (s.next a).Follows allowed rest))

end Session

end Draft

/-! ### Numbers that are taken -/

def Block.ids (b : Block) : List TempId :=
  b.params.map (·.id) ++ b.instrs.filterMap (·.result)

/-- The temporaries of parameters, block parameters and results. -/
def Func.ids (f : Func) : List TempId :=
  f.params.map (·.id) ++ f.blocks.flatMap Block.ids

theorem Block.defs_map_id (b : Block) : b.defs.map Def.id = b.ids := by
  unfold Block.defs Block.ids
  rw [List.map_append, List.map_map, List.map_filterMap]
  congr 2
  funext i
  cases i.result <;> rfl

theorem Func.defs_map_id (f : Func) : f.defs.map Def.id = f.ids := by
  unfold Func.defs Func.ids
  rw [List.map_append, List.map_map, List.map_flatMap]
  simp only [Block.defs_map_id]
  rfl

theorem Func.collect_of_nodup {f : Func} (distinct : f.ids.Nodup) : f.collect.2 = none := by
  have collected := (@Typing.collect_spec [] f.defs).1
  rw [Func.defs_map_id] at collected
  show (Scope.collect [] f.defs).2.map Typing.redefinition = none
  rw [collected.mpr ⟨distinct, by simp⟩]
  rfl

namespace Draft

structure Numbered (taken : List TempId) (next : TempId) : Prop where
  nodup : taken.Nodup
  below : ∀ id ∈ taken, id < next

/-- Numbers from the counter on may be taken if the counter passes them. -/
theorem Numbered.step {taken taken' : List TempId} {next next' : TempId} (numbered : Numbered taken next)
    (new : List TempId) (distinct : new.Nodup) (fresh : ∀ id ∈ new, next ≤ id ∧ id < next') (le : next ≤ next')
    (perm : taken'.Perm (new ++ taken)) : Numbered taken' next' := by
  have apart : (new ++ taken).Nodup := by
    refine List.nodup_append.mpr ⟨distinct, numbered.nodup, ?_⟩
    rintro id inNew _ inTaken rfl
    exact absurd (numbered.below id inTaken) (UInt32.not_lt.mpr (fresh id inNew).1)
  refine ⟨perm.nodup_iff.mpr apart, fun id member => ?_⟩
  rcases List.mem_append.mp (perm.mem_iff.mp member) with isNew | old
  · exact (fresh id isNew).2
  · exact UInt32.lt_of_lt_of_le (numbered.below id old) le

theorem toNat_succ {id : TempId} (room : id.toNat < 2 ^ 32 - 1) : (id + 1).toNat = id.toNat + 1 := by
  rw [UInt32.toNat_add, UInt32.toNat_one]
  exact Nat.mod_eq_of_lt (by omega)

theorem lt_succ {id : TempId} (room : id.toNat < 2 ^ 32 - 1) : id < id + 1 := by
  rw [UInt32.lt_iff_toNat_lt, toNat_succ room]
  omega

theorem numberParams_ids {next : TempId} {params : List Param}
    (room : ∀ n ∈ List.range' next.toNat params.length, n < 2 ^ 32 - 1) :
    ((numberParams next params).1.map (·.id)).map UInt32.toNat = List.range' next.toNat params.length ∧
    (numberParams next params).2.toNat = next.toNat + params.length := by
  induction params generalizing next with
  | nil => simp [numberParams]
  | cons p rest ih =>
    rw [List.length_cons, List.range'_succ] at room ⊢
    have first := toNat_succ (room next.toNat List.mem_cons_self)
    have later := @ih (next + 1) (by
      rw [first]
      exact fun n member => room n (List.mem_cons_of_mem _ member))
    rw [first] at later
    simp only [numberParams, List.map_cons, later.1, later.2, true_and]
    omega

theorem numberParams_length (next : TempId) (params : List Param) :
    (numberParams next params).1.length = params.length := by
  induction params generalizing next with
  | nil => rfl
  | cons p rest ih => simp [numberParams, ih]

section Params

variable {next : TempId} {params : List Param}
  (room : ∀ n ∈ List.range' next.toNat params.length, n < 2 ^ 32 - 1)
include room

theorem numberParams_nodup : ((numberParams next params).1.map (·.id)).Nodup := by
  have distinct : (((numberParams next params).1.map (·.id)).map UInt32.toNat).Nodup := by
    rw [(numberParams_ids room).1]
    exact List.nodup_range'
  exact List.Nodup.of_map _ distinct

theorem numberParams_fresh : ∀ id ∈ (numberParams next params).1.map (·.id),
    next ≤ id ∧ id < (numberParams next params).2 := by
  obtain ⟨ids, last⟩ := numberParams_ids room
  intro id member
  have inside : id.toNat ∈ List.range' next.toNat params.length := ids ▸ List.mem_map_of_mem member
  rw [List.mem_range'_1] at inside
  rw [UInt32.le_iff_toNat_le, UInt32.lt_iff_toNat_lt, last]
  exact inside

theorem numberParams_le : next ≤ (numberParams next params).2 := by
  rw [UInt32.le_iff_toNat_le, (numberParams_ids room).2]
  omega

end Params

/-! ### Names -/

theorem length_coverName {names : List String} {id : TempId} (room : id.toNat < 2 ^ 32 - 1)
    (short : names.length ≤ id.toNat) : (coverName names id).length = id.toNat + 1 := by
  rw [coverName, if_pos short, resizeNames, toNat_succ room, List.length_append, List.length_take,
    List.length_replicate]
  omega

theorem length_nameParams {next : TempId} {params : List Param} {names : List String}
    (room : ∀ n ∈ List.range' next.toNat params.length, n < 2 ^ 32 - 1) (named : names.length = next.toNat) :
    ((numberParams next params).1.foldl nameParam names).length = next.toNat + params.length := by
  induction params generalizing next names with
  | nil => simpa [numberParams] using named
  | cons p rest ih =>
    rw [List.length_cons, List.range'_succ] at room
    have here := room next.toNat List.mem_cons_self
    have first := toNat_succ here
    have longer : (nameParam names { p with id := next }).length = (next + 1).toNat := by
      rw [nameParam, List.length_set, length_coverName here named.le, first]
    have later := ih (by
      rw [first]
      exact fun n member => room n (List.mem_cons_of_mem _ member)) longer
    simp only [numberParams, List.foldl_cons, List.length_cons]
    rw [later, first]
    omega

/-! ### The current function -/

/-- The draft is at work on its last function, which is `f`. -/
structure Writes (d : Draft) (f : Func) : Prop where
  last : d.program.funcs.getLast? = some f
  current : d.current = some (d.program.funcs.length - 1)

/-- The place of the draft is a block of its last function, which is `f`. -/
def Placed (d : Draft) (f : Func) : Prop :=
  ∃ block < f.blocks.length, d.place = some (d.program.funcs.length - 1, block)

section Writes

variable {d : Draft} {f : Func}

theorem length_modifyFunc (d : Draft) (n : Nat) (change : Func → Func) :
    (d.modifyFunc n change).program.funcs.length = d.program.funcs.length :=
  List.length_modify _ _ _

theorem Writes.modifyFunc (writes : Writes d f) {n : Nat} (current : d.current = some n)
    (change : Func → Func) : Writes (d.modifyFunc n change) (change f) := by
  obtain rfl : d.program.funcs.length - 1 = n := Option.some.inj (writes.current.symm.trans current)
  have last := writes.last
  refine ⟨?_, ?_⟩
  · rw [List.getLast?_eq_getElem?] at last ⊢
    rw [length_modifyFunc, Draft.modifyFunc, List.getElem?_modify_eq, last]
    rfl
  · rw [length_modifyFunc]
    exact writes.current

theorem Placed.modifyFunc (placed : Placed d f) (n : Nat) {change : Func → Func}
    (same : (change f).blocks.length = f.blocks.length) : Placed (d.modifyFunc n change) (change f) := by
  obtain ⟨block, inside, place⟩ := placed
  refine ⟨block, by rwa [same], ?_⟩
  rw [length_modifyFunc]
  exact place

theorem Writes.count (writes : Writes d f) (next : TempId) : Writes { d with nextTemp := next } f :=
  ⟨writes.last, writes.current⟩

theorem Writes.hasBlock (writes : Writes d f) {func block : Nat} (current : d.current = some func) :
    d.hasBlock func block = true ↔ block < f.blocks.length := by
  obtain rfl : d.program.funcs.length - 1 = func := Option.some.inj (writes.current.symm.trans current)
  have last := writes.last
  rw [List.getLast?_eq_getElem?] at last
  simp [Draft.hasBlock, last]

theorem ids_added (b : Block) (i : Instr) (terminated : Bool) :
    Block.ids { b with instrs := b.instrs ++ [i], terminated } = b.ids ++ i.result.toList := by
  unfold Block.ids
  rw [List.filterMap_append, List.append_assoc]
  cases result : i.result <;> simp [result]

/-- Adding an instruction to a block adds its result to the temporaries. -/
theorem ids_modify {blocks : List Block} {n : Nat} (inside : n < blocks.length) (i : Instr)
    (terminated : Block → Bool) :
    ((blocks.modify n fun b => { b with instrs := b.instrs ++ [i], terminated := terminated b }).flatMap
      Block.ids).Perm (i.result.toList ++ blocks.flatMap Block.ids) := by
  induction blocks generalizing n with
  | nil => simp at inside
  | cons b rest ih =>
    cases n with
    | zero =>
      rw [List.modify_zero_cons, List.flatMap_cons, List.flatMap_cons, ids_added, ← List.append_assoc]
      exact List.perm_append_comm.append_right _
    | succ n =>
      rw [List.modify_succ_cons, List.flatMap_cons, List.flatMap_cons]
      have later := (ih (Nat.lt_of_succ_lt_succ inside)).append_left b.ids
      rw [← List.append_assoc] at later ⊢
      exact later.trans (List.perm_append_comm.append_right _)

/-- An added instruction defines its result and nothing else. -/
theorem Writes.append (writes : Writes d f) (placed : Placed d f) (i : Instr) :
    ∃ f', Writes (d.append i) f' ∧ Placed (d.append i) f' ∧ f'.ids.Perm (i.result.toList ++ f.ids) ∧
      f'.valueNames = f.valueNames ∧ (d.append i).nextTemp = d.nextTemp := by
  obtain ⟨block, inside, place⟩ := placed
  unfold Draft.append
  rw [place]
  refine ⟨_, writes.modifyFunc writes.current _,
    Placed.modifyFunc ⟨block, inside, place⟩ _ (List.length_modify _ _ _), ?_, rfl, rfl⟩
  have blocks := (ids_modify inside i fun b => b.terminated || i.op.isTerminator).append_left
    (f.params.map (·.id))
  unfold Func.ids
  rw [← List.append_assoc] at blocks ⊢
  exact blocks.trans (List.perm_append_comm.append_right _)

end Writes

/-! ### Sessions -/

/-- The temporaries that are defined or reserved in the current function `f` are distinct and below the
counter, and each number below it has a name. -/
structure Tidy (d : Draft) (reserved : List TempId) (f : Func) : Prop where
  writes : Writes d f
  numbered : Numbered (f.ids ++ reserved) d.nextTemp
  names : f.valueNames.length = d.nextTemp.toNat

section Tidy

variable {d : Draft} {reserved : List TempId} {f : Func}

theorem reserve_eq (d : Draft) : d.reserve = (d.nextTemp, d.passOver d.nextTemp) := by
  obtain ⟨program, callees, next, current, place⟩ := d
  unfold Draft.reserve Draft.passOver Draft.modifyCurrent
  rw [if_neg (UInt32.lt_irrefl _)]
  cases current <;> rfl

/-- A number from the counter on is reserved when the counter passes it. -/
theorem passOver_tidy (tidy : Tidy d reserved f) {id : TempId} (new : d.nextTemp ≤ id)
    (room : id.toNat < 2 ^ 32 - 1) :
    ∃ f', Tidy (d.passOver id) (id :: reserved) f' ∧ (Placed d f → Placed (d.passOver id) f') := by
  have passed : d.passOver id = { d with nextTemp := id + 1 }.modifyFunc (d.program.funcs.length - 1)
      fun f => { f with valueNames := coverName f.valueNames id } := by
    unfold Draft.passOver Draft.modifyCurrent
    rw [if_neg (UInt32.not_lt.mpr new)]
    dsimp only
    rw [tidy.writes.current]
  rw [passed]
  refine ⟨{ f with valueNames := coverName f.valueNames id }, ⟨?_, ?_, ?_⟩, fun placed => ?_⟩
  · exact (tidy.writes.count (id + 1)).modifyFunc tidy.writes.current fun f =>
      { f with valueNames := coverName f.valueNames id }
  · refine tidy.numbered.step [id] (List.nodup_singleton id) ?_ ?_ List.perm_middle
    · intro other member
      obtain rfl := List.mem_singleton.mp member
      exact ⟨new, lt_succ room⟩
    · exact UInt32.le_trans new (UInt32.le_of_lt (lt_succ room))
  · have short := tidy.names.le.trans (UInt32.le_iff_toNat_le.mp new)
    exact (length_coverName room short).trans (toNat_succ room).symm
  · exact Placed.modifyFunc (d := { d with nextTemp := id + 1 }) placed _ rfl

/-- A reserved number may become the result of an added instruction; those in `left` stay reserved. -/
theorem append_tidy (tidy : Tidy d reserved f) (placed : Placed d f) {i : Instr} {left : List TempId}
    (moved : (i.result.toList ++ left).Perm reserved) :
    ∃ f', Tidy (d.append i) left f' ∧ Placed (d.append i) f' := by
  obtain ⟨f', writes, placed', ids, names, next⟩ := tidy.writes.append placed i
  refine ⟨f', ⟨writes, ?_, by rw [names, tidy.names, next]⟩, placed'⟩
  rw [next]
  refine tidy.numbered.step [] .nil (by simp) (UInt32.le_refl _) ?_
  have behind : (f'.ids ++ left).Perm (f.ids ++ (i.result.toList ++ left)) := by
    rw [← List.append_assoc]
    exact (ids.trans List.perm_append_comm).append_right _
  exact behind.trans (moved.append_left _)

theorem emit_tidy (tidy : Tidy d reserved f) (placed : Placed d f) (i : Instr)
    (room : d.nextTemp.toNat < 2 ^ 32 - 1) :
    ∃ f', Tidy (d.emit i).2 reserved f' ∧ Placed (d.emit i).2 f' := by
  obtain ⟨f', reservedNext, kept⟩ := passOver_tidy tidy (UInt32.le_refl _) room
  unfold Draft.emit
  rw [reserve_eq]
  exact append_tidy reservedNext (kept placed) (.refl _)

theorem addBlock_tidy (tidy : Tidy d reserved f) {func : Nat} (current : d.current = some func)
    (label : String) {params : List Param}
    (room : ∀ n ∈ List.range' d.nextTemp.toNat params.length, n < 2 ^ 32 - 1) :
    ∃ f', Tidy (d.addBlock func label params) reserved f' := by
  let numbered := (numberParams d.nextTemp params).1
  let f' : Func := { f with
    blocks := f.blocks ++ [{ label, params := numbered }]
    valueNames := numbered.foldl nameParam f.valueNames }
  have ids : f'.ids = f.ids ++ numbered.map (·.id) := by
    simp [f', Func.ids, Block.ids]
  refine ⟨f', ?_, ?_, ?_⟩
  · exact (tidy.writes.count (numberParams d.nextTemp params).2).modifyFunc current fun f =>
      { f with
        blocks := f.blocks ++ [{ label, params := numbered }]
        valueNames := numbered.foldl nameParam f.valueNames }
  · refine tidy.numbered.step _ (numberParams_nodup room) (numberParams_fresh room) (numberParams_le room) ?_
    rw [ids, ← List.append_assoc]
    exact List.perm_append_comm.append_right _
  · show (numbered.foldl nameParam f.valueNames).length = (numberParams d.nextTemp params).2.toNat
    rw [(numberParams_ids room).2]
    exact length_nameParams room tidy.names

theorem startFunc_tidy (d : Draft) (name : String) (ret : Ty) {params : List Param}
    (room : ∀ n ∈ List.range params.length, n < 2 ^ 32 - 1) :
    ∃ f, Tidy (d.startFunc name ret params) [] f := by
  let numbered := (numberParams 0 params).1
  let f : Func := { name, ret, params := numbered, valueNames := numbered.map (·.name) }
  have room' : ∀ n ∈ List.range' (0 : TempId).toNat params.length, n < 2 ^ 32 - 1 := by
    rwa [UInt32.toNat_zero, ← List.range_eq_range']
  have funcs : (d.startFunc name ret params).program.funcs = d.program.funcs ++ [f] := rfl
  have ids : f.ids ++ [] = numbered.map (·.id) ++ [] := by simp [f, Func.ids]
  refine ⟨f, ⟨?_, ?_⟩, ?_, ?_⟩
  · rw [funcs, List.getLast?_concat]
  · rw [funcs, List.length_append, List.length_singleton, Nat.add_sub_cancel]
    rfl
  · have none : Numbered [] 0 := ⟨.nil, by simp⟩
    refine none.step _ (numberParams_nodup room') (numberParams_fresh room') (numberParams_le room') ?_
    rw [ids]
  · show (numbered.map (·.name)).length = (numberParams 0 params).2.toNat
    rw [(numberParams_ids room').2, List.length_map, numberParams_length, UInt32.toNat_zero, Nat.zero_add]

theorem call_tidy (tidy : Tidy d reserved f) (placed : Placed d f) {callee : String} {args : List Operand}
    {result : Option TempId} {loc : Loc} {d' : Draft} (made : d.call callee args result loc = .ok d')
    (destination : ∀ id ∈ result, id ∈ reserved ∨ d.nextTemp ≤ id)
    (room : ∀ id ∈ result, id.toNat < 2 ^ 32 - 1) :
    ∃ f', Tidy d' (result.elim reserved reserved.erase) f' ∧ Placed d' f' := by
  unfold Draft.call at made
  split at made
  · simp at made
  · rename_i ty known
    obtain rfl := Except.ok.inj made
    cases result with
    | none => exact append_tidy tidy placed (.refl _)
    | some id =>
      rcases destination id rfl with kept | new
      · have early := tidy.numbered.below id (List.mem_append_right _ kept)
        unfold Draft.passOver
        dsimp only
        rw [if_pos early]
        exact append_tidy tidy placed (List.perm_cons_erase kept).symm
      · -- The counter passes the destination, which is then used at once.
        obtain ⟨f', passed, still⟩ := passOver_tidy tidy new (room id rfl)
        have absent : id ∉ reserved := fun member =>
          UInt32.not_lt.mpr new (tidy.numbered.below id (List.mem_append_right _ member))
        show ∃ f', Tidy _ (reserved.erase id) f' ∧ _
        rw [List.erase_of_not_mem absent]
        exact append_tidy passed (still placed) (.refl _)

end Tidy

/-- The session is tidy, and its place is good if it should be. -/
structure Session.Tidy (s : Session) (f : Func) : Prop where
  tidy : Draft.Tidy s.draft s.reserved f
  placed : s.placed = true → Placed s.draft f

theorem Session.tidy_of_placed {s : Session} (good : ∃ f, Draft.Tidy s.draft s.reserved f ∧ Placed s.draft f) :
    ∃ f, s.Tidy f :=
  good.imp fun _ ⟨tidy, placed⟩ => ⟨tidy, fun _ => placed⟩

theorem Session.next_tidy {s : Session} {f : Func} {a : Action} (tidy : s.Tidy f)
    (permits : s.Permits reservedHere a) : ∃ f', (s.next a).Tidy f' := by
  obtain ⟨tidy, placed⟩ := tidy
  have writes := tidy.writes
  cases a with
  | addExtern e => exact ⟨f, ⟨⟨writes.last, writes.current⟩, tidy.numbered, tidy.names⟩, placed⟩
  | addGlobal name init => exact ⟨f, ⟨⟨writes.last, writes.current⟩, tidy.numbered, tidy.names⟩, placed⟩
  | startFunc name ret params =>
    obtain ⟨f', tidy'⟩ := startFunc_tidy s.draft name ret permits.room
    exact ⟨f', tidy', by simp [next]⟩
  | addBlock func label params =>
    obtain ⟨f', tidy'⟩ := addBlock_tidy tidy (permits.target func rfl) label permits.room
    exact ⟨f', tidy', by simp [next]⟩
  | setPlace func block =>
    have current := permits.target func rfl
    have inside := (writes.hasBlock current).mp (permits.chosen (func, block) rfl)
    have last : func = s.draft.program.funcs.length - 1 := Option.some.inj (current.symm.trans writes.current)
    refine ⟨f, ⟨⟨writes.last, writes.current⟩, tidy.numbered, tidy.names⟩, fun _ => ⟨block, inside, ?_⟩⟩
    show some (func, block) = _
    rw [last]
    rfl
  | reserve =>
    obtain ⟨f', passed, kept⟩ := passOver_tidy tidy (UInt32.le_refl _) (permits.room _ List.mem_cons_self)
    refine ⟨f', ?_, fun isPlaced => ?_⟩
    · show Draft.Tidy s.draft.reserve.2 (s.draft.reserve.1 :: s.reserved) f'
      rw [reserve_eq]
      exact passed
    · show Placed s.draft.reserve.2 f'
      rw [reserve_eq]
      exact kept (placed isPlaced)
  | binary | compare | cast =>
    exact tidy_of_placed (emit_tidy tidy (placed (permits.placed rfl)) _ (permits.room _ List.mem_cons_self))
  | br | cbr | ret | trap =>
    exact tidy_of_placed (append_tidy tidy (placed (permits.placed rfl)) (.refl _))
  | call callee args result loc =>
    cases made : s.draft.call callee args result loc with
    | error e =>
      have same : s.next (.call callee args result loc) = s := by
        unfold next
        rw [perform_call_error made]
        cases result <;> rfl
      rw [same]
      exact ⟨f, tidy, placed⟩
    | ok d' =>
      have known : (s.draft.callees.lookup callee).isSome = true := by
        unfold Draft.call at made
        cases found : s.draft.callees.lookup callee with
        | none => simp [found] at made
        | some ty => rfl
      have room : ∀ id ∈ result, id.toNat < 2 ^ 32 - 1 := by
        rintro id rfl
        exact permits.room _ List.mem_cons_self
      have destination : ∀ id ∈ result, id ∈ s.reserved ∨ s.draft.nextTemp ≤ id := by
        intro id given
        exact (permits.destination id given).imp_left List.contains_iff_mem.mp
      have called := call_tidy tidy (placed (permits.placed known)) made destination room
      unfold next
      rw [perform_call_ok made]
      cases result with
      | none => exact tidy_of_placed called
      | some id => exact tidy_of_placed called

theorem Session.run_tidy {s : Session} {f : Func} {actions : List Action} (tidy : s.Tidy f)
    (follows : s.Follows reservedHere actions) : ∃ f', (s.run actions).Tidy f' := by
  induction actions generalizing s f with
  | nil => exact ⟨f, tidy⟩
  | cons a rest ih =>
    obtain ⟨f', tidy'⟩ := next_tidy tidy follows.1
    exact ih tidy' follows.2

theorem Session.follows_of_append {allowed : Session → TempId → Bool} {s : Session} {done rest : List Action}
    (follows : s.Follows allowed (done ++ rest)) : s.Follows allowed done := by
  induction done generalizing s with
  | nil => trivial
  | cons a done ih => exact ⟨follows.1, ih follows.2⟩

/-- From the start of a function on, after every action that keeps to the rules, the function that was
started last defines each temporary once and below the counter, has a name for each number below it, and its
temporaries can be collected. A call of something unknown fails and changes nothing. -/
theorem actions_keep_single_assignment {d : Draft} {name : String} {ret : Ty} {params : List Param}
    {actions : List Action}
    (follows : Session.Follows Session.reservedHere { draft := d } (.startFunc name ret params :: actions)) :
    (∀ done rest, actions = done ++ rest →
      ∃ f, let e := (Session.run { draft := d } (.startFunc name ret params :: done)).draft
        e.program.funcs.getLast? = some f ∧ e.current = some (e.program.funcs.length - 1) ∧
        f.ids.Nodup ∧ (∀ id ∈ f.ids, id < e.nextTemp) ∧ f.valueNames.length = e.nextTemp.toNat ∧
        f.collect.2 = none) ∧
    ∀ (e : Draft) (callee : String) (args : List Operand) (result : Option TempId) (loc : Loc),
      (e.callees.lookup callee = none →
        e.perform (.call callee args result loc) = (.error (.unknownCallee callee), e)) ∧
      (e.callees.lookup callee ≠ none → (e.perform (.call callee args result loc)).1 = .ok ()) := by
  refine ⟨?_, fun e callee args result loc => ⟨fun unknown => ?_, fun known => ?_⟩⟩
  · rintro done rest rfl
    obtain ⟨f, started⟩ := startFunc_tidy d name ret follows.1.room
    obtain ⟨f', tidy, _⟩ := Session.run_tidy (s := Session.next { draft := d } (.startFunc name ret params))
      ⟨started, by simp [Session.next]⟩ (Session.follows_of_append follows.2)
    have ids := tidy.numbered.nodup.of_append_left
    exact ⟨f', tidy.writes.last, tidy.writes.current, ids,
      fun id member => tidy.numbered.below id (List.mem_append_left _ member), tidy.names,
      Func.collect_of_nodup ids⟩
  · exact perform_call_error (call_unknown unknown)
  · obtain ⟨e', made⟩ := call_known known
    rw [perform_call_ok made]

/-- The second function reserves a number and uses it for a call behind others, tries to call something
unknown, skips numbers with another call and goes on. -/
def twoFuncs : List Action :=
  [.startFunc "first" .i32 [{ name := "a", ty := .i32 }, { name := "b", ty := .i32 }],
    .addBlock 0 "entry" [], .setPlace 0 0, .binary (.arith .add) .i32 (.temp 0) (.temp 1) {}, .reserve,
    .startFunc "second" .i32 [{ name := "n", ty := .i32 }],
    .addBlock 1 "entry" [{ name := "k", ty := .i32 }], .setPlace 1 0, .reserve,
    .compare (.compare .slt) (.temp 0) (.temp 1) {}, .call "first" [.temp 0, .temp 1] (some 2) {},
    .call "missing" [] (some 9) {}, .call "first" [.temp 2, .temp 2] (some 7) {},
    .cast (.cast .sext) .i64 (.temp 7) {}, .ret (some (.temp 7)) {}]

theorem actions_keep_single_assignment_twoFuncs :
    Session.Follows Session.reservedHere { draft := {} } twoFuncs ∧
    ∃ f, let e := (Session.run { draft := {} } twoFuncs).draft
      e.program.funcs.getLast? = some f ∧ f.ids = [0, 1, 3, 2, 7, 8] ∧ e.nextTemp = 9 ∧
      f.ids.Nodup ∧ f.collect.2 = none := by
  have follows : Session.Follows Session.reservedHere { draft := {} } twoFuncs := by decide +kernel
  obtain ⟨f, last, _, distinct, _, _, collected⟩ :=
    (actions_keep_single_assignment follows).1 twoFuncs.tail [] rfl
  have ids : (Session.run { draft := {} } twoFuncs).draft.program.funcs.getLast?.map Func.ids =
      some [0, 1, 3, 2, 7, 8] := by decide +kernel
  rw [show (Session.run { draft := {} } twoFuncs).draft.program.funcs.getLast? = some f from last] at ids
  exact ⟨follows, f, last, Option.some.inj ids, by decide +kernel, distinct, collected⟩

/-- The number that is reserved in the first function is that of the parameter of the second. -/
def strayReservation : List Action :=
  [.startFunc "first" .i64 [], .reserve, .startFunc "second" .i64 [{ name := "n", ty := .i64 }],
    .addBlock 1 "entry" [], .setPlace 1 0, .call "first" [] (some 0) {}]

theorem reservation_outlives_function :
    Session.Follows Session.reservedBefore { draft := {} } strayReservation ∧
    ∃ f, (Session.run { draft := {} } strayReservation).draft.program.funcs.getLast? = some f ∧
      f.ids = [0, 0] ∧ f.collect.2 ≠ none := by
  refine ⟨by decide +kernel, _, rfl, by decide +kernel, by decide +kernel⟩

end Draft

end GuardedIL

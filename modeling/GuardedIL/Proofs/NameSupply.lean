import GuardedIL.Proofs.SingleAssignment
import GuardedIL.Proofs.Untouched

/-!
# The supply of names

Guards ask for temporaries and for pairs of labels in any order. Every pair of labels has the least number of
which neither label is in use yet (`labels_least`). Temporaries are numbered upward in 32-bit words and on from
zero, without a look at those in use; `given_temps_fresh_iff` says how many can be taken until one is given
that the function has.
-/

namespace GuardedIL.Overflow

inductive Request where
  | temp
  | labels
  deriving DecidableEq, Repr

namespace FreshNames

/-- The names after requests. -/
def after (names : FreshNames) : List Request → FreshNames
  | [] => names
  | .temp :: rest => names.takeTemp.2.after rest
  | .labels :: rest => names.takeLabels.2.after rest

/-- The temporaries given for requests. -/
def givenTemps (names : FreshNames) : List Request → List TempId
  | [] => []
  | .temp :: rest => names.takeTemp.1 :: names.takeTemp.2.givenTemps rest
  | .labels :: rest => names.takeLabels.2.givenTemps rest

/-- The labels given for requests, those of a pair one behind the other. -/
def givenLabels (names : FreshNames) : List Request → List String
  | [] => []
  | .temp :: rest => names.takeTemp.2.givenLabels rest
  | .labels :: rest => names.takeLabels.1.1 :: names.takeLabels.1.2 :: names.takeLabels.2.givenLabels rest

end FreshNames

/-! ### The search for a number -/

/-- The search for a free number as it runs: from a 32-bit word on, one number after the other, until one is
free. `Finds used n m` says that it ends, with `m`. -/
inductive Finds (used : List String) : UInt32 → UInt32 → Prop where
  | here {n : UInt32} (free : isFree used n.toNat = true) : Finds used n n
  | next {n m : UInt32} (taken : isFree used n.toNat = false) (later : Finds used (n + 1) m) : Finds used n m

variable {used : List String} {tries n : Nat}

theorem le_firstFree : n ≤ firstFree used tries n := by
  induction tries generalizing n with
  | zero => exact le_rfl
  | succ tries ih =>
    unfold firstFree
    split
    · exact le_rfl
    · exact (Nat.le_succ n).trans ih

theorem taken_below_firstFree {k : Nat} (from_n : n ≤ k) (below : k < firstFree used tries n) :
    isFree used k = false := by
  induction tries generalizing n with
  | zero =>
    unfold firstFree at below
    omega
  | succ tries ih =>
    unfold firstFree at below
    split at below
    · omega
    · rename_i taken
      rcases Nat.eq_or_lt_of_le from_n with rfl | later
      · simpa using taken
      · exact ih later below

/-- Up to the greatest word, the search in 32 bits ends with the number that the bounded one gives. -/
theorem finds_firstFree (free : isFree used (firstFree used tries n) = true)
    (fits : firstFree used tries n < 2 ^ 32) :
    Finds used (UInt32.ofNat n) (UInt32.ofNat (firstFree used tries n)) := by
  have small : n < 2 ^ 32 := lt_of_le_of_lt le_firstFree fits
  have value : (UInt32.ofNat n).toNat = n := by
    rw [UInt32.toNat_ofNat']
    omega
  induction tries generalizing n with
  | zero => exact .here (by rwa [value])
  | succ tries ih =>
    unfold firstFree at free fits ⊢
    split_ifs at free fits ⊢ with taken
    · exact .here (by rwa [value])
    · have small' : n + 1 < 2 ^ 32 := lt_of_le_of_lt le_firstFree fits
      refine .next (by simpa [value] using taken) ?_
      rw [← UInt32.ofNat_one, ← UInt32.ofNat_add]
      apply ih free fits small'
      rw [UInt32.toNat_ofNat']
      omega

/-! ### Labels -/

/-- Names for a function with the labels `existing`, after the labels `given`: both are in use and nothing else
is, and no number below the counter is free. -/
structure Tracks (existing given : List String) (names : FreshNames) : Prop where
  used : ∀ label, label ∈ names.used ↔ label ∈ existing ++ given
  taken : ∀ n < names.nextLabel, isFree names.used n = false
  distinct : given.Nodup
  fresh : ∀ label ∈ given, label ∉ existing

namespace Tracks

variable {existing given : List String} {names : FreshNames}

theorem ofFunc (f : Func) : Tracks (f.blocks.map (·.label)) [] (.ofFunc f) where
  used label := by
    rw [List.append_nil]
    exact Iff.rfl
  taken n below := absurd below (Nat.not_lt_zero n)
  distinct := .nil
  fresh label member := absurd member List.not_mem_nil

theorem takeTemp (tracks : Tracks existing given names) : Tracks existing given names.takeTemp.2 :=
  ⟨tracks.used, tracks.taken, tracks.distinct, tracks.fresh⟩

theorem free_iff (tracks : Tracks existing given names) (n : Nat) :
    isFree names.used n = true ↔ faultLabel n ∉ existing ++ given ∧ contLabel n ∉ existing ++ given := by
  rw [isFree_iff, tracks.used, tracks.used]

theorem taken_below (tracks : Tracks existing given names) {n : Nat}
    (below : n < firstFree names.used names.used.length names.nextLabel) : isFree names.used n = false := by
  by_cases counted : n < names.nextLabel
  · exact tracks.taken n counted
  · exact taken_below_firstFree (not_lt.mp counted) below

theorem least (tracks : Tracks existing given names) :
    IsLeast {n | faultLabel n ∉ existing ++ given ∧ contLabel n ∉ existing ++ given}
      (firstFree names.used names.used.length names.nextLabel) := by
  refine ⟨(tracks.free_iff _).mp (firstFree_free _ _), fun n unused => ?_⟩
  have free := (tracks.free_iff n).mpr unused
  by_contra below
  rw [tracks.taken_below (not_le.mp below)] at free
  exact absurd free (by simp)

theorem takeLabels (tracks : Tracks existing given names) :
    Tracks existing (given ++ [names.takeLabels.1.1, names.takeLabels.1.2]) names.takeLabels.2 := by
  have below := @tracks.taken_below
  obtain ⟨faultFresh, contFresh⟩ := tracks.least.1
  rw [List.mem_append, not_or] at faultFresh contFresh
  show Tracks existing (given ++ [faultLabel _, contLabel _])
    ⟨names.nextTemp, firstFree _ _ _ + 1, faultLabel _ :: contLabel _ :: names.used⟩
  generalize firstFree names.used names.used.length names.nextLabel = number at *
  refine ⟨fun label => ?_, fun n counted => ?_, ?_, ?_⟩
  · simp only [List.mem_cons, List.mem_append, List.not_mem_nil, or_false, tracks.used]
    tauto
  · -- What was taken stays taken, and of this number both labels are in use now.
    rw [← Bool.not_eq_true, isFree_iff]
    rintro ⟨fault, cont⟩
    simp only [List.mem_cons, not_or] at fault cont
    rcases Nat.lt_succ_iff_lt_or_eq.mp counted with earlier | rfl
    · have taken := below earlier
      rw [isFree_iff.mpr ⟨fault.2.2, cont.2.2⟩] at taken
      exact absurd taken (by simp)
    · exact fault.1 rfl
  · have pair : [faultLabel number, contLabel number].Nodup := by simp [faultLabel_ne_contLabel]
    refine tracks.distinct.append pair ?_
    simp [List.disjoint_right, faultFresh.2, contFresh.2]
  · simp only [List.forall_mem_append, List.forall_mem_cons]
    exact ⟨tracks.fresh, faultFresh.1, contFresh.1, by simp⟩

theorem after (tracks : Tracks existing given names) (requests : List Request) :
    Tracks existing (given ++ names.givenLabels requests) (names.after requests) := by
  induction requests generalizing names given with
  | nil =>
    rw [FreshNames.givenLabels, List.append_nil]
    exact tracks
  | cons request rest ih =>
    cases request with
    | temp => exact ih tracks.takeTemp
    | labels =>
      have later := ih tracks.takeLabels
      rw [List.append_assoc] at later
      exact later

end Tracks

namespace FreshNames

theorem after_append (names : FreshNames) (before rest : List Request) :
    names.after (before ++ rest) = (names.after before).after rest := by
  induction before generalizing names with
  | nil => rfl
  | cons request before ih =>
    cases request with
    | temp => exact ih _
    | labels => exact ih _

theorem nextLabel_le_after (names : FreshNames) (requests : List Request) :
    names.nextLabel ≤ (names.after requests).nextLabel := by
  induction requests generalizing names with
  | nil => exact le_rfl
  | cons request rest ih =>
    cases request with
    | temp => exact ih names.takeTemp.2
    | labels =>
      have found : names.nextLabel ≤ names.takeLabels.2.nextLabel := le_firstFree.trans (Nat.le_succ _)
      exact found.trans (ih names.takeLabels.2)

end FreshNames

/-- Every pair of labels is given for the least number of which neither label is a label of the function or was
given before, and the search for it ends. So labels are given once only, and none that the function has. The
counter counts the pairs that are tried. -/
theorem labels_least (f : Func) (requests : List Request)
    (few : ((FreshNames.ofFunc f).after requests).nextLabel < 2 ^ 32) :
    (∀ before rest, requests = before ++ .labels :: rest →
      let names := (FreshNames.ofFunc f).after before
      let inUse := f.blocks.map (·.label) ++ (FreshNames.ofFunc f).givenLabels before
      ∃ n,
        names.takeLabels.1 = (faultLabel n, contLabel n) ∧
        IsLeast {n | faultLabel n ∉ inUse ∧ contLabel n ∉ inUse} n ∧
        Finds names.used (UInt32.ofNat names.nextLabel) (UInt32.ofNat n)) ∧
    ((FreshNames.ofFunc f).givenLabels requests).Nodup ∧
    ∀ label ∈ (FreshNames.ofFunc f).givenLabels requests, label ∉ f.blocks.map (·.label) := by
  have start := Tracks.ofFunc f
  refine ⟨?_, (start.after requests).distinct, (start.after requests).fresh⟩
  rintro before rest rfl
  dsimp only
  have tracks : Tracks _ ((FreshNames.ofFunc f).givenLabels before) _ := start.after before
  rw [FreshNames.after_append] at few
  generalize (FreshNames.ofFunc f).after before = names at *
  have counted : firstFree names.used names.used.length names.nextLabel + 1 ≤
      (names.takeLabels.2.after rest).nextLabel := FreshNames.nextLabel_le_after names.takeLabels.2 rest
  have fits : (names.takeLabels.2.after rest).nextLabel < 2 ^ 32 := few
  exact ⟨_, rfl, tracks.least, finds_firstFree (firstFree_free _ _) (by omega)⟩

/-- A function that has labels of guards already. -/
def halfGuarded : Func where
  name := "f"
  blocks := [⟨"ovf.cont.0", [], [], false⟩, ⟨"entry", [], [], false⟩, ⟨"ovf.fault.2", [], [], false⟩]

theorem labels_least_halfGuarded :
    let names := FreshNames.ofFunc halfGuarded
    let inUse := halfGuarded.blocks.map (·.label) ++ names.givenLabels [.labels, .temp]
    (names.after [.labels, .temp, .labels]).nextLabel = 4 ∧
    names.givenLabels [.labels, .temp, .labels] =
      ["ovf.fault.1", "ovf.cont.1", "ovf.fault.3", "ovf.cont.3"] ∧
    (∃ n, (names.after [.labels, .temp]).takeLabels.1 = (faultLabel n, contLabel n) ∧
      IsLeast {n | faultLabel n ∉ inUse ∧ contLabel n ∉ inUse} n ∧
      Finds (names.after [.labels, .temp]).used 2 (UInt32.ofNat n)) ∧
    (names.givenLabels [.labels, .temp, .labels]).Nodup := by
  have counter : ((FreshNames.ofFunc halfGuarded).after [.labels, .temp, .labels]).nextLabel = 4 := by
    decide +kernel
  have holds := labels_least halfGuarded [.labels, .temp, .labels] (by rw [counter]; decide)
  exact ⟨counter, by decide +kernel, holds.1 [.labels, .temp] [] rfl, holds.2.1⟩

/-! ### Temporaries -/

namespace FreshNames

theorem givenTemps_eq (names : FreshNames) (requests : List Request) :
    names.givenTemps requests = names.temps (requests.count .temp) := by
  induction requests generalizing names with
  | nil => rfl
  | cons request rest ih =>
    cases request with
    | temp =>
      have split : names.temps (1 + rest.count .temp) =
          names.temps 1 ++ names.takeTemp.2.temps (rest.count .temp) := temps_add rfl
      rw [givenTemps, ih, List.count_cons_self, Nat.add_comm, split]
      simp [temps, takeTemp]
    | labels =>
      rw [givenTemps, ih, List.count_cons_of_ne (by decide)]
      rfl

theorem mem_temps {names : FreshNames} {count : Nat} {id : TempId} :
    id ∈ names.temps count ↔ ∃ k < count, id.toNat = (names.nextTemp.toNat + k) % 2 ^ 32 := by
  unfold temps
  simp only [List.mem_map, List.mem_range]
  refine exists_congr fun k => and_congr_right fun _ => ?_
  rw [← UInt32.toNat_inj, UInt32.toNat_add, UInt32.toNat_ofNat', Nat.add_mod_mod, eq_comm]

end FreshNames

end GuardedIL.Overflow

namespace GuardedIL.Func

open Overflow

/-- How many temporaries follow the greatest in use before one that is in use. The last, 2³² - 1, is passed over
in the search for the greatest, and behind it the numbers begin again. -/
def room (f : Func) : Nat :=
  if 4294967295 ∈ f.ids then 2 ^ 32 - 1 - above f.ids 0
  else 2 ^ 32 - above f.ids 0 + (f.ids.map UInt32.toNat).min?.getD 0

/-- The number of temporaries that the function does not have. -/
def unusedCount (f : Func) : Nat :=
  2 ^ 32 - f.ids.dedup.length

/-- The temporaries given for the requests are distinct, and the function has none of them. -/
def GivesFresh (f : Func) (requests : List Request) : Prop :=
  ((FreshNames.ofFunc f).givenTemps requests).Nodup ∧
    ∀ id ∈ (FreshNames.ofFunc f).givenTemps requests, id ∉ f.ids

variable {f : Func} {id : TempId} {count : Nat}

theorem toNat_firstTemp (f : Func) : (FreshNames.ofFunc f).nextTemp.toNat = above f.ids 0 := by
  rw [toNat_ofFunc_nextTemp, ← defs_ids, defs_map_id]

theorem above_lt (f : Func) : above f.ids 0 < 2 ^ 32 := by
  rw [← toNat_firstTemp]
  exact UInt32.toNat_lt _

theorem toNat_last : (4294967295 : TempId).toNat = 2 ^ 32 - 1 := rfl

/-- Only the last temporary can be in use from the first that is given on. -/
theorem lt_above_or_last (member : id ∈ f.ids) : id.toNat < above f.ids 0 ∨ id = 4294967295 := by
  have next : (id + 1).toNat ≤ above f.ids 0 := (above_le.mp le_rfl).2 id member
  rw [UInt32.toNat_add, UInt32.toNat_one] at next
  by_cases last : id.toNat = 2 ^ 32 - 1
  · exact .inr (UInt32.toNat_inj.mp last)
  · have := id.toNat_lt
    exact .inl (by omega)

theorem exists_least (some : f.ids ≠ []) :
    ∃ id ∈ f.ids, (f.ids.map UInt32.toNat).min?.getD 0 = id.toNat ∧ ∀ other ∈ f.ids, id.toNat ≤ other.toNat := by
  cases least : (f.ids.map UInt32.toNat).min? with
  | none => exact absurd (List.map_eq_nil_iff.mp (List.min?_eq_none_iff.mp least)) some
  | some n =>
    obtain ⟨member, le⟩ := List.min?_eq_some_iff.mp least
    obtain ⟨id, inside, rfl⟩ := List.mem_map.mp member
    exact ⟨id, inside, rfl, fun other inside' => le _ (List.mem_map_of_mem inside')⟩

theorem room_nil (none : f.ids = []) : f.room = 2 ^ 32 := by
  simp [room, none, above]

/-- Behind the room there is a temporary in use. -/
theorem exists_at_room (some : f.ids ≠ []) :
    f.room < 2 ^ 32 ∧ ∃ id ∈ f.ids, id.toNat = (above f.ids 0 + f.room) % 2 ^ 32 := by
  have bound := above_lt f
  unfold room
  split
  · rename_i last
    refine ⟨by omega, _, last, ?_⟩
    rw [toNat_last]
    omega
  · rename_i noLast
    obtain ⟨id, member, value, _⟩ := exists_least some
    have below := (lt_above_or_last member).resolve_right fun same => noLast (same ▸ member)
    rw [value]
    exact ⟨by omega, id, member, by omega⟩

theorem fresh_of_le_room (le : count ≤ f.room) : ∀ id ∈ (FreshNames.ofFunc f).temps count, id ∉ f.ids := by
  intro id given member
  obtain ⟨k, lt, value⟩ := FreshNames.mem_temps.mp given
  rw [toNat_firstTemp] at value
  have bound := above_lt f
  have placed := lt_above_or_last member
  unfold room at le
  split at le
  · -- The numbers stay below the last.
    rcases placed with below | rfl
    · omega
    · rw [toNat_last] at value
      omega
  · -- The numbers begin again, and stay below the least in use.
    rename_i noLast
    obtain ⟨least, _, leastValue, leastLe⟩ := exists_least (List.ne_nil_of_mem member)
    have below := placed.resolve_right fun same => noLast (same ▸ member)
    have := leastLe id member
    rw [leastValue] at le
    omega

theorem givesFresh_iff (requests : List Request) : f.GivesFresh requests ↔ requests.count .temp ≤ f.room := by
  unfold GivesFresh
  rw [FreshNames.givenTemps_eq, FreshNames.temps_nodup_iff]
  generalize requests.count .temp = count
  by_cases none : f.ids = []
  · simp [room_nil none, none]
  · obtain ⟨small, id, member, value⟩ := exists_at_room none
    constructor
    · rintro ⟨_, fresh⟩
      by_contra more
      refine fresh id (FreshNames.mem_temps.mpr ⟨f.room, by omega, ?_⟩) member
      rw [value, toNat_firstTemp]
    · intro le
      exact ⟨by omega, fresh_of_le_room le⟩

theorem room_le_unusedCount (f : Func) : f.room ≤ f.unusedCount := by
  have le : f.room ≤ 2 ^ 32 := by
    by_cases none : f.ids = []
    · exact (room_nil none).le
    · exact (exists_at_room none).1.le
  have apart : ((FreshNames.ofFunc f).temps f.room ++ f.ids.dedup).Nodup := by
    refine (FreshNames.temps_nodup_iff.mpr le).append f.ids.nodup_dedup fun id given used => ?_
    exact fresh_of_le_room le_rfl id given (List.mem_dedup.mp used)
  have count := FreshNames.length_le_of_nodup apart
  rw [List.length_append, FreshNames.temps, List.length_map, List.length_range] at count
  unfold unusedCount
  omega

/-- Temporaries are given that are distinct and not in use exactly as long as their number does not exceed the
room of the function. It can be less than the number of temporaries that the function does not have; only if it
is the same, all requests up to that number are met. -/
theorem given_temps_fresh_iff (f : Func) :
    (∀ requests, f.GivesFresh requests ↔ requests.count .temp ≤ f.room) ∧
    f.room ≤ f.unusedCount ∧
    ((∀ requests : List Request, requests.count .temp ≤ f.unusedCount → f.GivesFresh requests) ↔
      f.room = f.unusedCount) := by
  refine ⟨givesFresh_iff, room_le_unusedCount f, fun all => ?_, fun same requests le => ?_⟩
  · have most := all (List.replicate f.unusedCount .temp) (by rw [List.count_replicate_self])
    rw [givesFresh_iff, List.count_replicate_self] at most
    exact le_antisymm (room_le_unusedCount f) most
  · rw [givesFresh_iff, same]
    exact le

/-- A function that has the last two temporaries. -/
def atTheEnd : Func where
  name := "f"
  params := [⟨"x", .i64, 4294967295⟩, ⟨"y", .i64, 4294967294⟩]

theorem first_temp_in_use :
    [Request.temp].count .temp ≤ atTheEnd.unusedCount ∧
    (FreshNames.ofFunc atTheEnd).givenTemps [.temp] = [4294967295] ∧ 4294967295 ∈ atTheEnd.ids ∧
    ¬ atTheEnd.GivesFresh [.temp] := by
  have given : (FreshNames.ofFunc atTheEnd).givenTemps [.temp] = [4294967295] := by decide +kernel
  have used : 4294967295 ∈ atTheEnd.ids := by decide +kernel
  refine ⟨by decide +kernel, given, used, fun fresh => ?_⟩
  exact fresh.2 4294967295 (by rw [given]; exact List.mem_cons_self) used

end GuardedIL.Func

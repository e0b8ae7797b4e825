import GuardedIL.Machine.Frame
import GuardedIL.Overflow.FreshNames
import Mathlib

/-!
# Fresh names

Labels are taken in pairs that no block has yet. Temporaries are taken one after the other in 32-bit
arithmetic; `HasRoom` says that the next ones do not wrap around, so that they are distinct and not
below a bound.
-/

namespace GuardedIL.Overflow

/-! ### Labels -/

theorem faultLabel_injective : Function.Injective faultLabel := by
  intro m n same
  exact Nat.repr_injective ((String.append_right_inj _).mp same)

theorem contLabel_injective : Function.Injective contLabel := by
  intro m n same
  exact Nat.repr_injective ((String.append_right_inj _).mp same)

theorem faultLabel_ne_contLabel (m n : Nat) : faultLabel m ≠ contLabel n := by
  intro same
  have letters := congrArg (fun label => label.toList[4]?) same
  simp [faultLabel, contLabel, String.toList_append] at letters

theorem faultLabel_ne_empty (n : Nat) : faultLabel n ≠ "" := by
  intro same
  have letters := congrArg String.toList same
  simp [faultLabel, String.toList_append] at letters

theorem contLabel_ne_empty (n : Nat) : contLabel n ≠ "" := by
  intro same
  have letters := congrArg String.toList same
  simp [contLabel, String.toList_append] at letters

theorem isFree_iff {used : List String} {n : Nat} :
    isFree used n = true ↔ faultLabel n ∉ used ∧ contLabel n ∉ used := by
  simp [isFree]

theorem firstFree_cases (used : List String) (tries n : Nat) :
    isFree used (firstFree used tries n) = true ∨ ∀ k ≤ tries, isFree used (n + k) = false := by
  induction tries generalizing n with
  | zero =>
    cases free : isFree used n with
    | true => exact .inl free
    | false => exact .inr fun k le => by rwa [Nat.le_zero.mp le]
  | succ tries ih =>
    unfold firstFree
    split
    · rename_i free
      exact .inl free
    · rename_i taken
      refine (ih (n + 1)).imp id fun rest k le => ?_
      cases k with
      | zero => simpa using taken
      | succ k =>
        rw [Nat.add_comm k, ← Nat.add_assoc]
        exact rest k (by omega)

/-- Numbers that are not free are at most as many as the labels in use. -/
theorem taken_le {used : List String} {n count : Nat}
    (taken : ∀ k < count, isFree used (n + k) = false) : count ≤ used.length := by
  -- Each number is charged to the label of its pair that is in use.
  let label (k : Nat) : String :=
    if faultLabel (n + k) ∈ used then faultLabel (n + k) else contLabel (n + k)
  have inUse : ∀ k < count, label k ∈ used := by
    intro k lt
    have busy := taken k lt
    by_cases fault : faultLabel (n + k) ∈ used
    · simp [label, fault]
    · simp only [label, fault, if_false]
      by_contra cont
      rw [isFree_iff.mpr ⟨fault, cont⟩] at busy
      exact absurd busy (by simp)
  have injective : Function.Injective label := by
    intro k m same
    simp only [label] at same
    split at same <;> split at same
    · exact Nat.add_left_cancel (faultLabel_injective same)
    · exact absurd same (faultLabel_ne_contLabel _ _)
    · exact absurd same.symm (faultLabel_ne_contLabel _ _)
    · exact Nat.add_left_cancel (contLabel_injective same)
  have subset : (List.range count).map label ⊆ used := by
    intro x member
    obtain ⟨k, lt, rfl⟩ := List.mem_map.mp member
    exact inUse k (List.mem_range.mp lt)
  have distinct : ((List.range count).map label).Nodup := List.nodup_range.map injective
  simpa using (List.subperm_of_subset distinct subset).length_le

theorem firstFree_free (used : List String) (n : Nat) :
    isFree used (firstFree used used.length n) = true := by
  refine (firstFree_cases used used.length n).resolve_right fun taken => ?_
  have := @taken_le used n (used.length + 1) fun k lt => taken k (by omega)
  omega

namespace FreshNames

theorem takeLabels_fresh (names : FreshNames) :
    names.takeLabels.1.1 ∉ names.used ∧ names.takeLabels.1.2 ∉ names.used :=
  isFree_iff.mp (firstFree_free names.used names.nextLabel)

/-! ### Temporaries -/

theorem length_le_of_nodup {ids : List TempId} (distinct : ids.Nodup) : ids.length ≤ 2 ^ 32 := by
  have numbers : (ids.map UInt32.toNat).Nodup := distinct.map fun _ _ => UInt32.toNat_inj.mp
  have within : ids.map UInt32.toNat ⊆ List.range (2 ^ 32) := by
    intro n member
    obtain ⟨id, _, rfl⟩ := List.mem_map.mp member
    exact List.mem_range.mpr id.toNat_lt
  have shorter := (List.subperm_of_subset numbers within).length_le
  rwa [List.length_map, List.length_range] at shorter

/-- The next `count` temporaries. -/
def temps (names : FreshNames) (count : Nat) : List TempId :=
  (List.range count).map fun k => names.nextTemp + UInt32.ofNat k

/-- The next `count` temporaries exist, and none is below `bound`. -/
def HasRoom (names : FreshNames) (bound count : Nat) : Prop :=
  count = 0 ∨ (bound ≤ names.nextTemp.toNat ∧ names.nextTemp.toNat + count ≤ 2 ^ 32)

theorem temps_add {names rest : FreshNames} {a b : Nat}
    (next : rest.nextTemp = names.nextTemp + UInt32.ofNat a) :
    names.temps (a + b) = names.temps a ++ rest.temps b := by
  simp only [temps, List.range_add, List.map_append, List.map_map, next]
  congr 1
  refine List.map_congr_left fun k _ => ?_
  simp [UInt32.ofNat_add, add_assoc]

theorem temps_nodup_iff {names : FreshNames} {count : Nat} : (names.temps count).Nodup ↔ count ≤ 2 ^ 32 := by
  constructor
  · intro distinct
    have shorter := length_le_of_nodup distinct
    rwa [temps, List.length_map, List.length_range] at shorter
  · intro le
    refine List.Nodup.map_on ?_ List.nodup_range
    intro k inside m inside' same
    rw [List.mem_range] at inside inside'
    have value := congrArg UInt32.toNat same
    simp only [UInt32.toNat_add, UInt32.toNat_ofNat'] at value
    omega

namespace HasRoom

variable {names later : FreshNames} {bound a b count k : Nat}

theorem first (room : names.HasRoom bound (a + b)) : names.HasRoom bound a := by
  unfold HasRoom at *
  omega

theorem toNat_add (room : names.HasRoom bound count) (lt : k < count) :
    (names.nextTemp + UInt32.ofNat k).toNat = names.nextTemp.toNat + k := by
  unfold HasRoom at room
  rw [UInt32.toNat_add, UInt32.toNat_ofNat']
  omega

theorem rest (room : names.HasRoom bound (a + b))
    (next : later.nextTemp = names.nextTemp + UInt32.ofNat a) : later.HasRoom bound b := by
  rcases Nat.eq_zero_or_pos b with none | some
  · exact .inl none
  · have value := room.toNat_add (k := a) (by omega)
    rw [← next] at value
    unfold HasRoom at *
    omega

theorem le_of_mem (room : names.HasRoom bound count) {id : TempId} (taken : id ∈ names.temps count) :
    bound ≤ id.toNat := by
  obtain ⟨k, lt, rfl⟩ := List.mem_map.mp taken
  rw [List.mem_range] at lt
  rw [room.toNat_add lt]
  unfold HasRoom at room
  omega

theorem lt_of_mem (room : names.HasRoom bound count) {id : TempId} (taken : id ∈ names.temps count) :
    id.toNat < names.nextTemp.toNat + count := by
  obtain ⟨k, lt, rfl⟩ := List.mem_map.mp taken
  rw [List.mem_range] at lt
  rw [room.toNat_add lt]
  omega

theorem temps_nodup (room : names.HasRoom bound count) : (names.temps count).Nodup := by
  unfold HasRoom at room
  exact temps_nodup_iff.mpr (by omega)

end HasRoom

end FreshNames

/-! ### The first temporary -/

theorem le_registers (defs : List Def) (n : Nat) :
    n ≤ defs.foldl (fun n d => max n (d.id.toNat + 1)) n := by
  induction defs generalizing n with
  | nil => exact le_rfl
  | cons d defs ih => exact (le_max_left _ _).trans (ih _)

theorem lt_registers {defs : List Def} {d : Def} (member : d ∈ defs) (n : Nat) :
    d.id.toNat < defs.foldl (fun n d => max n (d.id.toNat + 1)) n := by
  induction defs generalizing n with
  | nil => simp at member
  | cons e defs ih =>
    rcases List.mem_cons.mp member with rfl | later
    · exact lt_of_lt_of_le (Nat.lt_succ_self _) ((le_max_right _ _).trans (le_registers defs _))
    · exact ih later _

theorem registers_le {defs : List Def} {n bound : Nat} (start : n ≤ bound)
    (all : ∀ d ∈ defs, d.id.toNat < bound) :
    defs.foldl (fun n d => max n (d.id.toNat + 1)) n ≤ bound := by
  induction defs generalizing n with
  | nil => exact start
  | cons d defs ih =>
    exact ih (max_le start (all d List.mem_cons_self)) fun e later =>
      all e (List.mem_cons_of_mem _ later)

theorem lt_registerCount {f : Func} {d : Def} (member : d ∈ f.defs) :
    d.id.toNat < f.registerCount :=
  lt_registers member 0

theorem toNat_max (m n : UInt32) : (max m n).toNat = max m.toNat n.toNat := by
  rw [show max m n = if m ≤ n then n else m from rfl]
  split
  · rename_i le
    exact (max_eq_right (UInt32.le_iff_toNat_le.mp le)).symm
  · rename_i lt
    rw [UInt32.le_iff_toNat_le] at lt
    exact (max_eq_left (Nat.le_of_not_le lt)).symm

/-- Counting in 32 bits agrees with counting, up to a count that does not fit. -/
theorem toNat_nextTemp {defs : List Def} {n : TempId}
    (fits : defs.foldl (fun n d => max n (d.id.toNat + 1)) n.toNat < 2 ^ 32) :
    (defs.foldl (fun next d => max next (d.id + 1)) n).toNat =
      defs.foldl (fun n d => max n (d.id.toNat + 1)) n.toNat := by
  induction defs generalizing n with
  | nil => rfl
  | cons d defs ih =>
    simp only [List.foldl_cons] at fits ⊢
    have small : d.id.toNat + 1 < 2 ^ 32 :=
      lt_of_le_of_lt ((le_max_right n.toNat _).trans (le_registers defs _)) fits
    have value : (max n (d.id + 1)).toNat = max n.toNat (d.id.toNat + 1) := by
      have next : (d.id + 1).toNat = d.id.toNat + 1 := by
        rw [UInt32.toNat_add, UInt32.toNat_one, Nat.mod_eq_of_lt small]
      rw [← next, toNat_max]
    rw [← value] at fits ⊢
    exact ih fits

theorem firstTemp_eq_registerCount {f : Func} (fits : f.registerCount < 2 ^ 32) :
    (FreshNames.ofFunc f).nextTemp.toNat = f.registerCount :=
  toNat_nextTemp (n := 0) fits

theorem ofFunc_hasRoom {f : Func} {count : Nat} (room : f.registerCount + count ≤ 2 ^ 32) :
    (FreshNames.ofFunc f).HasRoom f.registerCount count := by
  rcases Nat.eq_zero_or_pos count with none | some
  · exact .inl none
  · have value := firstTemp_eq_registerCount (f := f) (by omega)
    refine .inr ⟨value.ge, ?_⟩
    rw [value]
    exact room

end GuardedIL.Overflow

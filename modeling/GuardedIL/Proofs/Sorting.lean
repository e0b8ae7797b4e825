import GuardedIL.Text.Sorting
import Mathlib

/-!
# Sorting permutes and orders

All that splitting and heapsort do is swap items, so whatever they make of an array is a permutation of it;
insertion then puts any list in order. Items whose names differ have one order only (`sortByName_unique`),
and nothing more is known of items of one name.
-/

namespace GuardedIL.Text

variable {α : Type} {name : α → String}

/-! ### Swaps -/

theorem swapIfInBounds_perm (a : Array α) (i j : Nat) : (a.swapIfInBounds i j).Perm a := by
  unfold Array.swapIfInBounds
  split
  · split
    · exact Array.swap_perm _ _
    · exact .refl _
  · exact .refl _

theorem splitAt_perm (pivot fuel first last : Nat) (a : Array α) :
    (splitAt name pivot fuel first last a).2.Perm a := by
  induction fuel generalizing first last a with
  | zero => exact .refl _
  | succ fuel ih =>
    unfold splitAt
    dsimp only
    split
    · exact (ih _ _ _).trans (swapIfInBounds_perm a _ _)
    · exact .refl _

theorem splitByMedian_perm (first last : Nat) (a : Array α) : (splitByMedian name first last a).2.Perm a :=
  (splitAt_perm ..).trans (swapIfInBounds_perm ..)

theorem sinkToLeaf_perm (first count fuel hole : Nat) (a : Array α) :
    (sinkToLeaf name first count fuel hole a).2.Perm a := by
  induction fuel generalizing hole a with
  | zero => exact .refl _
  | succ fuel ih =>
    unfold sinkToLeaf
    dsimp only
    split
    · exact (ih _ _).trans (swapIfInBounds_perm a _ _)
    · split
      · exact swapIfInBounds_perm a _ _
      · exact .refl _

theorem riseTo_perm (first top fuel hole : Nat) (a : Array α) : (riseTo name first top fuel hole a).Perm a := by
  induction fuel generalizing hole a with
  | zero => exact .refl _
  | succ fuel ih =>
    unfold riseTo
    dsimp only
    split
    · exact (ih _ _).trans (swapIfInBounds_perm a _ _)
    · exact .refl _

theorem settle_perm (first count hole : Nat) (a : Array α) : (settle name first count hole a).Perm a :=
  (riseTo_perm ..).trans (sinkToLeaf_perm ..)

theorem makeHeap_perm (first count parent : Nat) (a : Array α) :
    (makeHeap name first count parent a).Perm a := by
  induction parent generalizing a with
  | zero => exact settle_perm ..
  | succ parent ih => exact (ih _).trans (settle_perm ..)

theorem drainHeap_perm (first count : Nat) (a : Array α) : (drainHeap name first count a).Perm a := by
  fun_induction drainHeap name first count a with
  | case1 | case2 => exact .refl _
  | case3 a count ih => exact ih.trans ((settle_perm ..).trans (swapIfInBounds_perm ..))

theorem heapSort_perm (first last : Nat) (a : Array α) : (heapSort name first last a).Perm a :=
  (drainHeap_perm ..).trans (makeHeap_perm ..)

theorem splitRuns_perm (name : α → String) (depth first last : Nat) (a : Array α) :
    (splitRuns name depth first last a).Perm a := by
  induction depth generalizing first last a with
  | zero =>
    unfold splitRuns
    split
    · exact heapSort_perm first last a
    · exact .refl _
  | succ depth ih =>
    unfold splitRuns
    split
    · exact ((ih _ _ _).trans (ih _ _ _)).trans (splitByMedian_perm first last a)
    · exact .refl _

/-! ### Insertion -/

variable {x : α} {items : List α}

theorem insertByName_perm : (insertByName name x items).Perm (x :: items) := by
  induction items with
  | nil => exact .refl _
  | cons y ys ih =>
    unfold insertByName
    split
    · exact .refl _
    · exact (ih.cons y).trans (.swap x y ys)

theorem insertByName_sorted (sorted : items.Pairwise fun x y => name x ≤ name y) :
    (insertByName name x items).Pairwise fun x y => name x ≤ name y := by
  induction items with
  | nil => exact List.pairwise_singleton _ _
  | cons y ys ih =>
    obtain ⟨least, sortedRest⟩ := List.pairwise_cons.mp sorted
    unfold insertByName
    split
    · rename_i less
      refine List.pairwise_cons.mpr ⟨fun z member => ?_, sorted⟩
      rcases List.mem_cons.mp member with rfl | later
      · exact less.le
      · exact less.le.trans (least z later)
    · rename_i notLess
      refine List.pairwise_cons.mpr ⟨fun z member => ?_, ih sortedRest⟩
      rcases List.mem_cons.mp (insertByName_perm.mem_iff.mp member) with rfl | later
      · exact not_lt.mp notLess
      · exact least z later

/-- Inserting items one after the other keeps the list in order and loses none of them. -/
theorem foldl_insertByName {sorted : List α} (ordered : sorted.Pairwise fun x y => name x ≤ name y) :
    (items.foldl (fun sorted x => insertByName name x sorted) sorted).Perm (sorted ++ items) ∧
    (items.foldl (fun sorted x => insertByName name x sorted) sorted).Pairwise fun x y => name x ≤ name y := by
  induction items generalizing sorted with
  | nil => exact ⟨by rw [List.append_nil]; exact .refl _, ordered⟩
  | cons x rest ih =>
    obtain ⟨perm, ordered'⟩ := ih (insertByName_sorted (x := x) ordered)
    refine ⟨perm.trans ?_, ordered'⟩
    exact (insertByName_perm.append_right rest).trans List.perm_middle.symm

/-! ### Both together -/

theorem sortByName_perm (name : α → String) (items : List α) : (sortByName name items).Perm items := by
  have runs := (splitRuns_perm name (2 * items.length.log2) 0 items.length items.toArray).toList
  exact (foldl_insertByName List.Pairwise.nil).1.trans runs

theorem sortByName_sorted (name : α → String) (items : List α) :
    (sortByName name items).Pairwise fun x y => name x ≤ name y :=
  (foldl_insertByName List.Pairwise.nil).2

/-- Items of different names have one order only. -/
theorem sortByName_unique {sorted : List α} (distinct : (items.map name).Nodup) (perm : items.Perm sorted)
    (ordered : sorted.Pairwise fun x y => name x ≤ name y) : sortByName name items = sorted := by
  have perm' : (sortByName name items).Perm sorted := (sortByName_perm name items).trans perm
  refine perm'.eq_of_pairwise (fun x y left right le ge => ?_) (sortByName_sorted name items) ordered
  refine List.inj_on_of_nodup_map distinct ?_ ?_ (le_antisymm le ge)
  · exact (sortByName_perm name items).mem_iff.mp left
  · exact perm.mem_iff.mpr right

end GuardedIL.Text

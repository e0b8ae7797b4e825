/-!
# Sorting by name

Quicksort splits an array into runs of at most 16 items, insertion then puts these in order. Where the
splits are too uneven, heapsort takes over. Items of one name keep their order only in arrays that need
no split.
-/

namespace GuardedIL.Text

variable {α : Type} (name : α → String)

def precedes (a : Array α) (i j : Nat) : Bool :=
  match a[i]?, a[j]? with
  | some x, some y => name x < name y
  | _, _ => false

/-! ### Splitting -/

/-- The place, among three, of the item that is in between. -/
def medianPlace (a : Array α) (i j k : Nat) : Nat :=
  if precedes name a i j then
    if precedes name a j k then j else if precedes name a i k then k else i
  else if precedes name a i k then i
  else if precedes name a j k then k
  else j

def skipSmaller (a : Array α) (pivot : Nat) : (fuel i : Nat) → Nat
  | 0, i => i
  | fuel + 1, i => if precedes name a i pivot then skipSmaller a pivot fuel (i + 1) else i

def skipGreater (a : Array α) (pivot : Nat) : (fuel j : Nat) → Nat
  | 0, j => j
  | fuel + 1, j => if precedes name a pivot j then skipGreater a pivot fuel (j - 1) else j

/-- Swaps items of `[first, last)` that stand on the wrong side of the pivot, and gives the place where
the greater side begins. -/
def splitAt (pivot : Nat) : (fuel first last : Nat) → Array α → Nat × Array α
  | 0, first, _, a => (first, a)
  | fuel + 1, first, last, a =>
    let i := skipSmaller name a pivot a.size first
    let j := skipGreater name a pivot a.size (last - 1)
    if i < j then splitAt pivot fuel (i + 1) j (a.swapIfInBounds i j) else (i, a)

/-- Splits `[first, last)` at the median of three of its items, which moves to its front. -/
def splitByMedian (first last : Nat) (a : Array α) : Nat × Array α :=
  let median := medianPlace name a (first + 1) (first + (last - first) / 2) (last - 1)
  splitAt name first a.size (first + 1) last (a.swapIfInBounds first median)

/-! ### Heaps

A heap of `count` items begins at `first`; places in it are counted from there. -/

/-- Moves the item at `hole` down along the greater children, to a place without any. -/
def sinkToLeaf (first count : Nat) : (fuel hole : Nat) → Array α → Nat × Array α
  | 0, hole, a => (hole, a)
  | fuel + 1, hole, a =>
    if hole < (count - 1) / 2 then
      let right := 2 * (hole + 1)
      let child := if precedes name a (first + right) (first + (right - 1)) then right - 1 else right
      sinkToLeaf first count fuel child (a.swapIfInBounds (first + hole) (first + child))
    else if count % 2 = 0 ∧ hole = (count - 2) / 2 then
      (2 * hole + 1, a.swapIfInBounds (first + hole) (first + (2 * hole + 1)))
    else (hole, a)

/-- Moves the item at `hole` up past smaller parents, to `top` at most. -/
def riseTo (first top : Nat) : (fuel hole : Nat) → Array α → Array α
  | 0, _, a => a
  | fuel + 1, hole, a =>
    let parent := (hole - 1) / 2
    if top < hole ∧ precedes name a (first + parent) (first + hole) then
      riseTo first top fuel parent (a.swapIfInBounds (first + hole) (first + parent))
    else a

def settle (first count hole : Nat) (a : Array α) : Array α :=
  let (leaf, a) := sinkToLeaf name first count count hole a
  riseTo name first hole count leaf a

def makeHeap (first count : Nat) : (parent : Nat) → Array α → Array α
  | 0, a => settle name first count 0 a
  | parent + 1, a => makeHeap first count parent (settle name first count (parent + 1) a)

def drainHeap (first : Nat) : (count : Nat) → Array α → Array α
  | 0, a | 1, a => a
  | count + 2, a =>
    drainHeap first (count + 1)
      (settle name first (count + 1) 0 (a.swapIfInBounds first (first + (count + 1))))

def heapSort (first last : Nat) (a : Array α) : Array α :=
  let count := last - first
  drainHeap name first count (makeHeap name first count ((count - 2) / 2) a)

/-! ### Sorting -/

/-- Splits `[first, last)` into runs of at most 16 items, at most `depth` splits deep. -/
def splitRuns : (depth first last : Nat) → Array α → Array α
  | 0, first, last, a => if 16 < last - first then heapSort name first last a else a
  | depth + 1, first, last, a =>
    if 16 < last - first then
      let (cut, a) := splitByMedian name first last a
      splitRuns depth first cut (splitRuns depth cut last a)
    else a

/-- Puts `x` behind every item whose name is not greater. -/
def insertByName (x : α) : List α → List α
  | [] => [x]
  | y :: ys => if name x < name y then x :: y :: ys else y :: insertByName x ys

def sortByName (items : List α) : List α :=
  let runs := splitRuns name (2 * items.length.log2) 0 items.length items.toArray
  runs.toList.foldl (fun sorted x => insertByName name x sorted) []

end GuardedIL.Text

import GuardedIL.Typing.Scope

/-!
# Fresh names

Guards need temporaries and labels that their function does not use. Temporaries are numbered from
one past the greatest in use, as 32-bit words. Labels come in pairs with a common number, the least
from the counter on for which neither label is in use.
-/

namespace GuardedIL.Overflow

structure FreshNames where
  nextTemp : TempId := 0
  nextLabel : Nat := 0
  used : List String := []
  deriving DecidableEq, Repr, Inhabited

def faultLabel (n : Nat) : String :=
  "ovf.fault." ++ toString n

def contLabel (n : Nat) : String :=
  "ovf.cont." ++ toString n

/-- Neither label of the pair is in use. -/
def isFree (used : List String) (n : Nat) : Bool :=
  ¬ used.contains (faultLabel n) ∧ ¬ used.contains (contLabel n)

/-- The first free number from `n` on, among at most `tries + 1`. -/
def firstFree (used : List String) : (tries n : Nat) → Nat
  | 0, n => n
  | tries + 1, n => if isFree used n then n else firstFree used tries (n + 1)

namespace FreshNames

def ofFunc (f : Func) : FreshNames :=
  { nextTemp := f.defs.foldl (fun next d => max next (d.id + 1)) 0
    used := f.blocks.map (·.label) }

def takeTemp (names : FreshNames) : TempId × FreshNames :=
  (names.nextTemp, { names with nextTemp := names.nextTemp + 1 })

/-- The next pair of labels, for the fault and for the continuation. A label in use rules out one
number, so as many tries as there are labels are enough. -/
def takeLabels (names : FreshNames) : (String × String) × FreshNames :=
  let n := firstFree names.used names.used.length names.nextLabel
  ((faultLabel n, contLabel n),
    { names with nextLabel := n + 1, used := faultLabel n :: contLabel n :: names.used })

end FreshNames

end GuardedIL.Overflow

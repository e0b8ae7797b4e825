/-!
# Text

Lists written with separators, text that ends at a NUL, and sorted lists of names. Names compare by
code point, which is also the order of their bytes.
-/

namespace GuardedIL.Text

def commaList (items : List String) : String :=
  ", ".intercalate items

def untilNul (s : String) : String :=
  String.ofList (s.toList.takeWhile (· ≠ Char.ofNat 0))

def insertDistinct (x : String) : List String → List String
  | [] => [x]
  | y :: ys =>
    if x < y then x :: y :: ys
    else if x = y then y :: ys
    else y :: insertDistinct x ys

/-- The names in order, each of them once. -/
def sortDistinct (names : List String) : List String :=
  names.foldr insertDistinct []

/-- Whether a name is in a sorted list, which is halved until the name is found. -/
def containsSorted (x : String) (names : List String) : Bool :=
  match split : names.drop (names.length / 2) with
  | [] => false
  | y :: later =>
    if y < x then containsSorted x later
    else if x < y then containsSorted x (names.take (names.length / 2))
    else true
termination_by names.length
decreasing_by
  all_goals
    have shorter := congrArg List.length split
    simp only [List.length_drop, List.length_cons] at shorter
  · omega
  · simp only [List.length_take]
    omega

end GuardedIL.Text

/-!
# Sorting

A stable sort.  A short list is sorted by insertion, where each element in turn is moved down past
the greater ones before it, and a long one by merging.  For an order both give the same list.
-/

namespace RelPlan

variable {α : Type}

/-- Puts an element into a descending list, in front of the elements that are not greater. -/
def insertDown (less : α → α → Bool) (x : α) : List α → List α
  | [] => [x]
  | y :: ys => if less x y then y :: insertDown less x ys else x :: y :: ys

def insertionSort (less : α → α → Bool) (xs : List α) : List α :=
  (xs.foldl (fun sorted x => insertDown less x sorted) []).reverse

/-- The longest list that is sorted by insertion. -/
def insertionLimit : Nat := 20

/-- Sorts a list.  Elements of which neither is less keep their order. -/
def stableSort (less : α → α → Bool) (xs : List α) : List α :=
  if xs.length ≤ insertionLimit then insertionSort less xs
  else xs.mergeSort fun a b => !less b a

end RelPlan

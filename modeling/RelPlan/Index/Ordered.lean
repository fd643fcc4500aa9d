import RelPlan.Index.Tree
import RelPlan.SortOrder

/-!
# Ordered indexes

Keeps the keys of rows in a search tree and answers range scans in key order.  A unique index
refuses a second row with an equal key, unless a component of the key is `NULL`.
-/

namespace RelPlan

structure OrderedIndex where
  name : String
  keys : List Expr
  unique : Bool
  /-- The types of the keys, once the index is attached to columns. -/
  keyTypes : List DataType := []
  tree : Tree := .leaf
  /-- The slots to use next, before new ones. -/
  free : List Nat := []
  /-- How many slots there are. -/
  capacity : Nat := 0
  size : Nat := 0
deriving DecidableEq, Repr

namespace OrderedIndex

/-- The order of a forward scan. -/
def ordering (i : OrderedIndex) : SortOrder := .ascending i.keys

/-- The key of a row, read without outer rows. -/
def keyOf (i : OrderedIndex) (row : Row) : Result (List Value) := Expr.evalAll .empty row i.keys

/-- Whether an entry with this key keeps others with it out. -/
def guards (i : OrderedIndex) (key : List Value) : Bool := i.unique && !key.any Value.isNull

/-- Puts an entry into the slot freed last, or into a new one. -/
def add (i : OrderedIndex) (x : Entry) : OrderedIndex :=
  match i.free with
  | slot :: free => { i with tree := i.tree.insert slot x, free, size := i.size + 1 }
  | [] =>
    { i with
      tree := i.tree.insert i.capacity x
      capacity := i.capacity + 1
      size := i.size + 1 }

def insert (i : OrderedIndex) (row : Row) : Result OrderedIndex := do
  let tid ← row.requireTid
  let key ← i.keyOf row
  if i.guards key && i.tree.meets key then throw (.uniqueViolation i.name key)
  else pure (i.add ⟨key, tid⟩)

/-- Removes the entry of a row and says whether there was one. -/
def delete (i : OrderedIndex) (row : Row) : Result (OrderedIndex × Bool) := do
  let tid ← row.requireTid
  let key ← i.keyOf row
  match i.tree.erase key tid with
  | some (tree, freed) => pure ({ i with tree, free := freed :: i.free, size := i.size - 1 }, true)
  | none => pure (i, false)

/-- The types that bounds are checked against.  In an empty index nothing can fail to compare. -/
def checkedTypes (i : OrderedIndex) : List DataType := if i.size = 0 then [] else i.keyTypes

/-- The tids of the entries in a range. -/
def scan (i : OrderedIndex) (range : KeyRange) (scope : Scope) : Result (List Nat) := do
  match ← Limits.ofRanges scope i.checkedTypes range.columns with
  | none => pure []
  | some limits =>
    match range.direction with
    | .forward => pure (i.tree.scan limits)
    | .backward => pure (i.tree.scanBackward limits)

end OrderedIndex

end RelPlan

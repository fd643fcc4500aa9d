import RelPlan.Index.Limits

/-!
# Search trees

A binary search tree of entries, unbalanced, with equal keys allowed.  A new entry goes to the left
of those with its key.  A node of two children that loses its entry takes over the next one in
order, so equal keys can end up on both sides.  Nodes live in numbered slots; removing an entry
frees one slot.
-/

namespace RelPlan

/-- The key of a row and its tid. -/
structure Entry where
  key : List Value
  tid : Nat
deriving DecidableEq, Repr

inductive Tree
  | leaf
  | node (slot : Nat) (left : Tree) (entry : Entry) (right : Tree)
deriving DecidableEq, Repr

namespace Tree

/-- The entries in order. -/
def toList : Tree → List Entry
  | leaf => []
  | node _ l e r => l.toList ++ e :: r.toList

/-- The slots in use, in the order of their entries. -/
def slots : Tree → List Nat
  | leaf => []
  | node s l _ r => l.slots ++ s :: r.slots

/-- Whether an entry with the key lies on the path by which the key would be inserted. -/
def meets (key : List Value) : Tree → Bool
  | leaf => false
  | node _ l e r =>
    match orderKeys key e.key with
    | .lt => l.meets key
    | .eq => true
    | .gt => r.meets key

/-- Adds an entry, before those with an equal key on its path. -/
def insert (slot : Nat) (x : Entry) : Tree → Tree
  | leaf => node slot leaf x leaf
  | node s l e r =>
    match orderKeys x.key e.key with
    | .gt => node s l e (r.insert slot x)
    | _ => node s (l.insert slot x) e r

/-- Takes the first entry, with its slot, out of the tree of the given parts. -/
def takeFirst (slot : Nat) : Tree → Entry → Tree → (Nat × Entry) × Tree
  | leaf, e, r => ((slot, e), r)
  | node s l e' r', e, r =>
    let (first, l') := takeFirst s l e' r'
    (first, node slot l' e r)

/-- What is left of a node without its entry, and the slot that this frees. -/
def removeRoot (slot : Nat) : Tree → Tree → Tree × Nat
  | leaf, r => (r, slot)
  | l, leaf => (l, slot)
  | l, node s rl e rr =>
    let ((freed, next), r) := takeFirst s rl e rr
    (node slot l next r, freed)

/-- Removes the entry with the key and the tid, if it is there, and says which slot this frees.
Among equal keys the node comes first, then the left side. -/
def erase (key : List Value) (tid : Nat) : Tree → Option (Tree × Nat)
  | leaf => none
  | node s l e r =>
    match orderKeys key e.key with
    | .lt => (l.erase key tid).map fun (l, freed) => (node s l e r, freed)
    | .gt => (r.erase key tid).map fun (r, freed) => (node s l e r, freed)
    | .eq =>
      if e.tid = tid then some (removeRoot s l r)
      else
        match l.erase key tid with
        | some (l, freed) => some (node s l e r, freed)
        | none => (r.erase key tid).map fun (r, freed) => (node s l e r, freed)

/-- The tids of the entries between the limits, in order.  A side that cannot hold any is left
out. -/
def scan (limits : List Limits) : Tree → List Nat
  | leaf => []
  | node _ l e r =>
    (if Limits.reachBelow limits e.key then l.scan limits else [])
      ++ (if Limits.allowKey limits e.key then [e.tid] else [])
      ++ (if Limits.reachAbove limits e.key then r.scan limits else [])

/-- The tids of the entries between the limits, in reverse order. -/
def scanBackward (limits : List Limits) : Tree → List Nat
  | leaf => []
  | node _ l e r =>
    (if Limits.reachAbove limits e.key then r.scanBackward limits else [])
      ++ (if Limits.allowKey limits e.key then [e.tid] else [])
      ++ (if Limits.reachBelow limits e.key then l.scanBackward limits else [])

end Tree

end RelPlan

import RelPlan.Join.Hash
import RelPlan.Join.Merge
import RelPlan.Pulling

/-!
# Join scanners

Hash and merge joins as scanners with a state, from which one row is asked for at a time.  A hash
join holds the joined rows of one left row until they are asked for.  A merge join holds a row of
each input and the first right row of a group; it marks the right input behind that row, and moves
it back for each further left row with the key of the group.
-/

namespace RelPlan

/-- Pulls up to the first row that has a key. -/
def Scan.nextKeyed (scope : Scope) (keys : List Expr) :
    Scan Row → Logged (Option Keyed) × (Unit → Scan Row)
  | done => (⟨[], .ok none⟩, fun _ => done)
  | fail e => (.fail e, fun _ => fail e)
  | note n s =>
    let (x, rest) := (s ()).nextKeyed scope keys
    (⟨n :: x.notes, x.result⟩, rest)
  | row a s =>
    match joinKey scope a keys with
    | .ok none => (s ()).nextKeyed scope keys
    | .ok (some key) => (⟨[], .ok (some ⟨a, key⟩)⟩, s)
    | .error e => (.fail e, s)

/-! ### Hash joins -/

/-- Adds the rows that have a key. -/
def HashTable.read (scope : Scope) (keys : List Expr) : HashTable → Scan Row → Logged HashTable
  | table, .done => ⟨[.hashJoinBuilt table.size table.bucketCount], .ok table⟩
  | _, .fail e => .fail e
  | table, .note n s =>
    let x := table.read scope keys (s ())
    ⟨n :: x.notes, x.result⟩
  | table, .row a s =>
    match joinKey scope a keys with
    | .ok none => table.read scope keys (s ())
    | .ok (some key) => (table.add ⟨a, key⟩).read scope keys (s ())
    | .error e => .fail e

structure HashScanner where
  left : Unit → Scan Row
  /-- The right input, until it has been read. -/
  build : Option (Unit → Scan Row)
  table : HashTable := {}
  /-- The rows to give out before the next left row is asked for. -/
  pending : List Row := []

namespace HashScanner

variable (scope : Scope) (columns : List Column) (pairs : List KeyPair)

def buildTable : Pull HashScanner Unit := do
  let (s, _) ← get
  if let some right := s.build then
    modify fun (s, notes) => ({ s with build := none }, notes)
    let table ← .ofLogged (HashTable.read scope (pairs.map KeyPair.right) {} (right ()))
    modify fun (s, notes) => ({ s with table }, notes)

def nextLeft : Pull HashScanner (Option Row) := do
  let (s, _) ← get
  let (x, left) := (s.left ()).next
  modify fun (s, notes) => ({ s with left }, notes)
  .ofLogged x

/-- A left row joined with the rows of its bucket. -/
def probe (table : HashTable) (row : Row) : Result (List Row) := do
  match ← joinKey scope row (pairs.map KeyPair.left) with
  | none => return []
  | some key =>
    joinEach scope columns (pairs.map KeyPair.right) ⟨row, key⟩ (table.lookup key)

def turn : Pull HashScanner (Option (Option Row)) := do
  buildTable scope pairs
  let (s, _) ← get
  match s.pending with
  | row :: pending =>
    modify fun (s, notes) => ({ s with pending }, notes)
    return some (some row)
  | [] =>
    match ← nextLeft with
    | none => return some none
    | some row =>
      let pending ← ofExcept (probe scope columns pairs s.table row)
      modify fun (s, notes) => ({ s with pending }, notes)
      return none

end HashScanner

/-! ### Merge joins -/

structure MergeScanner where
  left : Unit → Scan Row
  right : Cursor
  leftRow : Option Keyed := none
  rightRow : Option Keyed := none
  /-- The first right row of the group that the left row belongs to. -/
  group : Option Keyed := none

namespace MergeScanner

variable (scope : Scope) (columns : List Column) (pairs : List KeyPair)

def nextLeft : Pull MergeScanner (Option Keyed) := do
  let (s, _) ← get
  let (x, left) := (s.left ()).nextKeyed scope (pairs.map KeyPair.left)
  modify fun (s, notes) => ({ s with left }, notes)
  .ofLogged x

def nextRight : Pull MergeScanner (Option Keyed) := do
  let (s, _) ← get
  let (x, rest) := (s.right.rest ()).nextKeyed scope (pairs.map KeyPair.right)
  modify fun (s, notes) => ({ s with right := { s.right with rest } }, notes)
  .ofLogged x

def mark : Pull MergeScanner Unit := do
  let (s, _) ← get
  let right ← ofExcept s.right.mark
  modify fun (s, notes) => ({ s with right }, notes)

def restore : Pull MergeScanner Unit := do
  let (s, _) ← get
  let right ← ofExcept s.right.restore
  modify fun (s, notes) => ({ s with right }, notes)

def emit (left right : Keyed) : Pull MergeScanner (Option (Option Row)) := do
  let row ← ofExcept (left.row.concat right.row columns)
  return some (some row)

/-- Goes on from the row beyond a group.  A left row with the key of the group is joined with the
group once more. -/
def leaveGroup (first : Keyed) (beyond : Option Keyed) :
    Pull MergeScanner (Option (Option Row)) := do
  modify fun (s, notes) => ({ s with rightRow := beyond }, notes)
  let next ← nextLeft scope pairs
  match next.filter fun x => sameGroup x first with
  | some x =>
    restore
    let row ← emit columns x first
    modify fun (s, notes) => ({ s with leftRow := some x }, notes)
    return row
  | none =>
    modify fun (s, notes) => ({ s with leftRow := next, group := none }, notes)
    return none

/-- Goes on in a group. -/
def advanceGroup (first : Keyed) : Pull MergeScanner (Option (Option Row)) := do
  let next ← nextRight scope pairs
  match next.filter fun y => sameGroup y first with
  | some y =>
    match (← get).1.leftRow with
    | some x => emit columns x y
    | none => return some none
  | none => leaveGroup scope columns pairs first next

def fillLeft : Pull MergeScanner Unit := do
  if (← get).1.leftRow.isNone then
    let x ← nextLeft scope pairs
    modify fun (s, notes) => ({ s with leftRow := x }, notes)

def fillRight : Pull MergeScanner Unit := do
  if (← get).1.rightRow.isNone then
    let y ← nextRight scope pairs
    modify fun (s, notes) => ({ s with rightRow := y }, notes)

/-- Begins a group, or drops the row with the lower key. -/
def meet : Pull MergeScanner (Option (Option Row)) := do
  let (s, _) ← get
  match s.leftRow, s.rightRow with
  | some x, some y =>
    match orderKeys x.key y.key with
    | .lt =>
      modify fun (s, notes) => ({ s with leftRow := none }, notes)
      return none
    | .gt =>
      modify fun (s, notes) => ({ s with rightRow := none }, notes)
      return none
    | .eq =>
      mark
      modify fun (s, notes) => ({ s with rightRow := none }, notes)
      let row ← emit columns x y
      modify fun (s, notes) => ({ s with group := some y }, notes)
      return row
  | _, _ => return some none

def turn : Pull MergeScanner (Option (Option Row)) := do
  match (← get).1.group with
  | some first => advanceGroup scope columns pairs first
  | none =>
    fillLeft scope pairs
    fillRight scope pairs
    meet columns

end MergeScanner

end RelPlan

import RelPlan.Join.Keys

/-!
# Hash joins

The right input is read first and its rows are kept in buckets by their key; then each left row is
joined with the rows of its bucket.  Rows come out in the order of the left input, and for one left
row in the order of the right.
-/

namespace RelPlan

/-- The rows of each key, the latest one first. -/
structure HashTable where
  groups : KeyMap (List Row) := {}
  /-- How many rows there are. -/
  size : Nat := 0

namespace HashTable

/-- Adds a row to the bucket of its key. -/
def add (x : Keyed) (table : HashTable) : HashTable :=
  ⟨table.groups.upsert x.key fun rows => x.row :: rows.getD [], table.size + 1⟩

/-- The rows under a key, in the order in which they came. -/
def lookup (table : HashTable) (key : List Value) : List Row :=
  ((table.groups.find? key).getD []).reverse

/-- How many keys there are. -/
def bucketCount (table : HashTable) : Nat := table.groups.size

end HashTable

/-- Whether all components are equal in a comparison. -/
def keysEqual : List Value → List Value → Result Bool
  | a :: as, b :: bs => do
    if (← a.compareSql b) = some .eq then keysEqual as bs else pure false
  | _, _ => .ok true

/-- One left row joined with candidates, whose keys are compared once more. -/
def joinEach (scope : Scope) (columns : List Column) (rightKeys : List Expr) (left : Keyed) :
    List Row → Result (List Row) :=
  List.filterMapM fun right => do
    let key := (← joinKey scope right rightKeys).getD []
    if ← keysEqual left.key key then some <$> left.row.concat right columns else pure none

/-- One left row joined with its bucket.  If one pair fails none is given out. -/
def probeTable (scope : Scope) (columns : List Column) (rightKeys : List Expr) (table : HashTable)
    (left : Keyed) : Scan Row :=
  match joinEach scope columns rightKeys left (table.lookup left.key) with
  | .ok rows => .ofList rows
  | .error e => .fail e

/-- Reads the right input into the table, then goes on to join the left one. -/
def buildThen (probe : HashTable → Scan Row) : HashTable → Scan Keyed → Scan Row
  | table, .done => .note (.hashJoinBuilt table.size table.bucketCount) fun _ => probe table
  | _, .fail e => .fail e
  | table, .note n s => .note n fun _ => buildThen probe table (s ())
  | table, .row x s => buildThen probe (table.add x) (s ())

/-- The pairs of rows with equal keys. -/
def hashJoin (scope : Scope) (columns : List Column) (pairs : List KeyPair)
    (left right : Unit → Scan Row) : Scan Row :=
  let rightKeys := pairs.map KeyPair.right
  let probe := fun table =>
    ((left ()).keyed scope (pairs.map KeyPair.left)).bind
      (probeTable scope columns rightKeys table)
  buildThen probe {} ((right ()).keyed scope rightKeys)

end RelPlan

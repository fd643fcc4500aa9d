import RelPlan.Scan
import RelPlan.Table

/-!
# Access paths

A table is read row by row or through one of its indexes.  `AccessPath.select` offers the conjuncts
of a filter and a requested order to every index, scores what each one takes over, and keeps the
first of the best.  What the chosen index enforces need not be checked again.
-/

namespace RelPlan

/-- What one conjunct taken over, and a provided order, add to the score of an index.  A score is a
32-bit word, and wraps around where it would not fit. -/
structure AccessWeights where
  orderBonus : UInt32 := 100
  filterWeight : UInt32 := 10
deriving DecidableEq, Repr

/-- How the rows are reached. -/
inductive Route
  /-- Every row, by ascending tid. -/
  | full
  /-- The rows that the index gives for the probe.  They satisfy `enforced` and come in `order`. -/
  | index (i : Index) (probe : Probe) (enforced : Filter) (order : SortOrder)

structure AccessPath where
  table : Table
  route : Route

namespace AccessPath

/-- A filter that every row of the path satisfies. -/
def enforced (p : AccessPath) : Filter :=
  match p.route with
  | .full => none
  | .index _ _ enforced _ => enforced

/-- The order of the rows. -/
def ordering (p : AccessPath) : SortOrder :=
  match p.route with
  | .full => .empty
  | .index _ _ _ order => order

def indexName? (p : AccessPath) : Option String :=
  match p.route with
  | .full => none
  | .index i _ _ _ => some i.name

def probe? (p : AccessPath) : Option Probe :=
  match p.route with
  | .full => none
  | .index _ probe _ _ => some probe

/-- The same index of the same table with the same probe. -/
def equivalent (p q : AccessPath) : Bool :=
  p.table.name = q.table.name && p.indexName? = q.indexName?
    && match p.probe?, q.probe? with
      | some a, some b => a.alike b
      | none, none => true
      | _, _ => false

/-- The rows under tids that an index gave. -/
def rowsAt (t : Table) (index : String) : List Nat → Scan Row
  | [] => .done
  | tid :: tids =>
    match t.row tid with
    | some row => .row row fun _ => rowsAt t index tids
    | none => .fail (.missingRow t.name index tid)

/-- Opens the path.  Probes are evaluated here, once. -/
def scan (p : AccessPath) (scope : Scope) : Result (Unit → Scan Row) :=
  match p.route with
  | .full => .ok fun _ => .ofList p.table.rows
  | .index i probe _ _ => do
    let tids ← i.scan probe scope
    return fun _ => rowsAt p.table i.name tids

/-! ### Selection -/

/-- What one index can do for a filter and an order. -/
structure Candidate where
  probe : Probe
  /-- The conjuncts that the probe stands for. -/
  consumed : List Expr
  ordering : SortOrder
deriving DecidableEq, Repr

/-- An expression that reads nothing of the table can be evaluated before the scan. -/
def foreign (t : Table) (e : Expr) : Result Bool := return !(← e.readsAny t.columns)

/-- The reverse direction serves only an order that the forward one does not. -/
def directionFor (order : SortOrder) (requested : Option SortOrder) : Direction :=
  match requested with
  | some r => if !order.subsumes r && order.reversed.subsumes r then .backward else .forward
  | none => .forward

def orderedCandidate (t : Table) (i : OrderedIndex) (conjuncts : List Expr)
    (requested : Option SortOrder) : Result Candidate := do
  let (columns, consumed) ← KeyRange.extract (foreign t) i.keys conjuncts
  match directionFor i.ordering requested with
  | .forward => pure ⟨.range ⟨columns, .forward⟩, consumed, i.ordering⟩
  | .backward => pure ⟨.range ⟨columns, .backward⟩, consumed, i.ordering.reversed⟩

/-- The expression that a conjunct equates with `key`, if it is foreign to the table. -/
def equated (t : Table) (key : Expr) : Expr → Result (Option Expr)
  | .binary (.cmp .eq) l r => do
    if ← if l.equiv key then foreign t r else pure false then pure (some r)
    else if ← if r.equiv key then foreign t l else pure false then pure (some l)
    else pure none
  | _ => .ok none

/-- The first conjunct that equates the key with a foreign expression. -/
def hashedCandidate (t : Table) (i : HashedIndex) : List Expr → Result (Option Candidate)
  | [] => .ok none
  | e :: es => do
    match ← equated t i.key e with
    | some probe => pure (some ⟨.key probe, [e], .empty⟩)
    | none => hashedCandidate t i es

def candidate (t : Table) (i : Index) (conjuncts : List Expr) (requested : Option SortOrder) :
    Result (Option Candidate) :=
  match i.base with
  | .ordered i => some <$> orderedCandidate t i conjuncts requested
  | .hashed i => hashedCandidate t i conjuncts

/-- The condition of the index is part of the filter. -/
def implied (i : Index) (conjuncts : List Expr) : Bool :=
  (Filter.conjuncts i.condition).all (Filter.contains conjuncts)

/-- The best path so far. -/
structure Choice where
  path : AccessPath
  score : UInt32

/-- Weighs one index against the best path so far, which it has to outdo. -/
def consider (t : Table) (filter : Filter) (requested : Option SortOrder) (weights : AccessWeights)
    (best : Choice) (i : Index) : Logged Choice := do
  let conjuncts := filter.conjuncts
  if !implied i conjuncts then
    Logged.note (.conditionNotImplied i.name)
    return best
  match ← candidate t i conjuncts requested with
  | none => return best
  | some c =>
    let enforced := Filter.union [i.condition, Filter.ofList c.consumed]
    let absorbed := conjuncts.length - (filter.diff enforced).count
    let bonus := if requested.any c.ordering.subsumes then weights.orderBonus else 0
    let score := weights.filterWeight * .ofNat absorbed + bonus
    Logged.note (.indexScored i.name t.name score absorbed)
    if best.score < score then return ⟨⟨t, .index i c.probe enforced c.ordering⟩, score⟩
    else return best

/-- The path of the highest score; the table itself scores nothing. -/
def select (t : Table) (filter : Filter) (order : Option SortOrder) (weights : AccessWeights) :
    Logged AccessPath := do
  let requested := order.filter (!·.isEmpty)
  let best ← t.indexes.foldlM (consider t filter requested weights) ⟨⟨t, .full⟩, 0⟩
  Logged.note (.accessChosen t.name best.path.indexName? best.score)
  return best.path

end AccessPath

end RelPlan

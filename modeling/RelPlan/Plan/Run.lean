import RelPlan.Join.Hash
import RelPlan.Join.Merge
import RelPlan.Join.NestedLoop
import RelPlan.Plan.Optimize
import RelPlan.Sorting

/-!
# Running a plan

Opens the scan of an optimized plan in a scope of outer rows.  The rows need not satisfy the plan's
residual filter; `execute` checks it.
-/

namespace RelPlan

/-- A row with the values that it is sorted by. -/
structure SortedRow where
  key : List Value
  row : Row
deriving DecidableEq, Repr

namespace SortOrder

def less (o : SortOrder) (a b : SortedRow) : Bool := o.compare a.key b.key = .lt

/-- Reads a scan to its end, with the sort values of each row. -/
def gather (scope : Scope) (o : SortOrder) (s : Unit → Scan Row) : Logged (List SortedRow) :=
  ((s ()).map fun row => return ⟨← o.keyOf scope row, row⟩).drain

end SortOrder

namespace Source

/-- Opens a source.  A table without a path has not been optimized. -/
def scan (s : Source) (scope : Scope) : Result Opened :=
  match s with
  | table r =>
    match r.path with
    | some path => .once <$> path.scan scope
    | none => .error (.notOptimized s.name)
  | rows r =>
    match r.pushed with
    | none => .ok (.ofRows r.rows)
    | some e => .ofRows <$> r.rows.filterM fun row => e.holds scope row

end Source

namespace Output

/-- The row that outputs compute from a row. -/
def compute (scope : Scope) (outputs : List Output) (row : Row) : Result Row := do
  Row.make (outputs.map Output.column) (← Expr.evalAll scope row (outputs.map Output.expr))

end Output

namespace Cut

/-- A limit of no rows does not even pull. -/
def apply {α : Type} (c : Cut) (s : Unit → Scan α) : Scan α :=
  match c with
  | limit n => if n = 0 then .done else (s ()).take n
  | offset n => (s ()).drop n

end Cut

namespace Plan

/-- Sorts an opened scan, or holds its rows in memory, where the node has to. -/
def scanSorted (phase : Phase) (order : SortOrder) (buffered : Bool) (input : Plan) (scope : Scope)
    (o : Opened) : Logged Opened :=
  let sorts := needsSort phase order input
  if !sorts && (!buffered || input.keepsRows) then pure o
  else do
    let rows ← order.gather scope o.scan
    let rows := if sorts then stableSort order.less rows else rows
    return .ofRows (rows.map SortedRow.row)

/-- The scan of a stage over the opened scan of its input. -/
def scanStage (phase : Phase) (s : Stage) (input : Plan) (scope : Scope) (o : Opened) :
    Logged Opened :=
  match s with
  | .filter _ _ => pure (o.filter scope (checked phase input))
  | .sort order buffered _ => scanSorted phase order buffered input scope o
  | .project outputs _ _ _ =>
    pure ((o.filter scope (checked phase input)).map (Output.compute scope outputs))
  | .cut c _ _ => pure (.once fun _ => c.apply (o.filter scope (checked phase input)).scan)
  | .rename _ _ _ _ => pure (o.reshape (s.columns input.columns))

/-- Opens the scan of a plan. -/
def scan (scope : Scope) : Plan → Logged Opened
  | p@(source _ s) => do
    p.requireClosed
    s.scan scope
  | p@(stage phase s input) => do
    p.requireClosed
    let o ← input.scan scope
    scanStage phase s input scope o
  | p@(pair phase (.join j) left right) => do
    p.requireClosed
    let l := (← left.scan scope).filter scope (checked phase left)
    match j.strategy with
    | none => Logged.fail (.notOptimized p.name)
    | some .nestedLoop =>
      let columns := p.columns
      let partners := fun row => do
        let inner := scope.push row
        let r ← right.scan inner
        return (r.filter inner (checked phase right)).scan
      return .once fun _ => nestedLoop columns partners l.scan
    | some (.hash pairs) =>
      let r := (← right.scan scope).filter scope (checked phase right)
      return .once fun _ => hashJoin scope p.columns pairs l.scan r.scan
    | some (.merge pairs) =>
      let r := (← right.scan scope).filter scope (checked phase right)
      return .once fun _ => mergeJoin scope p.columns pairs l.scan r
  | p@(pair _ (.union u) left right) => do
    p.requireClosed
    let l ← left.scan scope
    let r ← right.scan scope
    let l := (l.reshape p.columns).filter scope u.leftLocal
    let r := (r.reshape p.columns).filter scope u.rightLocal
    let rows := fun _ => (l.scan ()).append r.scan
    if u.distinct then return .once fun _ => (rows ()).distinct Row.values {}
    else return .once rows

/-- Optimizes a plan and reads all rows that satisfy what it leaves over. -/
def execute : Change Plan (List Row) := fun p =>
  let (p, optimized) := p.optimize
  (p, do
    optimized
    let o ← p.scan .empty
    ((o.filter .empty p.residual).scan ()).drain)

end Plan

end RelPlan

import RelPlan.Plan.Run

/-!
# Scanners with marks

The scanner of an opened plan gives one row at a time.  If its rows are in memory it remembers the
position of the next one, and the position that was marked last.  Filters, projections and renamings
pass marks on to the scanner that they read.  All other scanners read their rows once and take no
marks.
-/

namespace RelPlan

/-- A scanner and where it has got to. -/
inductive Scanner
  | rows (rows : List Row) (position : Nat) (marked : Option Nat)
  /-- What is left of rows that are read once. -/
  | stream (rest : Unit → Scan Row)
  | filtered (scope : Scope) (predicate : Expr) (inner : Scanner)
  | mapped (f : Row → Result Row) (inner : Scanner)

/-- Up to the first row that is taken or fails, with the position behind it. -/
def pullRows {β : Type} (take : Row → Result (Option β)) :
    Nat → List Row → Result (Option β) × Nat
  | position, [] => (.ok none, position)
  | position, row :: rows =>
    match take row with
    | .ok none => pullRows take (position + 1) rows
    | .ok (some b) => (.ok (some b), position + 1)
    | .error cause => (.error cause, position + 1)

/-- Up to the first row that is taken or fails, after the given notes, the latest one first. -/
def Scan.pullAfter {α β : Type} (take : α → Result (Option β)) :
    List Note → Scan α → Logged (Option β) × (Unit → Scan α)
  | ns, done => (⟨ns.reverse, .ok none⟩, fun _ => done)
  | ns, fail cause => (⟨ns.reverse, .error cause⟩, fun _ => fail cause)
  | ns, note n s => pullAfter take (n :: ns) (s ())
  | ns, row a s =>
    match take a with
    | .ok none => pullAfter take ns (s ())
    | .ok (some b) => (⟨ns.reverse, .ok (some b)⟩, s)
    | .error cause => (⟨ns.reverse, .error cause⟩, s)

namespace Scanner

/-- Rows held in memory, none of which has been given out. -/
def ofRows (rs : List Row) : Scanner := rows rs 0 none

/-- A scanner below a filter. -/
def wrap (scope : Scope) (f : Filter) (s : Scanner) : Scanner :=
  match f with
  | none => s
  | some e => filtered scope e s

/-- Asks for rows until one is taken.  What a filter drops is asked for again below it. -/
def pull {β : Type} (take : Row → Result (Option β)) : Scanner → Logged (Option β) × Scanner
  | rows rs position marked =>
    let (x, position) := pullRows take position (rs.drop position)
    (⟨[], x⟩, rows rs position marked)
  | stream rest =>
    let (x, rest) := (rest ()).pullAfter take []
    (x, stream rest)
  | filtered scope e inner =>
    let (x, inner) := inner.pull fun row => do if ← e.holds scope row then take row else pure none
    (x, filtered scope e inner)
  | mapped f inner =>
    let (x, inner) := inner.pull fun row => do take (← f row)
    (x, mapped f inner)

/-- The next row, `none` at the end. -/
def next (s : Scanner) : Logged (Option Row) × Scanner := s.pull fun row => .ok (some row)

/-- Remembers where the scanner has got to. -/
def mark : Scanner → Result Scanner
  | rows rs position _ => .ok (rows rs position (some position))
  | stream _ => .error .markUnsupported
  | filtered scope e inner => filtered scope e <$> inner.mark
  | mapped f inner => mapped f <$> inner.mark

/-- Goes back to the last mark, or to the first row. -/
def restore : Scanner → Result Scanner
  | rows rs _ marked => .ok (rows rs (marked.getD 0) marked)
  | stream _ => .error .markUnsupported
  | filtered scope e inner => filtered scope e <$> inner.restore
  | mapped f inner => mapped f <$> inner.restore

/-- The rows that have not been given out. -/
def rest : Scanner → Unit → Scan Row
  | rows rs position _ => fun _ => .ofList (rs.drop position)
  | stream rest => rest
  | filtered scope e inner => fun _ => (inner.rest ()).filter fun row => e.holds scope row
  | mapped f inner => fun _ => (inner.rest ()).map f

end Scanner

namespace Plan

/-- Sorts what a scanner gives, or holds it in memory, where the node has to. -/
def scannerSorted (phase : Phase) (order : SortOrder) (buffered : Bool) (input : Plan)
    (scope : Scope) (s : Scanner) : Logged Scanner :=
  let sorts := needsSort phase order input
  if !sorts && (!buffered || input.keepsRows) then pure s
  else do
    let rows ← order.gather scope s.rest
    let rows := if sorts then stableSort order.less rows else rows
    return .ofRows (rows.map SortedRow.row)

/-- Opens a plan as a scanner.  Tables, cuts, joins and unions read their rows once. -/
def scanner (scope : Scope) : Plan → Logged Scanner
  | p@(source _ (.rows r)) => do
    p.requireClosed
    match r.pushed with
    | none => return .ofRows r.rows
    | some e => Scanner.ofRows <$> Logged.ofResult (r.rows.filterM fun row => e.holds scope row)
  | p@(stage phase s input) =>
    match s with
    | .filter _ _ => do
      p.requireClosed
      return (← input.scanner scope).wrap scope (checked phase input)
    | .sort order buffered _ => do
      p.requireClosed
      scannerSorted phase order buffered input scope (← input.scanner scope)
    | .project outputs _ _ _ => do
      p.requireClosed
      return .mapped (Output.compute scope outputs)
        ((← input.scanner scope).wrap scope (checked phase input))
    | .rename _ _ _ _ => do
      p.requireClosed
      return .mapped (fun row => row.reshape (s.columns input.columns)) (← input.scanner scope)
    | .cut _ _ _ => (fun o => .stream o.scan) <$> p.scan scope
  | p => (fun o => .stream o.scan) <$> p.scan scope

end Plan

end RelPlan

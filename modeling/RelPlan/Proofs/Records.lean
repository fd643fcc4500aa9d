import RelPlan.Plan.Run
import RelPlan.Proofs.Admission
import RelPlan.Proofs.ScanShows
import RelPlan.Proofs.SortValues
import RelPlan.Proofs.TableRuns

/-!
# The records of a plan

What a plan yields, read off its nodes as they were built: tables yield their rows, filters keep the
records that pass, joins the pairs that do, and so on.  Nothing is pushed down, nothing is handed
over, and nothing fails: what cannot be computed is a missing cell.  Only of a cut this says no more
than that it cuts what its input yields when it is run by itself.
-/

namespace RelPlan

/-- Cells for the columns of a plan, and the tid of a stored row. -/
structure Record where
  cells : List (Option Value)
  tid : Option Nat
deriving DecidableEq, Repr

namespace Record

variable {columns left right : List Column} {outer : Env} {x y : Record}

/-- What references are worth on a record. -/
def env (columns : List Column) (outer : Env) (x : Record) : Env := cellsEnv columns outer x.cells

/-- The cells of two records. -/
def append (x y : Record) : Record := ⟨x.cells ++ y.cells, none⟩

/-- The record without its tid. -/
def bare (x : Record) : Record := ⟨x.cells, none⟩

@[simp] theorem cells_bare (x : Record) : x.bare.cells = x.cells := rfl

/-- The record of what outputs are worth. -/
def compute (columns : List Column) (outputs : List Output) (x : Record) : Record :=
  ⟨outputs.map fun out => out.expr.worth (x.env columns Scope.empty.env), none⟩

/-- A cell for each column, and no binary64 datum. -/
structure Fits (columns : List Column) (x : Record) : Prop where
  length : x.cells.length = columns.length
  exact : ∀ v, some v ∈ x.cells → v.isExact

theorem Fits.env (h : x.Fits columns) (ho : outer.IsExact) : (x.env columns outer).IsExact :=
  isExact_cellsEnv ho h.exact

theorem Fits.append (hx : x.Fits left) (hy : y.Fits right) : (x.append y).Fits (left ++ right) := by
  refine ⟨by simp [Record.append, hx.length, hy.length], fun v hv => ?_⟩
  rcases List.mem_append.1 hv with hv | hv
  exacts [hx.exact v hv, hy.exact v hv]

theorem Fits.bare (h : x.Fits columns) (hlen : columns.length = left.length) :
    x.bare.Fits left := ⟨h.length.trans hlen, h.exact⟩

end Record

namespace Row

variable {columns : List Column} {row : Row} {x : Record} {scope : Scope}

def record (row : Row) : Record := ⟨row.values.map some, row.tid⟩

theorem fits_record (h : row.IsExact) : row.record.Fits row.columns :=
  ⟨by simp [record, row.aligned], fun v hv => h v (by simpa [record] using hv)⟩

/-- The row has the given columns and the values of the record. -/
def Stands (columns : List Column) (row : Row) (x : Record) : Prop :=
  row.columns = columns ∧ row.record = x

theorem Stands.env (h : row.Stands columns x) : row.env scope = x.env columns scope.env := by
  obtain ⟨rfl, rfl⟩ := h
  exact row.env_eq scope

theorem Stands.isExact (h : row.Stands columns x) (hx : x.Fits columns) : row.IsExact := by
  obtain ⟨rfl, rfl⟩ := h
  exact fun v hv => hx.exact v (by simpa [record] using hv)

end Row

/-- The rows that pulling brings to light before the end or a failure. -/
def Scan.seen {α : Type} : Scan α → List α
  | done | fail _ => []
  | note _ s => (s ()).seen
  | row a s => a :: (s ()).seen

namespace Cut

/-- The members that a cut keeps. -/
def select {α : Type} : Cut → List α → List α
  | limit n, as => as.take n
  | offset n, as => as.drop n

end Cut

namespace Plan

/-- The rows that an optimized plan brings to light outside every row. -/
def seen (p : Plan) : List Row :=
  match (p.scan .empty).result with
  | .ok o => (o.scan ()).seen
  | .error _ => []

/-- What the plan yields as it was built.  What was handed to it plays no part. -/
def records : Plan → List Record
  | source _ (.table r) => r.table.rows.map Row.record
  | source _ (.rows r) => r.rows.map Row.record
  | stage _ (.filter e _) input =>
    input.records.filter fun x => e.Passes (x.env input.columns Scope.empty.env)
  | stage _ (.sort _ _ _) input => input.records
  | stage _ (.project outputs _ _ _) input =>
    input.records.map (.compute input.columns outputs)
  | stage _ (.cut c _ _) input => (c.select input.optimize.1.seen).map Row.record
  | stage _ (.rename _ _ _ _) input => input.records.map Record.bare
  | pair _ (.join j) left right =>
    (left.records.flatMap fun x => right.records.map x.append).filter fun z =>
      Filter.Passes (z.env (left.columns ++ right.columns) Scope.empty.env) j.condition
  | pair _ (.union u) left right =>
    let all := (left.records ++ right.records).map Record.bare
    if u.distinct then all.eraseDups else all

/-- A plan that was put together and has not been handed anything.  Its tables were reached by
operations on them (`Table.Reachable`), so they and the expressions of their indexes hold no
binary64 data; its own rows and expressions may. -/
inductive Built : Plan → Prop
  | read {t : Table} (weights : AccessWeights) (ht : t.Reachable) : Built (.read t weights)
  | rows {columns : List Column} {rows : List Row} (hcol : ∀ row ∈ rows, row.columns = columns) :
      Built (source .building (.rows { columns, rows }))
  | filter (e : Expr) {p : Plan} (hp : Built p) : Built (p.filter e)
  | sort (o : SortOrder) (buffered : Bool) {p : Plan} (hp : Built p) :
      Built (stage .building (.sort o buffered none) p)
  | project (outputs : List Output) {p : Plan} (hp : Built p) :
      Built (stage .building (.project outputs none none none) p)
  | cut (c : Cut) {p : Plan} (hp : Built p) : Built (stage .building (.cut c none none) p)
  | rename (name : String) {p : Plan} (hp : Built p) : Built (p.rename name)
  | join (condition : Option Expr) (choice : JoinChoice) {left right : Plan} (hl : Built left)
      (hr : Built right) : Built (.join condition choice left right)
  | union (distinct : Bool) {left right : Plan} (hl : Built left) (hr : Built right) :
      Built (.union distinct left right)

/-- No constant in the plan is a binary64 datum. -/
def IsExact : Plan → Prop
  | source _ (.table _) => True
  | source _ (.rows r) => ∀ row ∈ r.rows, row.IsExact
  | stage _ s input =>
    (match s with
      | .filter e _ => e.isExact
      | .sort o _ _ => o.IsExact
      | .project outputs _ _ _ => ∀ out ∈ outputs, out.expr.isExact
      | .cut _ _ _ | .rename _ _ _ _ => True) ∧ input.IsExact
  | pair _ (.join j) left right => Filter.IsExact j.condition ∧ left.IsExact ∧ right.IsExact
  | pair _ (.union _) left right => left.IsExact ∧ right.IsExact

instance decidableIsExact : (p : Plan) → Decidable p.IsExact
  | source _ (.table _) => .isTrue trivial
  | source _ (.rows r) => inferInstanceAs (Decidable (∀ row ∈ r.rows, row.IsExact))
  | stage _ s input =>
    have := decidableIsExact input
    match s with
    | .filter e _ => inferInstanceAs (Decidable (e.isExact ∧ input.IsExact))
    | .sort o _ _ => inferInstanceAs (Decidable (o.IsExact ∧ input.IsExact))
    | .project outputs _ _ _ =>
      inferInstanceAs (Decidable ((∀ out ∈ outputs, out.expr.isExact) ∧ input.IsExact))
    | .cut _ _ _ | .rename _ _ _ _ => inferInstanceAs (Decidable (True ∧ input.IsExact))
  | pair _ (.join j) left right =>
    have := decidableIsExact left
    have := decidableIsExact right
    have : Decidable (Filter.IsExact j.condition) :=
      inferInstanceAs (Decidable (∀ e ∈ j.condition, e.isExact))
    inferInstanceAs (Decidable (Filter.IsExact j.condition ∧ left.IsExact ∧ right.IsExact))
  | pair _ (.union _) left right =>
    have := decidableIsExact left
    have := decidableIsExact right
    inferInstanceAs (Decidable (left.IsExact ∧ right.IsExact))

theorem Built.values {columns : List Column} {vss : List (List Value)} {p : Plan}
    (h : Plan.values columns vss = .ok p) : p.Built := by
  obtain ⟨rows, hrows, hp⟩ := Result.bind_eq_ok.1 h
  cases hp
  refine .rows fun row hrow => ?_
  obtain ⟨vs, -, hmake⟩ := exists_of_forall₂ (Result.mapM_eq_ok.1 hrows) hrow
  exact (Row.make_eq_ok hmake).1

end Plan

end RelPlan

import RelPlan.QueryError

/-!
# Rows and scopes

A row holds one value for each of its columns.  A scope is the rows in which references are looked
up, innermost first: the row at hand, then the rows of the enclosing scans.  A reference that means
two columns of one row is an error even if a row further out would settle it.
-/

namespace RelPlan

/-- The positions of the columns that a reference may mean, counted from `i`. -/
def positionsFrom (r : ColumnRef) (i : Nat) : List Column → List Nat
  | [] => []
  | c :: cs => if c.answers r then i :: positionsFrom r (i + 1) cs else positionsFrom r (i + 1) cs

/-- The position of the column that a reference means: none, one, or an error. -/
def resolve (columns : List Column) (r : ColumnRef) : Result (Option Nat) :=
  match positionsFrom r 0 columns with
  | [] => .ok none
  | [i] => .ok (some i)
  | _ => .error (.ambiguousColumn r)

/-- `resolve` where a missing column is an error. -/
def resolveRequired (columns : List Column) (r : ColumnRef) : Result Nat := do
  match ← resolve columns r with
  | some i => pure i
  | none => throw (.unknownColumn r)

/-- One value for each column, and the tid of a stored row. -/
structure Row where
  columns : List Column
  values : List Value
  tid : Option Nat
  aligned : values.length = columns.length
deriving DecidableEq, Repr

namespace Row

/-- A row that is not stored. -/
def make (columns : List Column) (values : List Value) : Result Row :=
  if h : values.length = columns.length then .ok ⟨columns, values, none, h⟩
  else .error (.arityMismatch columns.length values.length)

def withTid (row : Row) (tid : Nat) : Row := { row with tid := some tid }

def requireTid (row : Row) : Result Nat :=
  match row.tid with
  | some tid => .ok tid
  | none => .error .unstoredRow

/-- The value of the column that a reference means, if the row has one. -/
def lookup (row : Row) (r : ColumnRef) : Result (Option Value) := do
  match ← resolve row.columns r with
  | some i => pure row.values[i]?
  | none => pure none

/-- The same values under other columns. -/
def reshape (row : Row) (columns : List Column) : Result Row := make columns row.values

/-- The values of two rows, under the given columns. -/
def concat (left right : Row) (columns : List Column) : Result Row :=
  make columns (left.values ++ right.values)

end Row

/-- The rows that references are looked up in, innermost first. -/
structure Scope where
  rows : List Row
deriving DecidableEq, Repr

namespace Scope

def empty : Scope := ⟨[]⟩

/-- The scope with one more row inside. -/
def push (scope : Scope) (row : Row) : Scope := ⟨row :: scope.rows⟩

/-- The value of a reference in the innermost row that has a column for it. -/
def lookupIn : List Row → ColumnRef → Result Value
  | [], r => .error (.unknownColumn r)
  | row :: rows, r => do
    match ← row.lookup r with
    | some v => pure v
    | none => lookupIn rows r

def lookup (scope : Scope) (r : ColumnRef) : Result Value := lookupIn scope.rows r

end Scope

end RelPlan

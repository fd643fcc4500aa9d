import RelPlan.Row

/-!
# Renaming and references

Moves an expression from the columns of one plan node to those of another, and asks which of its
references the columns produce.  A reference that the columns do not produce belongs to an outer
row and keeps its name; `capturesOuter` says when the other side would take it for its own.
-/

namespace RelPlan

/-- The name of a reference after a positional renaming of `source` into `target`. -/
def renameRef (source target : List Column) (r : ColumnRef) : Result Expr := do
  match ← resolve source r with
  | some i =>
    match target[i]? with
    | some c => pure (.ref c.ref)
    | none => pure (.ref r)
  | none => pure (.ref r)

/-- Whether the columns produce every one of the references. -/
def allResolve (columns : List Column) : List ColumnRef → Result Bool
  | [] => .ok true
  | r :: rs => do
    match ← resolve columns r with
    | some _ => allResolve columns rs
    | none => pure false

/-- Whether the columns produce one of the references. -/
def anyResolves (columns : List Column) : List ColumnRef → Result Bool
  | [] => .ok false
  | r :: rs => do
    match ← resolve columns r with
    | some _ => pure true
    | none => anyResolves columns rs

/-- Fails at the first reference that the columns do not produce. -/
def requireAll (columns : List Column) : List ColumnRef → Result Unit
  | [] => .ok ()
  | r :: rs => do
    let _ ← resolveRequired columns r
    requireAll columns rs

/-- Whether one of the references is foreign to `own` but means something, or too much, among the
columns of `child`. -/
def anyCaptured (own child : List Column) : List ColumnRef → Result Bool
  | [] => .ok false
  | r :: rs => do
    match ← resolve own r with
    | some _ => anyCaptured own child rs
    | none =>
      match resolve child r with
      | .ok none => anyCaptured own child rs
      | _ => pure true

namespace Expr

/-- Replaces references to a column of `source` by the full name of the column of `target` at the
same position. -/
def rename (source target : List Column) (e : Expr) : Result Expr :=
  e.subst (renameRef source target)

/-- Gives references to the columns their full names. -/
def qualify (columns : List Column) (e : Expr) : Result Expr := e.rename columns columns

/-- Every reference is produced by the columns. -/
def resolvesWithin (columns : List Column) (e : Expr) : Result Bool := allResolve columns e.refs

/-- Some reference is produced by the columns. -/
def readsAny (columns : List Column) (e : Expr) : Result Bool := anyResolves columns e.refs

/-- Fails unless every reference means exactly one of the columns. -/
def validate (columns : List Column) (e : Expr) : Result Unit := requireAll columns e.refs

/-- Whether an outer reference of the expression, seen from `own`, would be taken by `child`. -/
def capturesOuter (own child : List Column) (e : Expr) : Result Bool := anyCaptured own child e.refs

end Expr

end RelPlan

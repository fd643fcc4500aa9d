import RelPlan.Index
import RelPlan.Logged

/-!
# Tables

Rows under tids that are never given out twice, and indexes kept in step with them.  Storing a row
is all or nothing; a failed update puts the old row back.
-/

namespace RelPlan

structure Table where
  name : String
  columns : List Column
  /-- The stored rows by ascending tid. -/
  rows : List Row
  indexes : List Index
  nextTid : Nat

namespace Table

/-- A table without rows.  Its columns carry its name. -/
def make (name : String) (columns : List (String × DataType)) : Table :=
  ⟨name, columns.map fun (c, type) => ⟨some name, c, type, false⟩, [], [], 0⟩

def row (t : Table) (tid : Nat) : Option Row := t.rows.find? (·.tid = some tid)

/-- Fails at the first value that its column cannot hold. -/
def checkTypes : List Column → List Value → Result Unit
  | c :: cs, v :: vs =>
    if v.dataType.compatible c.dataType then checkTypes cs vs
    else .error (.typeMismatch (.storing c.ref) v.dataType c.dataType)
  | _, _ => .ok ()

/-- The row of the given values, if the table can hold it. -/
def checkedRow (t : Table) (values : List Value) : Result Row := do
  let row ← Row.make t.columns values
  checkTypes t.columns values
  pure row

/-- Inserts a row before those of greater tid. -/
def putRow (row : Row) : List Row → List Row
  | [] => [row]
  | r :: rs => if row.tid.getD 0 ≤ r.tid.getD 0 then row :: r :: rs else r :: putRow row rs

/-- Adds a row to each index in turn.  When one refuses it, those before it give it up again, the
last one first. -/
def insertEach (row : Row) : List Index → List Index × Logged Unit
  | [] => ([], pure ())
  | i :: is =>
    match i.insert row with
    | .error e => (i :: is, .fail e)
    | .ok i =>
      match insertEach row is with
      | (is, ⟨notes, .ok ()⟩) => (i :: is, ⟨notes, .ok ()⟩)
      | (is, ⟨notes, .error e⟩) =>
        match i.delete row with
        | .ok (i, _) => (i :: is, ⟨notes, .error e⟩)
        | .error cause =>
          (i :: is, ⟨notes ++ [.rollbackFailed (row.tid.getD 0) i.name cause], .error e⟩)

/-- Removes a row from each index in turn. -/
def deleteEach (row : Row) : List Index → List Index × Result Unit
  | [] => ([], .ok ())
  | i :: is =>
    match i.delete row with
    | .error e => (i :: is, .error e)
    | .ok (i, _) =>
      let (is, r) := deleteEach row is
      (i :: is, r)

/-- Adds a row with a tid to the indexes and to the rows, or to none of them. -/
def store (row : Row) : Change Table Unit := fun t =>
  match insertEach row t.indexes with
  | (indexes, ⟨notes, .ok ()⟩) => ({ t with rows := putRow row t.rows, indexes }, ⟨notes, .ok ()⟩)
  | (indexes, ⟨notes, .error e⟩) => ({ t with indexes }, ⟨notes, .error e⟩)

/-- Stores a row of the given values under the next tid.  The tid is spent even if a unique index
refuses the row. -/
def insert (values : List Value) : Change Table Row := fun t =>
  match t.checkedRow values with
  | .error e => (t, .fail e)
  | .ok row =>
    let row := row.withTid t.nextTid
    let (t, stored) := store row { t with nextTid := t.nextTid + 1 }
    (t, do stored; pure row)

/-- Removes the stored row with a tid and returns it. -/
def deleteTid (tid : Nat) : Change Table (Option Row) := fun t =>
  match t.row tid with
  | none => (t, pure none)
  | some row =>
    let (indexes, r) := deleteEach row t.indexes
    ({ t with rows := t.rows.filter (·.tid ≠ some tid), indexes }, ⟨[], r.map fun _ => some row⟩)

/-- Removes the stored row with the tid of the given one. -/
def delete (row : Row) : Change Table (Option Row) := fun t =>
  match row.requireTid with
  | .error e => (t, .fail e)
  | .ok tid => deleteTid tid t

/-- Replaces a stored row by one under a new tid.  If that fails the old row is stored again. -/
def update (tid : Nat) (values : List Value) : Change Table Row := fun t =>
  match t.checkedRow values, t.row tid with
  | .error e, _ => (t, .fail e)
  | .ok _, none => (t, .fail (.missingRow t.name "primary" tid))
  | .ok _, some old =>
    match deleteTid tid t with
    | (t, ⟨notes, .error e⟩) => (t, ⟨notes, .error e⟩)
    | (t, ⟨notes, .ok _⟩) =>
      match insert values t with
      | (t, ⟨notes', .ok row⟩) => (t, ⟨notes ++ notes', .ok row⟩)
      | (t, ⟨notes', .error e⟩) =>
        let (t, restored) := store old t
        (t, ⟨notes ++ notes' ++ restored.notes, restored.result.bind fun _ => .error e⟩)

/-- Enters stored rows into an index. -/
def fill : List Row → Index → Result Index
  | [], i => .ok i
  | row :: rows, i => do fill rows (← i.insert row)

/-- Attaches an index under a new name and enters the stored rows. -/
def addIndex (i : Index) : Change Table Unit := fun t =>
  if t.indexes.any (·.name = i.name) then (t, .fail (.indexDuplicate i.name t.name))
  else
    match i.attach t.columns with
    | (_, .error e) => (t, .fail e)
    | (i, .ok ()) =>
      match fill t.rows i with
      | .error e => (t, .fail e)
      | .ok i => ({ t with indexes := t.indexes ++ [i] }, .note (.indexAdded t.name i.name i.size))

end Table

end RelPlan

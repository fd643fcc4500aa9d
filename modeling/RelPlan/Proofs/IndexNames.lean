import RelPlan.Proofs.TracedTables

/-!
# Names of indexes

An index keeps its name while rows come and go, and a table refuses an index under a name that it
has in use.  So a name is that of one index at most, whatever operations a table went through
(`Table.nodup_names_run`).
-/

namespace RelPlan

variable {row : Row} {columns : List Column}

theorem BaseIndex.name_of_blank {i i' : BaseIndex} (h : i'.blank = i.blank) : i'.name = i.name := by
  cases i <;> cases i' <;>
    simp_all [name, blank, OrderedIndex.blank, HashedIndex.blank]

namespace Index

variable {i i' : Index}

theorem name_insert (h : i.insert row = .ok i') : i'.name = i.name := by
  rcases insert_eq_ok.1 h with ⟨-, rfl⟩ | ⟨base, -, hbase, rfl⟩
  · rfl
  · obtain ⟨-, -, -, -, hblank⟩ := BaseIndex.insert_entries hbase
    exact BaseIndex.name_of_blank hblank

theorem name_delete {found : Bool} (h : i.delete row = .ok (i', found)) : i'.name = i.name := by
  obtain ⟨covered, -, h⟩ := Result.bind_eq_ok.1 h
  cases covered with
  | false => cases h; rfl
  | true =>
    obtain ⟨⟨base, found'⟩, hbase, h⟩ := Result.bind_eq_ok.1 h
    cases h
    rcases BaseIndex.delete_entries hbase with rfl | ⟨-, -, -, hblank⟩
    · rfl
    · exact BaseIndex.name_of_blank hblank

theorem name_attachBase {b b' : BaseIndex} (h : attachBase columns b = (b', .ok ())) :
    b'.name = b.name := by
  unfold attachBase at h
  split at h
  · split at h
    · cases h
    · split at h <;> cases h
      rfl
  · split at h <;> cases h
    rfl

theorem name_attach (h : i.attach columns = (i', .ok ())) : i'.name = i.name :=
  name_attachBase (attach_eq_ok h).1

theorem name_fill {rows : List Row} (h : Table.fill rows i = .ok i') : i'.name = i.name := by
  induction rows generalizing i with
  | nil => cases h; rfl
  | cons row rows ih =>
    obtain ⟨i₁, hins, h⟩ := Result.bind_eq_ok.1 h
    exact (ih h).trans (name_insert hins)

end Index

namespace Table

variable {t : Table} {is : List Index}

/-- The names of the indexes of a table. -/
def names (t : Table) : List String := t.indexes.map Index.name

theorem names_insertEach (row : Row) (is : List Index) :
    (insertEach row is).1.map Index.name = is.map Index.name := by
  induction is with
  | nil => rfl
  | cons i is ih =>
    unfold insertEach
    cases hins : i.insert row with
    | error e => rfl
    | ok i' =>
      have hi' := Index.name_insert hins
      rcases heach : insertEach row is with ⟨js, notes, e | ⟨⟩⟩ <;> rw [heach] at ih
      · dsimp only
        split
        · next hdel => simp [Index.name_delete hdel, hi', ih]
        · simp [hi', ih]
      · simp [hi', ih]

theorem names_deleteEach (row : Row) (is : List Index) :
    (deleteEach row is).1.map Index.name = is.map Index.name := by
  induction is with
  | nil => rfl
  | cons i is ih =>
    unfold deleteEach
    split
    · rfl
    · next hdel => simp [Index.name_delete hdel, ih]

@[simp] theorem names_store (row : Row) (t : Table) : (store row t).1.names = t.names := by
  have hnames := names_insertEach row t.indexes
  unfold store
  rcases heach : insertEach row t.indexes with ⟨js, notes, e | ⟨⟩⟩ <;> rw [heach] at hnames <;>
    exact hnames

@[simp] theorem names_insert (values : List Value) (t : Table) :
    (insert values t).1.names = t.names := by
  unfold Table.insert
  split
  · rfl
  · exact names_store _ _

@[simp] theorem names_deleteTid (tid : Nat) (t : Table) : (deleteTid tid t).1.names = t.names := by
  unfold deleteTid
  split
  · rfl
  · exact names_deleteEach _ _

@[simp] theorem names_delete (row : Row) (t : Table) : (delete row t).1.names = t.names := by
  unfold delete
  split
  · rfl
  · exact names_deleteTid _ _

@[simp] theorem names_update (tid : Nat) (values : List Value) (t : Table) :
    (update tid values t).1.names = t.names := by
  have hdel := names_deleteTid tid t
  unfold update
  split
  · rfl
  · rfl
  · next old _ _ =>
    rcases heq : deleteTid tid t with ⟨t₁, notes, e | removed⟩ <;> rw [heq] at hdel
    · exact hdel
    · have hins := names_insert values t₁
      dsimp only
      rcases heq' : insert values t₁ with ⟨t₂, notes', e | row⟩ <;> rw [heq'] at hins
      · exact (names_store old t₂).trans (hins.trans hdel)
      · exact hins.trans hdel

theorem nodup_names_addIndex (h : t.names.Nodup) (i : Index) : (addIndex i t).1.names.Nodup := by
  unfold addIndex
  split
  · exact h
  · next hnew =>
    split
    · exact h
    · next i' hattach =>
      split
      · exact h
      · next i'' hfill =>
        have hname : i''.name = i.name :=
          (Index.name_fill hfill).trans (Index.name_attach hattach)
        have hmem : i.name ∉ t.names := by simpa [names] using hnew
        simpa [names, hname, List.nodup_append] using ⟨h, by simpa [names] using hmem⟩

theorem nodup_names_apply (h : t.names.Nodup) (op : Op) : (op.apply t).1.names.Nodup := by
  cases op with
  | addIndex i => exact nodup_names_addIndex h i
  | _ => simpa [Op.apply] using h

/-- No two indexes of a table have one name. -/
theorem nodup_names_run (h : t.names.Nodup) (ops : List Op) : (run ops t).1.names.Nodup := by
  induction ops generalizing t with
  | nil => exact h
  | cons op ops ih => exact ih (nodup_names_apply h op)

theorem Grown.nodup_names (h : t.Grown) : t.names.Nodup := by
  obtain ⟨name, columns, ops, -, rfl⟩ := h
  exact nodup_names_run (by simp [names, make]) ops

theorem Grown.index_inj (h : t.Grown) {i j : Index} (hi : i ∈ t.indexes) (hj : j ∈ t.indexes)
    (heq : i.name = j.name) : i = j :=
  List.inj_on_of_nodup_map h.nodup_names hi hj heq

end Table

end RelPlan

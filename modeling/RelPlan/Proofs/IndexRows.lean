import Mathlib.Data.List.ReduceOption
import Mathlib.Data.List.Perm.Lattice
import RelPlan.Proofs.IndexEntries
import RelPlan.Proofs.Renaming
import RelPlan.Table

/-!
# Indexes in step with rows

An index is in step with a list of rows if its entries are those of the rows that its condition
accepts.  Entering a row and taking it out keep an index in step, and a row that was taken out can
be entered again: this is what rolling back an insertion and restoring a row rest on.
-/

namespace RelPlan

namespace Index

variable {i i' : Index} {row : Row} {rows rows' : List Row} {x y : Entry} {columns : List Column}

def entries (i : Index) : List Entry := i.base.entries

/-- The entry of a row, if the condition accepts it. -/
def entryOf (i : Index) (row : Row) : Result (Option Entry) := do
  if ← i.covers row then return some (← i.base.entryOf row) else return none

/-- The index without its entries. -/
def blank (i : Index) : Index := { i with base := i.base.blank }

/-- The expressions that are evaluated on the rows. -/
def exprs (i : Index) : List Expr :=
  i.condition.toList ++
    match i.base with
    | .ordered i => i.keys
    | .hashed i => [i.key]

def IsExact (i : Index) : Prop := ∀ e ∈ i.exprs, e.isExact

instance (i : Index) : Decidable i.IsExact :=
  inferInstanceAs (Decidable (∀ e ∈ i.exprs, e.isExact))

/-- The index has been created and nothing has been entered. -/
def HoldsNothing (i : Index) : Prop :=
  match i.base with
  | .ordered i => i.tree = .leaf ∧ i.size = 0
  | .hashed i => i.buckets = [] ∧ i.size = 0

instance (i : Index) : Decidable i.HoldsNothing :=
  match i with
  | ⟨_, .ordered i⟩ => inferInstanceAs (Decidable (i.tree = .leaf ∧ i.size = 0))
  | ⟨_, .hashed i⟩ => inferInstanceAs (Decidable (i.buckets = [] ∧ i.size = 0))

/-- The index has one entry for each row that its condition accepts, and no other ones. -/
def Agrees (i : Index) (rows : List Row) : Prop :=
  ∃ entries, rows.mapM i.entryOf = .ok entries ∧ i.entries.Perm entries.reduceOption

/-- A sound index over the given columns that agrees with the rows. -/
structure InStep (columns : List Column) (rows : List Row) (i : Index) : Prop where
  sound : i.base.Sound
  exact : i.IsExact
  attached : ∀ e ∈ i.exprs, ∀ r ∈ e.refs, ∃ k, resolve columns r = .ok (some k)
  agrees : i.Agrees rows

@[simp] theorem covers_blank (i : Index) : i.blank.covers row = i.covers row := rfl

theorem entryOf_blank (i : Index) : i.blank.entryOf = i.entryOf := by
  funext row
  simp [entryOf, blank, covers]

theorem entryOf_eq_of_blank (h : i'.blank = i.blank) : i'.entryOf = i.entryOf := by
  rw [← entryOf_blank, h, entryOf_blank]

theorem exprs_eq_of_blank (h : i'.blank = i.blank) : i'.exprs = i.exprs := by
  obtain ⟨c, b⟩ := i
  obtain ⟨c', b'⟩ := i'
  obtain ⟨rfl, hb⟩ : c' = c ∧ b'.blank = b.blank := by simpa [blank] using h
  cases b <;> cases b' <;>
    simp_all [exprs, BaseIndex.blank, OrderedIndex.blank, HashedIndex.blank]

theorem entryOf_eq_ok {o : Option Entry} : i.entryOf row = .ok o ↔
    (i.covers row = .ok false ∧ o = none) ∨
      ∃ x, i.covers row = .ok true ∧ i.base.entryOf row = .ok x ∧ o = some x := by
  unfold entryOf
  match i.covers row with
  | .error e => simp
  | .ok false => simp [eq_comm]
  | .ok true => cases i.base.entryOf row <;> simp [eq_comm]

theorem tid_of_entryOf (h : i.entryOf row = .ok (some x)) : row.tid = some x.tid := by
  obtain ⟨-, h⟩ | ⟨y, -, hy, h⟩ := entryOf_eq_ok.1 h
  · cases h
  · cases h
    obtain ⟨c, b⟩ := i
    cases b <;>
    · obtain ⟨tid, ht, hy⟩ := Result.bind_eq_ok.1 hy
      obtain ⟨key, -, hy⟩ := Result.bind_eq_ok.1 hy
      cases hy
      unfold Row.requireTid at ht
      split at ht <;> simp_all

theorem isKey_of_entryOf (hi : i.IsExact) (hr : row.IsExact) (h : i.entryOf row = .ok (some x)) :
    IsKey i.base.width x.key := by
  obtain ⟨-, h⟩ | ⟨y, -, hy, h⟩ := entryOf_eq_ok.1 h
  · cases h
  · cases h
    obtain ⟨c, b⟩ := i
    cases b with
    | ordered i =>
      obtain ⟨tid, -, hy⟩ := Result.bind_eq_ok.1 hy
      obtain ⟨key, hkey, hy⟩ := Result.bind_eq_ok.1 hy
      cases hy
      exact Expr.isKey_evalAll (fun e he => hi e (List.mem_append_right _ he))
        Scope.isExact_empty hr hkey
    | hashed i =>
      obtain ⟨tid, -, hy⟩ := Result.bind_eq_ok.1 hy
      obtain ⟨v, hv, hy⟩ := Result.bind_eq_ok.1 hy
      cases hy
      have := Expr.evalRow_isExact (hi i.key (List.mem_append_right _ (by simp)))
        Scope.isExact_empty hr hv
      exact ⟨rfl, by simpa using this⟩

theorem mem_reduceOption {entries : List (Option Entry)} (h : rows.mapM i.entryOf = .ok entries)
    (hx : x ∈ entries.reduceOption) : ∃ row ∈ rows, i.entryOf row = .ok (some x) := by
  have hall := Result.mapM_eq_ok.1 h
  obtain ⟨k, hk, hkx⟩ := List.getElem_of_mem (List.reduceOption_mem_iff.1 hx)
  have hk' : k < rows.length := hall.length_eq ▸ hk
  exact ⟨_, List.getElem_mem hk', hkx ▸ hall.get hk' hk⟩

theorem Agrees.nil (h : i.entries = []) : i.Agrees [] :=
  ⟨[], rfl, by simp [h, List.reduceOption]⟩

theorem Agrees.perm (h : i.Agrees rows) (hp : rows'.Perm rows) : i.Agrees rows' := by
  obtain ⟨es, hes, hperm⟩ := h
  obtain ⟨es', hes', hp'⟩ := List.perm_comp_forall₂ hp (Result.mapM_eq_ok.1 hes)
  exact ⟨es', Result.mapM_eq_ok.2 hes', hperm.trans (hp'.filterMap id).symm⟩

theorem InStep.perm (h : InStep columns rows i) (hp : rows'.Perm rows) : InStep columns rows' i :=
  { h with agrees := h.agrees.perm hp }

theorem agrees_cons : i.Agrees (row :: rows) ↔
    ∃ o entries, i.entryOf row = .ok o ∧ rows.mapM i.entryOf = .ok entries ∧
      i.entries.Perm (o.toList ++ entries.reduceOption) := by
  have hreduce (o : Option Entry) (es : List (Option Entry)) :
      (o :: es).reduceOption = o.toList ++ es.reduceOption := by cases o <;> simp
  constructor
  · rintro ⟨es, hes, hp⟩
    rcases Result.mapM_eq_ok.1 hes with _ | ⟨ho, hrest⟩
    next o es =>
    exact ⟨o, es, ho, Result.mapM_eq_ok.2 hrest, hreduce o es ▸ hp⟩
  · rintro ⟨o, es, ho, hes, hp⟩
    exact ⟨o :: es, Result.mapM_eq_ok.2 (.cons ho (Result.mapM_eq_ok.1 hes)), hreduce o es ▸ hp⟩

theorem Agrees.exists_row (h : i.Agrees rows) (hx : x ∈ i.entries) :
    ∃ row ∈ rows, i.entryOf row = .ok (some x) := by
  obtain ⟨es, hes, hp⟩ := h
  exact mem_reduceOption hes (hp.mem_iff.1 hx)

theorem InStep.exists_row (h : InStep columns rows i) (hx : x ∈ i.entries) :
    ∃ row ∈ rows, i.entryOf row = .ok (some x) :=
  h.agrees.exists_row hx

/-! ### Entering a row and taking it out -/

theorem insert_eq_ok : i.insert row = .ok i' ↔ (i.covers row = .ok false ∧ i' = i) ∨
    ∃ base, i.covers row = .ok true ∧ i.base.insert row = .ok base ∧ i' = { i with base } := by
  unfold insert
  match i.covers row with
  | .error e => simp
  | .ok false => simp [eq_comm]
  | .ok true => cases i.base.insert row <;> simp [eq_comm]

theorem InStep.of_blank (h : InStep columns rows i) (hb : i'.blank = i.blank)
    (hs : i'.base.Sound) (ha : i'.Agrees rows') : InStep columns rows' i' := by
  refine ⟨hs, ?_, ?_, ha⟩
  · simpa [IsExact, exprs_eq_of_blank hb] using h.exact
  · simpa [exprs_eq_of_blank hb] using h.attached

/-- An entry comes to those that there are, whatever the order of the values does. -/
theorem Agrees.insert (h : i.Agrees rows) (hins : i.insert row = .ok i') :
    i'.Agrees (row :: rows) ∧ i'.blank = i.blank := by
  obtain ⟨es, hes, hp⟩ := h
  rcases insert_eq_ok.1 hins with ⟨hc, rfl⟩ | ⟨base, hc, hbase, rfl⟩
  · exact ⟨agrees_cons.2 ⟨none, es, entryOf_eq_ok.2 (.inl ⟨hc, rfl⟩), hes, hp⟩, rfl⟩
  · obtain ⟨x, hx, hperm, -, hblank⟩ := BaseIndex.insert_entries hbase
    have ho : i.entryOf row = .ok (some x) := entryOf_eq_ok.2 (.inr ⟨x, hc, hx, rfl⟩)
    have hb : ({ i with base } : Index).blank = i.blank := by simp [blank, hblank]
    refine ⟨agrees_cons.2 ⟨some x, es, ?_, ?_, hperm.trans (hp.cons x)⟩, hb⟩
    · rw [entryOf_eq_of_blank hb, ho]
    · rw [entryOf_eq_of_blank hb, hes]

theorem InStep.insert (h : InStep columns rows i) (hr : row.IsExact)
    (hins : i.insert row = .ok i') : InStep columns (row :: rows) i' ∧ i'.blank = i.blank := by
  obtain ⟨hagrees, hb⟩ := h.agrees.insert hins
  refine ⟨h.of_blank hb ?_ hagrees, hb⟩
  rcases insert_eq_ok.1 hins with ⟨-, rfl⟩ | ⟨base, hc, hbase, rfl⟩
  · exact h.sound
  · obtain ⟨x, hx, -⟩ := BaseIndex.insert_entries hbase
    have ho : i.entryOf row = .ok (some x) := entryOf_eq_ok.2 (.inr ⟨x, hc, hx, rfl⟩)
    exact (h.sound.insert hx (isKey_of_entryOf h.exact hr ho) hbase).1

/-- A row whose tid no other row has is the only one to have an entry with it. -/
theorem Agrees.eq_entry (h : i.Agrees (row :: rows)) (hnew : ∀ r ∈ rows, r.tid ≠ row.tid)
    (hx : i.entryOf row = .ok (some x)) :
    x ∈ i.entries ∧ ∀ y ∈ i.entries, y.tid = x.tid → y = x := by
  obtain ⟨o, es, ho, hes, hp⟩ := agrees_cons.1 h
  obtain rfl : some x = o := Except.ok.inj (hx.symm.trans ho)
  refine ⟨hp.mem_iff.2 List.mem_cons_self, fun y hy hyx => ?_⟩
  rcases List.mem_cons.1 (hp.mem_iff.1 hy) with rfl | hy
  · rfl
  · obtain ⟨r, hr, hry⟩ := mem_reduceOption hes hy
    exact absurd (by rw [tid_of_entryOf hry, tid_of_entryOf hx, hyx]) (hnew r hr)

theorem InStep.delete (h : InStep columns (row :: rows) i) (hnew : ∀ r ∈ rows, r.tid ≠ row.tid) :
    ∃ i' found, i.delete row = .ok (i', found) ∧ InStep columns rows i' ∧ i'.blank = i.blank := by
  obtain ⟨o, es, ho, hes, hp⟩ := agrees_cons.1 h.agrees
  rcases entryOf_eq_ok.1 ho with ⟨hc, rfl⟩ | ⟨x, hc, hx, rfl⟩
  · exact ⟨i, false, by simp [Index.delete, hc], h.of_blank rfl h.sound ⟨es, hes, hp⟩, rfl⟩
  · obtain ⟨hmem, huniq⟩ := h.agrees.eq_entry hnew ho
    obtain ⟨base, hdel, hs, hperm, hblank⟩ := h.sound.delete hx hmem huniq
    have hb : ({ i with base } : Index).blank = i.blank := by simp [blank, hblank]
    refine ⟨{ i with base }, true, by simp [Index.delete, hc, hdel], ?_, hb⟩
    refine h.of_blank hb hs ⟨es, by rw [entryOf_eq_of_blank hb, hes], ?_⟩
    exact List.Perm.cons_inv (hperm.symm.trans hp)

/-- An index that held a row takes it back. -/
theorem InStep.insert_ok (h : InStep columns (row :: rows) i) (h' : InStep columns rows i')
    (hb : i'.blank = i.blank) (hr : row.IsExact) : ∃ i'', i'.insert row = .ok i'' := by
  obtain ⟨o, es, ho, hes, hp⟩ := agrees_cons.1 h.agrees
  obtain ⟨es', hes', hp'⟩ := h'.agrees
  have hentry := entryOf_eq_of_blank hb
  rw [hentry, hes] at hes'
  cases hes'
  rw [← hentry] at ho
  rcases entryOf_eq_ok.1 ho with ⟨hc, rfl⟩ | ⟨x, hc, hx, rfl⟩
  · exact ⟨i', insert_eq_ok.2 (.inl ⟨hc, rfl⟩)⟩
  · have hconf : i'.base.Conflict = i.base.Conflict := by
      rw [← BaseIndex.conflict_blank, show i'.base.blank = i.base.blank from congrArg base hb,
        BaseIndex.conflict_blank]
    have hapart := (hp.pairwise h.sound.apart fun hne hyx => hne hyx.symm)
    obtain ⟨base, hbase⟩ := h'.sound.insert_ok hx (isKey_of_entryOf h'.exact hr ho)
      fun y hy => hconf ▸ (List.pairwise_cons.1 hapart).1 y (hp'.mem_iff.1 hy)
    exact ⟨_, insert_eq_ok.2 (.inr ⟨base, hc, hbase, rfl⟩)⟩

end Index

end RelPlan

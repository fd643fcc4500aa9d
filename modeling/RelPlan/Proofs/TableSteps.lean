import Mathlib.Data.List.Nodup
import RelPlan.Proofs.IndexRows

/-!
# What table operations preserve

A table is sound if its rows have distinct tids that have been given out and every index is in step
with them (`Table.Sound`).  Storing is all or nothing, removing a stored row never fails, and a row
that was just removed can be stored again, so every operation leaves a sound table behind whether it
succeeds or not.
-/

namespace RelPlan

namespace Table

variable {t : Table} {row : Row} {rows : List Row} {is js : List Index} {columns : List Column}
  {tid : Nat} {values : List Value}

/-- Rows of the table's columns under distinct tids below the next one, and indexes in step. -/
structure Sound (t : Table) : Prop where
  columns : ∀ r ∈ t.rows, r.columns = t.columns
  exact : ∀ r ∈ t.rows, r.IsExact
  stored : ∀ r ∈ t.rows, ∃ tid < t.nextTid, r.tid = some tid
  ascending : t.rows.Pairwise fun r s => r.tid.getD 0 < s.tid.getD 0
  indexes : ∀ i ∈ t.indexes, i.InStep t.columns t.rows

/-- The table without its contents. -/
def frame (t : Table) : Table :=
  { t with rows := [], indexes := t.indexes.map Index.blank, nextTid := 0 }

theorem sound_make (name : String) (columns : List (String × DataType)) :
    (make name columns).Sound := by
  constructor <;> simp [make]

section
variable (h : (t.rows.map Row.tid).Nodup)
include h

theorem row_eq_some_iff_of_nodup : t.row tid = some row ↔ row ∈ t.rows ∧ row.tid = some tid := by
  constructor
  · intro hrow
    exact ⟨List.mem_of_find?_eq_some hrow, by simpa using List.find?_some hrow⟩
  · rintro ⟨hmem, htid⟩
    have hsome : (t.row tid).isSome := by
      rw [Table.row, List.find?_isSome]
      exact ⟨row, hmem, by simpa using htid⟩
    obtain ⟨row', hrow'⟩ := Option.isSome_iff_exists.1 hsome
    have htid' : row'.tid = some tid := by simpa using List.find?_some hrow'
    rw [hrow', List.inj_on_of_nodup_map h (List.mem_of_find?_eq_some hrow') hmem
      (by rw [htid', htid])]

theorem filter_perm_of_nodup (hrow : t.row tid = some row) :
    t.rows.Perm (row :: t.rows.filter (·.tid ≠ some tid)) := by
  obtain ⟨hmem, htid⟩ := (row_eq_some_iff_of_nodup h).1 hrow
  obtain ⟨before, after, hrows⟩ := List.append_of_mem hmem
  have hother : ∀ r ∈ before ++ after, r.tid ≠ some tid := by
    rw [hrows, (List.perm_middle.map Row.tid).nodup_iff, List.map_cons, List.nodup_cons, htid] at h
    exact fun r hr heq => h.1 (heq ▸ List.mem_map_of_mem hr)
  have hfilter : t.rows.filter (·.tid ≠ some tid) = before ++ after := by
    rw [hrows, List.filter_append, List.filter_cons_of_neg (by simpa using htid),
      ← List.filter_append]
    exact List.filter_eq_self.2 fun r hr => by simpa using hother r hr
  rw [hfilter, hrows]
  exact List.perm_middle

end

theorem Sound.nodup_tids (h : t.Sound) : (t.rows.map Row.tid).Nodup :=
  List.pairwise_map.2 <| h.ascending.imp fun {r s} hlt heq => by
    rw [heq] at hlt
    exact Nat.lt_irrefl _ hlt

theorem Sound.row_eq_some_iff (h : t.Sound) :
    t.row tid = some row ↔ row ∈ t.rows ∧ row.tid = some tid :=
  row_eq_some_iff_of_nodup h.nodup_tids

theorem putRow_perm (row : Row) (rows : List Row) : (putRow row rows).Perm (row :: rows) := by
  induction rows with
  | nil => exact .refl _
  | cons r rs ih =>
    rw [putRow]
    split
    · exact .refl _
    · exact (ih.cons r).trans (.swap row r rs)

theorem ascending_putRow (h : rows.Pairwise fun r s => r.tid.getD 0 < s.tid.getD 0)
    (hnew : ∀ r ∈ rows, r.tid.getD 0 ≠ row.tid.getD 0) :
    (putRow row rows).Pairwise fun r s => r.tid.getD 0 < s.tid.getD 0 := by
  induction rows with
  | nil => simp [putRow]
  | cons r rs ih =>
    obtain ⟨hr, hrs⟩ := List.pairwise_cons.1 h
    have hne := hnew r (by simp)
    rw [putRow]
    split
    · next hle =>
      refine List.pairwise_cons.2 ⟨fun s hs => ?_, h⟩
      rcases List.mem_cons.1 hs with rfl | hs
      · omega
      · have := hr s hs; omega
    · next hgt =>
      refine List.pairwise_cons.2 ⟨fun s hs => ?_, ih hrs fun s hs => hnew s (by simp [hs])⟩
      rcases List.mem_cons.1 ((putRow_perm row rs).mem_iff.1 hs) with rfl | hs
      · omega
      · exact hr s hs

theorem Sound.filter_perm (h : t.Sound) (hrow : t.row tid = some row) :
    t.rows.Perm (row :: t.rows.filter (·.tid ≠ some tid)) :=
  filter_perm_of_nodup h.nodup_tids hrow

/-- Either every index takes the row, or none holds it and nobody complains. -/
theorem insertEach_spec (h : ∀ i ∈ is, i.InStep columns rows) (hr : row.IsExact)
    (hnew : ∀ r ∈ rows, r.tid ≠ row.tid) :
    ∃ js r, insertEach row is = (js, ⟨[], r⟩) ∧ js.map Index.blank = is.map Index.blank ∧
      ((r = .ok () ∧ ∀ i ∈ js, i.InStep columns (row :: rows)) ∨
        (∃ e, r = .error e) ∧ ∀ i ∈ js, i.InStep columns rows) := by
  induction is with
  | nil => exact ⟨[], .ok (), rfl, rfl, .inl ⟨rfl, by simp⟩⟩
  | cons i is ih =>
    obtain ⟨hi, his⟩ := List.forall_mem_cons.1 h
    unfold insertEach
    split
    · next e he => exact ⟨_, _, rfl, rfl, .inr ⟨⟨e, rfl⟩, h⟩⟩
    · next i' hins =>
      obtain ⟨hi', hb⟩ := hi.insert hr hins
      obtain ⟨js, r, heq, hbs, ⟨rfl, hjs⟩ | ⟨⟨e, rfl⟩, hjs⟩⟩ := ih his
      · simp only [heq]
        exact ⟨_, _, rfl, by simp [hb, hbs], .inl ⟨rfl, List.forall_mem_cons.2 ⟨hi', hjs⟩⟩⟩
      · obtain ⟨i'', found, hdel, hi'', hb'⟩ := hi'.delete hnew
        simp only [heq, hdel]
        refine ⟨_, _, rfl, by simp [hb, hb', hbs], .inr ⟨⟨e, rfl⟩, ?_⟩⟩
        exact List.forall_mem_cons.2 ⟨hi'', hjs⟩

theorem insertEach_ok (h : ∀ i ∈ is, i.InStep columns (row :: rows))
    (h' : ∀ i ∈ js, i.InStep columns rows) (hb : js.map Index.blank = is.map Index.blank)
    (hr : row.IsExact) : (insertEach row js).2.result = .ok () := by
  induction js generalizing is with
  | nil => rfl
  | cons j js ih =>
    match is, hb with
    | i :: is, hb =>
      obtain ⟨hij, hb⟩ := List.cons.inj hb
      obtain ⟨hi, his⟩ := List.forall_mem_cons.1 h
      obtain ⟨hj, hjs⟩ := List.forall_mem_cons.1 h'
      obtain ⟨j', hins⟩ := hi.insert_ok hj hij hr
      have hok := ih his hjs hb
      unfold insertEach
      match heq : insertEach row js, hok with
      | (ks, ⟨notes, .ok ()⟩), _ => simp [hins]

theorem deleteEach_ok {P : Index → Index → Prop}
    (h : ∀ i ∈ is, ∃ j found, i.delete row = .ok (j, found) ∧ P i j) :
    ∃ js, deleteEach row is = (js, .ok ()) ∧ List.Forall₂ P is js := by
  induction is with
  | nil => exact ⟨[], rfl, .nil⟩
  | cons i is ih =>
    obtain ⟨⟨j, found, hdel, hij⟩, his⟩ := List.forall_mem_cons.1 h
    obtain ⟨js, heq, hjs⟩ := ih his
    exact ⟨j :: js, by simp [deleteEach, hdel, heq], .cons hij hjs⟩

/-- Indexes that hold a row give it up. -/
theorem deleteEach_spec (h : ∀ i ∈ is, i.InStep columns (row :: rows))
    (hnew : ∀ r ∈ rows, r.tid ≠ row.tid) :
    ∃ js, deleteEach row is = (js, .ok ()) ∧ js.map Index.blank = is.map Index.blank ∧
      ∀ i ∈ js, i.InStep columns rows := by
  obtain ⟨js, heq, hall⟩ := deleteEach_ok fun i hi => (h i hi).delete hnew
  refine ⟨js, heq, map_eq_iff_forall₂.2 (hall.flip.imp fun _ _ hij => hij.2), fun j hj => ?_⟩
  obtain ⟨i, -, hin, -⟩ := exists_of_forall₂ hall hj
  exact hin

/-! ### The operations -/

/-- A row that the table may come to hold. -/
structure Fits (t : Table) (row : Row) : Prop where
  columns : row.columns = t.columns
  exact : row.IsExact
  stored : ∃ tid < t.nextTid, row.tid = some tid
  fresh : ∀ r ∈ t.rows, r.tid ≠ row.tid

/-- Storing a row adds it to the rows and the indexes or changes nothing. -/
theorem Sound.store (h : t.Sound) (hr : t.Fits row) :
    ∃ t' r, store row t = (t', ⟨[], r⟩) ∧ t'.Sound ∧ t'.frame = t.frame ∧
      t'.nextTid = t.nextTid ∧
      ((r = .ok () ∧ t'.rows.Perm (row :: t.rows)) ∨ (∃ e, r = .error e) ∧ t'.rows = t.rows) := by
  obtain ⟨js, r, heq, hb, ⟨rfl, hjs⟩ | ⟨⟨e, rfl⟩, hjs⟩⟩ :=
    insertEach_spec h.indexes hr.exact hr.fresh
  · have hperm := putRow_perm row t.rows
    have hforall {p : Row → Prop} (hrow : p row) (hp : ∀ r ∈ t.rows, p r) :
        ∀ r ∈ putRow row t.rows, p r := fun r hmem => by
      rcases List.mem_cons.1 (hperm.mem_iff.1 hmem) with rfl | hmem
      exacts [hrow, hp r hmem]
    refine ⟨{ t with rows := putRow row t.rows, indexes := js }, .ok (),
      by simp only [Table.store, heq], ⟨hforall hr.columns h.columns, hforall hr.exact h.exact,
        hforall hr.stored h.stored, ?_, fun i hi => ?_⟩,
      by simp [frame, hb], rfl, .inl ⟨rfl, hperm⟩⟩
    · refine ascending_putRow h.ascending fun r hmem => ?_
      obtain ⟨a, -, ha⟩ := h.stored r hmem
      obtain ⟨b, -, hb⟩ := hr.stored
      have := hr.fresh r hmem
      simp_all
    · exact (hjs i hi).perm hperm
  · exact ⟨{ t with indexes := js }, .error e, by simp only [Table.store, heq],
      ⟨h.columns, h.exact, h.stored, h.ascending, hjs⟩, by simp [frame, hb], rfl,
      .inr ⟨⟨e, rfl⟩, rfl⟩⟩

theorem Sound.fits_withTid (h : t.Sound) (hv : ∀ v ∈ values, v.isExact)
    (hrow : t.checkedRow values = .ok row) :
    Fits { t with nextTid := t.nextTid + 1 } (row.withTid t.nextTid) := by
  obtain ⟨row', hmake, hrow⟩ := Result.bind_eq_ok.1 hrow
  obtain ⟨-, -, hrow⟩ := Result.bind_eq_ok.1 hrow
  cases hrow
  unfold Row.make at hmake
  split at hmake <;> cases hmake
  refine ⟨rfl, hv, ⟨t.nextTid, Nat.lt_succ_self _, rfl⟩, fun r hr heq => ?_⟩
  obtain ⟨tid, hlt, htid⟩ := h.stored r hr
  rw [htid] at heq
  exact Nat.lt_irrefl _ (Option.some.inj heq ▸ hlt)

theorem Sound.spend (h : t.Sound) : Sound { t with nextTid := t.nextTid + 1 } :=
  { h with stored := fun r hr => (h.stored r hr).imp fun _ h => ⟨Nat.lt_succ_of_lt h.1, h.2⟩ }

theorem Sound.insert (h : t.Sound) (hv : ∀ v ∈ values, v.isExact) :
    ∃ t' r, insert values t = (t', ⟨[], r⟩) ∧ t'.Sound ∧ t'.frame = t.frame ∧
      ((∃ row, r = .ok row ∧ row.tid = some t.nextTid ∧ t'.rows.Perm (row :: t.rows) ∧
          t'.nextTid = t.nextTid + 1) ∨
        (∃ e, r = .error e) ∧ t'.rows = t.rows ∧ t.nextTid ≤ t'.nextTid) := by
  unfold Table.insert
  split
  · next e _ => exact ⟨t, .error e, rfl, h, rfl, .inr ⟨⟨e, rfl⟩, rfl, Nat.le_refl _⟩⟩
  · next row hrow =>
    obtain ⟨t', r, heq, hs, hf, hn, hcase⟩ := h.spend.store (h.fits_withTid hv hrow)
    simp only [heq]
    rcases hcase with ⟨rfl, hperm⟩ | ⟨⟨e, rfl⟩, hrows⟩
    · exact ⟨t', .ok (row.withTid t.nextTid), rfl, hs, hf, .inl ⟨_, rfl, rfl, hperm, hn⟩⟩
    · exact ⟨t', .error e, rfl, hs, hf, .inr ⟨⟨e, rfl⟩, hrows, hn ▸ Nat.le_succ _⟩⟩

theorem Sound.deleteTid (h : t.Sound) (hrow : t.row tid = some row) :
    ∃ t', deleteTid tid t = (t', pure (some row)) ∧ t'.Sound ∧ t'.frame = t.frame ∧
      t'.nextTid = t.nextTid ∧ t'.rows = t.rows.filter (·.tid ≠ some tid) ∧ t'.Fits row := by
  obtain ⟨hmem, htid⟩ := h.row_eq_some_iff.1 hrow
  have hperm := h.filter_perm hrow
  have hnew : ∀ r ∈ t.rows.filter (·.tid ≠ some tid), r.tid ≠ row.tid := by
    intro r hr
    simpa [htid] using (List.mem_filter.1 hr).2
  obtain ⟨js, heq, hb, hjs⟩ :=
    deleteEach_spec (fun i hi => (h.indexes i hi).perm hperm.symm) hnew
  have hsub {r : Row} (hr : r ∈ t.rows.filter (·.tid ≠ some tid)) : r ∈ t.rows :=
    (List.mem_filter.1 hr).1
  refine ⟨{ t with rows := t.rows.filter (·.tid ≠ some tid), indexes := js },
    by simp only [Table.deleteTid, hrow, heq]; rfl,
    ⟨fun r hr => h.columns r (hsub hr), fun r hr => h.exact r (hsub hr),
      fun r hr => h.stored r (hsub hr), h.ascending.filter _, hjs⟩,
    by simp [frame, hb], rfl, rfl, ?_⟩
  exact ⟨h.columns row hmem, h.exact row hmem, h.stored row hmem, hnew⟩

/-- A row that was removed can be stored again, whatever has been refused in between. -/
theorem Sound.restore {t' : Table} (h : t.Sound) (hrow : t.row tid = some row) (h' : t'.Sound)
    (hf : t'.frame = t.frame) (hn : t.nextTid ≤ t'.nextTid)
    (hrows : t'.rows = t.rows.filter (·.tid ≠ some tid)) :
    t'.Fits row ∧ ∃ t'', Table.store row t' = (t'', pure ()) ∧ t''.Sound ∧ t''.frame = t.frame ∧
      t''.nextTid = t'.nextTid ∧ t''.rows.Perm t.rows := by
  obtain ⟨t₁, -, -, -, hn₁, hrows₁, hfits⟩ := h.deleteTid hrow
  have hcolumns : t'.frame.columns = t.frame.columns := by rw [hf]
  have hindexes : t'.frame.indexes = t.frame.indexes := by rw [hf]
  change t'.columns = t.columns at hcolumns
  have hfits' : t'.Fits row := by
    refine ⟨by rw [hcolumns, h.columns row (h.row_eq_some_iff.1 hrow).1], hfits.exact, ?_, ?_⟩
    · obtain ⟨tid', hlt, htid⟩ := hfits.stored
      exact ⟨tid', by omega, htid⟩
    · rw [hrows, ← hrows₁]; exact hfits.fresh
  obtain ⟨t'', r, heq, hs, hf', hn', hcase⟩ := h'.store hfits'
  have hok : (insertEach row t'.indexes).2.result = .ok () := by
    refine insertEach_ok (fun i hi => (h.indexes i hi).perm (h.filter_perm hrow).symm) ?_
      hindexes hfits.exact
    rw [← hcolumns, ← hrows]
    exact h'.indexes
  have hr : r = .ok () := by
    have hstore : (Table.store row t').2.result = .ok () := by
      unfold Table.store
      match heq' : insertEach row t'.indexes, hok with
      | (is, ⟨notes, .ok ()⟩), _ => rfl
    rw [heq] at hstore
    exact hstore
  obtain ⟨-, hperm⟩ | ⟨⟨e, he⟩, -⟩ := hcase
  · rw [hrows] at hperm
    exact ⟨hfits', t'', by rw [heq, hr]; rfl, hs, hf'.trans hf, hn',
      hperm.trans (h.filter_perm hrow).symm⟩
  · rw [hr] at he; cases he

end Table

end RelPlan

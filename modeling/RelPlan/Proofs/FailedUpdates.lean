import RelPlan.Proofs.FailedInserts
import RelPlan.Proofs.RestoredEntries

/-!
# Failed updates

When the new row of an update is refused the old one is stored again, and over exact data that never
fails.  The rows are then as they were, and each index finds the same ones for every probe.  But an
entry that goes and comes back is put in front of those with its key, or last into its bucket, so
rows with one key, or in one bucket, can change places in a scan (`Table.update_restored`,
`Table.update_reorders`).
-/

namespace RelPlan

variable {row : Row}

theorem BaseIndex.sound_content (i : BaseIndex) : i.content.Sound ↔ i.Sound := by
  have hconflict : i.content.Conflict = i.Conflict := by
    rw [← conflict_blank, blank_content, conflict_blank]
  have hplaced : i.content.Placed ↔ i.Placed := by cases i <;> exact Iff.rfl
  constructor <;> rintro ⟨hp, hs, ha⟩
  · exact ⟨hplaced.1 hp, by rwa [size_content, entries_content] at hs,
      by rwa [hconflict, entries_content] at ha⟩
  · exact ⟨hplaced.2 hp, by rwa [size_content, entries_content],
      by rwa [hconflict, entries_content]⟩

namespace Index

variable {i j : Index} {columns : List Column} {rows : List Row}

theorem blank_eq_of_content (h : j.content = i.content) : j.blank = i.blank := by
  obtain ⟨hcond, hbase⟩ := content_eq_iff.1 h
  have hblank : j.base.blank = i.base.blank := by
    rw [← BaseIndex.blank_content, hbase, BaseIndex.blank_content]
  simp [blank, hcond, hblank]

theorem Agrees.of_content (h : i.Agrees rows) (hc : j.content = i.content) : j.Agrees rows := by
  have hentries : j.entries = i.entries := by
    show j.base.entries = i.base.entries
    rw [← BaseIndex.entries_content, (content_eq_iff.1 hc).2, BaseIndex.entries_content]
  unfold Agrees
  rw [entryOf_eq_of_blank (blank_eq_of_content hc), hentries]
  exact h

theorem InStep.of_content (h : InStep columns rows i) (hc : j.content = i.content) :
    InStep columns rows j := by
  refine h.of_blank (blank_eq_of_content hc) ?_ (h.agrees.of_content hc)
  rw [← BaseIndex.sound_content, (content_eq_iff.1 hc).2, BaseIndex.sound_content]
  exact h.sound

end Index

namespace Table

variable {t t' : Table} {is js : List Index} {tid : Nat} {values : List Value} {e : QueryError}

theorem Sound.of_unnoticed (h : t.Sound) (hu : t.Unnoticed t') :
    t'.Sound ∧ t'.frame = t.frame ∧ t.nextTid ≤ t'.nextTid := by
  have hle : t.nextTid ≤ t'.nextTid := by
    rcases hu.nextTid with hn | hn <;> omega
  have hall := map_eq_iff_forall₂.1 hu.contents
  have hblank : t'.indexes.map Index.blank = t.indexes.map Index.blank :=
    map_eq_iff_forall₂.2 (hall.imp fun _ _ => Index.blank_eq_of_content)
  refine ⟨⟨?_, ?_, ?_, ?_, ?_⟩, ?_, hle⟩
  · rw [hu.rows, hu.columns]; exact h.columns
  · rw [hu.rows]; exact h.exact
  · rw [hu.rows]
    exact fun r hr => (h.stored r hr).imp fun _ hlt => ⟨Nat.lt_of_lt_of_le hlt.1 hle, hlt.2⟩
  · rw [hu.rows]; exact h.ascending
  · rw [hu.rows, hu.columns]
    intro j hj
    obtain ⟨i, hi, hc⟩ := exists_of_forall₂ hall.flip hj
    exact (h.indexes i hi).of_content hc
  · simp [frame, hu.name, hu.columns, hblank]

theorem forall₂_of_deleteEach (h : deleteEach row is = (js, .ok ())) :
    List.Forall₂ (fun i j => ∃ found, i.delete row = .ok (j, found)) is js := by
  induction is generalizing js with
  | nil => cases h; exact .nil
  | cons i is ih =>
    unfold deleteEach at h
    split at h
    · cases h
    · next j found hdel =>
      rcases heach : deleteEach row is with ⟨js', r⟩
      rw [heach] at h
      cases h
      exact .cons ⟨found, hdel⟩ (ih heach)

theorem forall₂_of_insertEach (h : (insertEach row is).2.result = .ok ()) :
    List.Forall₂ (fun i j => i.insert row = .ok j) is (insertEach row is).1 := by
  induction is with
  | nil => exact .nil
  | cons i is ih =>
    unfold insertEach at h ⊢
    cases hins : i.insert row with
    | error e => simp [hins] at h
    | ok j =>
      rcases heach : insertEach row is with ⟨js, notes, e | ⟨⟩⟩
      · simp only [hins, heach] at h
        split at h <;> cases h
      · rw [heach] at ih
        exact .cons hins (ih rfl)

/-- Each index gives the row up, is left by what happens next as it then is, and takes it back. -/
theorem restored_of_each {columns : List Column} {rows : List Row} {js' ks : List Index}
    (h : ∀ i ∈ is, i.InStep columns (row :: rows)) (hrow : row.IsExact) (htid : row.tid = some tid)
    (hnew : ∀ r ∈ rows, r.tid ≠ row.tid)
    (hdel : List.Forall₂ (fun i j => ∃ found, i.delete row = .ok (j, found)) is js)
    (hcontents : List.Forall₂ (fun j' j => j'.content = j.content) js' js)
    (hins : List.Forall₂ (fun j' k => j'.insert row = .ok k) js' ks) :
    List.Forall₂ (fun i k => ∀ probe scope, probe.IsSharp scope →
      i.base.Restored k.base tid probe scope) is ks := by
  induction hdel generalizing js' ks with
  | nil => cases hcontents; cases hins; exact .nil
  | cons hdel _ ih =>
    cases hcontents with
    | cons hcontent hcontents =>
      cases hins with
      | cons hins hrest =>
        obtain ⟨hi, his⟩ := List.forall_mem_cons.1 h
        obtain ⟨found, hdel⟩ := hdel
        exact .cons (fun _ _ => hi.restored hrow htid hnew hdel hcontent hins)
          (ih his hcontents hrest)

theorem deleteEach_of_deleteTid {r : Option Row} (hrow : t.row tid = some row)
    (h : deleteTid tid t = (t', pure r)) : deleteEach row t.indexes = (t'.indexes, .ok ()) := by
  simp only [Table.deleteTid, hrow] at h
  rcases heach : deleteEach row t.indexes with ⟨js, e | ⟨⟩⟩
  · rw [heach] at h
    cases h
  · rw [heach] at h
    cases h
    rfl

theorem insertEach_of_store (h : store row t = (t', pure ())) :
    (insertEach row t.indexes).2.result = .ok () ∧ (insertEach row t.indexes).1 = t'.indexes := by
  unfold Table.store at h
  rcases heach : insertEach row t.indexes with ⟨is, notes, e | ⟨⟩⟩
  · rw [heach] at h
    cases h
  · rw [heach] at h
    cases h
    exact ⟨rfl, rfl⟩

theorem Sound.rows_eq_of_perm (h : t.Sound) (h' : t'.Sound) (hperm : t'.rows.Perm t.rows) :
    t'.rows = t.rows :=
  hperm.eq_of_pairwise (fun _ _ _ _ hlt hgt => absurd hlt (Nat.lt_asymm hgt)) h'.ascending
    h.ascending

/-- The second table has the rows of the first one, and its indexes answer as those did, but for
rows that have changed places with that of the tid. -/
structure Restored (t t' : Table) (tid : Nat) : Prop where
  name : t'.name = t.name
  columns : t'.columns = t.columns
  rows : t'.rows = t.rows
  nextTid : t'.nextTid = t.nextTid ∨ t'.nextTid = t.nextTid + 1
  scans : List.Forall₂ (fun i i' => ∀ probe scope, probe.IsSharp scope →
    i.base.Restored i'.base tid probe scope) t.indexes t'.indexes

theorem Restored.refl (t : Table) (tid : Nat) : t.Restored t tid :=
  ⟨rfl, rfl, rfl, .inl rfl,
    List.forall₂_same.2 fun _ _ _ _ _ => BaseIndex.restored_of_scan_eq _ rfl⟩

theorem Op.IsExact.attachesEmpty {op : Op} (h : op.IsExact) : op.AttachesEmpty := by
  cases op with
  | addIndex i => exact h.2
  | _ => trivial

theorem Grown.of_reachable (h : t.Reachable) : t.Grown := by
  obtain ⟨name, columns, ops, hops, rfl⟩ := h
  exact ⟨name, columns, ops, fun op hop => (hops op hop).attachesEmpty, rfl⟩

/-- Whatever makes an update fail, the rows are as they were, and every index gives the rows that it
gave, or the same error.  In an ordered index the old row may have moved among those with its key,
and in the bucket of a hashed one that has the old row two entries may have changed places. -/
theorem update_restored (h : t.Reachable) (tid : Nat) (values : List Value)
    (he : (update tid values t).2.result = .error e) :
    (update tid values t).2.notes = [] ∧ t.Restored (update tid values t).1 tid := by
  have hs := h.sound
  obtain ⟨known, htraced⟩ := (Grown.of_reachable h).traced
  unfold Table.update at he ⊢
  split
  · exact ⟨rfl, .refl t tid⟩
  · exact ⟨rfl, .refl t tid⟩
  · next row old hchecked hrow =>
    -- the old row goes, the new one leaves no trace, and the old one is stored again
    obtain ⟨t₁, hdel, h₁, hf₁, hn₁, hrows₁, -⟩ := hs.deleteTid hrow
    have htraced₁ := htraced.deleteTid tid
    simp only [hchecked, hrow, hdel, pure] at he htraced₁ ⊢
    match hins : Table.insert values t₁ with
    | (t₂, ⟨notes, .ok row⟩) => simp [hins] at he
    | (t₂, ⟨notes, .error e'⟩) =>
      obtain ⟨t₂', hfail, hu⟩ := htraced₁.insert_failed (by rw [hins])
      obtain ⟨rfl, rfl⟩ : t₂ = t₂' ∧ notes = [] := by
        rw [hins] at hfail
        cases hfail
        exact ⟨rfl, rfl⟩
      obtain ⟨h₂, hf₂, hn₂⟩ := h₁.of_unnoticed hu
      obtain ⟨-, t₃, hstore, h₃, hf₃, hn₃, hperm⟩ := hs.restore hrow h₂ (hf₂.trans hf₁) (by omega)
        (hu.rows.trans hrows₁)
      obtain ⟨hinserted, hindexes⟩ := insertEach_of_store hstore
      simp only [hstore]
      have hname : t₃.frame.name = t.frame.name := by rw [hf₃]
      have hcolumns : t₃.frame.columns = t.frame.columns := by rw [hf₃]
      have hnext : t₃.nextTid = t.nextTid ∨ t₃.nextTid = t.nextTid + 1 := by
        rw [hn₃, ← hn₁]
        exact hu.nextTid
      refine ⟨rfl, hname, hcolumns, hs.rows_eq_of_perm h₃ hperm, hnext, ?_⟩
      obtain ⟨hmem, htid⟩ := hs.row_eq_some_iff.1 hrow
      refine restored_of_each (fun i hi => (hs.indexes i hi).perm (hs.filter_perm hrow).symm)
        (hs.exact old hmem) htid (fun r hr => ?_)
        (forall₂_of_deleteEach (deleteEach_of_deleteTid hrow hdel))
        (map_eq_iff_forall₂.1 hu.contents) (hindexes ▸ forall₂_of_insertEach hinserted)
      simpa [htid] using (List.mem_filter.1 hr).2

/-- Rows with one value of `a`, told apart by `u`. -/
def tied : Table :=
  (run [.addIndex (.ordered "i" [.ref ⟨none, "a"⟩] false),
      .addIndex (.hashed "h" (.ref ⟨none, "a"⟩)),
      .addIndex (.ordered "u" [.ref ⟨none, "u"⟩] true), .insert [.int 1, .int 1],
      .insert [.int 1, .int 2], .insert [.int 1, .int 3]]
    (make "t" [("a", .int), ("u", .int)])).1

theorem reachable_tied : tied.Reachable := ⟨"t", [("a", .int), ("u", .int)], _, by decide, rfl⟩

theorem update_restored_tied :
    tied.Reachable ∧
      (update 0 [.int 5, .int 2] tied).2.result = .error (.uniqueViolation "u" [.int 2]) ∧
      (update 0 [.int 5, .int 2] tied).2.notes = [] ∧
      tied.Restored (update 0 [.int 5, .int 2] tied).1 0 := by
  have hrefused : (update 0 [.int 5, .int 2] tied).2.result =
      .error (.uniqueViolation "u" [.int 2]) := by decide
  exact ⟨reachable_tied, hrefused, update_restored reachable_tied 0 _ hrefused⟩

/-- Rows with two values of `a`, which an index keeps in one bucket. -/
def sharing : Table :=
  (run [.addIndex (.hashedBy (fun _ => .null) "h" (.ref ⟨none, "a"⟩)),
      .addIndex (.ordered "u" [.ref ⟨none, "u"⟩] true), .insert [.int 1, .int 1],
      .insert [.int 2, .int 2], .insert [.int 2, .int 3]]
    (make "t" [("a", .int), ("u", .int)])).1

/-- The two largest integers, which the datum `2 ^ 63` equals both. -/
def largest : Table :=
  (run [.addIndex (.ordered "i" [.ref ⟨none, "a"⟩, .ref ⟨none, "b"⟩] false),
      .addIndex (.ordered "u" [.ref ⟨none, "u"⟩] true),
      .insert [.int 9223372036854775806, .int 9, .int 1],
      .insert [.int 9223372036854775807, .int 1, .int 2],
      .insert [.int 9223372036854775807, .int 7, .int 3]]
    (make "t" [("a", .int), ("b", .int), ("u", .int)])).1

/-- A row of `o` whose `x` is the datum `2 ^ 63`. -/
def aroundLargest : Scope :=
  Scope.empty.push ⟨[⟨some "o", "x", .float, false⟩], [.float Binary64.twoPow63], none, rfl⟩

/-- `a >= o.x AND b >= 5` -/
def fromLargest : Probe :=
  .range ⟨[⟨[⟨.ref ⟨some "o", "x"⟩, true⟩], []⟩, ⟨[⟨.const (.int 5), true⟩], []⟩], .forward⟩

def scans (t : Table) (probe : Probe) (scope : Scope) : List (Option (List Nat)) :=
  t.indexes.map fun i => (i.scan probe scope).toOption

/-- After an update that was refused, rows with one key are given in another order, by an ordered
index and by a hashed one, and so are rows with another key that share the bucket.  Where a bound
equals keys that differ, a row is no longer given at all, since what a search leaves out then
depends on the shape of the tree. -/
theorem update_reorders :
    (tied.Reachable ∧
      (update 0 [.int 5, .int 2] tied).2.result = .error (.uniqueViolation "u" [.int 2]) ∧
      tied.scans (.range ⟨[], .forward⟩) .empty = [some [2, 1, 0], none, some [0, 1, 2]] ∧
      (update 0 [.int 5, .int 2] tied).1.scans (.range ⟨[], .forward⟩) .empty =
        [some [0, 2, 1], none, some [0, 1, 2]] ∧
      tied.scans (.key (.const (.int 1))) .empty = [none, some [0, 1, 2], none] ∧
      (update 0 [.int 5, .int 2] tied).1.scans (.key (.const (.int 1))) .empty =
        [none, some [2, 1, 0], none]) ∧
    (sharing.Reachable ∧
      (update 0 [.int 5, .int 2] sharing).2.result = .error (.uniqueViolation "u" [.int 2]) ∧
      sharing.scans (.key (.const (.int 2))) .empty = [some [1, 2], none] ∧
      (update 0 [.int 5, .int 2] sharing).1.scans (.key (.const (.int 2))) .empty =
        [some [2, 1], none]) ∧
    (largest.Reachable ∧
      (update 0 [.int 5, .int 5, .int 2] largest).2.result =
        .error (.uniqueViolation "u" [.int 2]) ∧
      largest.scans fromLargest aroundLargest = [some [0, 2], some []] ∧
      (update 0 [.int 5, .int 5, .int 2] largest).1.scans fromLargest aroundLargest =
        [some [2], some []]) :=
  ⟨⟨reachable_tied, by decide⟩,
    ⟨⟨"t", [("a", .int), ("u", .int)], _, by decide, rfl⟩, by decide⟩,
    ⟨"t", [("a", .int), ("b", .int), ("u", .int)], _, by decide, rfl⟩, by decide⟩

end Table

end RelPlan

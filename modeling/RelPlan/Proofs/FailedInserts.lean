import RelPlan.Proofs.TracedTables

/-!
# Failed insertions

An insertion that fails, at whatever index and for whatever reason, leaves no trace but that the
next tid may be spent: the indexes that had taken the row have given it up again and are as they
were (`Table.insert_unnoticed`).  This holds over any data, since what was just entered is found
again even where values are in no order.
-/

namespace RelPlan

namespace Table

variable {t t' : Table} {known : List Row} {row : Row} {values : List Value} {e : QueryError}

/-- The second table differs from the first one at most in that the next tid is spent and in which
slots are free. -/
structure Unnoticed (t t' : Table) : Prop where
  name : t'.name = t.name
  columns : t'.columns = t.columns
  rows : t'.rows = t.rows
  nextTid : t'.nextTid = t.nextTid ∨ t'.nextTid = t.nextTid + 1
  contents : t'.indexes.map Index.content = t.indexes.map Index.content

theorem store_failed (h : ∀ i ∈ t.indexes, (∀ x ∈ i.entries, row.tid ≠ some x.tid) ∧ i.base.Full)
    (he : (store row t).2.result = .error e) :
    ∃ is, store row t = ({ t with indexes := is }, .fail e) ∧
      is.map Index.content = t.indexes.map Index.content := by
  unfold Table.store at he ⊢
  match heach : insertEach row t.indexes with
  | (is, ⟨notes, .ok ()⟩) => rw [heach] at he; cases he
  | (is, ⟨notes, .error e'⟩) =>
    rw [heach] at he
    cases he
    obtain ⟨hnotes, hcontents⟩ := insertEach_failed h (by rw [heach])
    rw [heach] at hnotes hcontents
    cases hnotes
    exact ⟨is, rfl, hcontents⟩

theorem Traced.insert_failed (h : t.Traced known)
    (he : (Table.insert values t).2.result = .error e) :
    ∃ t', Table.insert values t = (t', .fail e) ∧ t.Unnoticed t' := by
  unfold Table.insert at he ⊢
  match hrow : t.checkedRow values with
  | .error e' =>
    rw [hrow] at he
    cases he
    exact ⟨t, rfl, rfl, rfl, rfl, .inl rfl, rfl⟩
  | .ok row =>
    have hnew : ∀ i ∈ t.indexes,
        (∀ x ∈ i.entries, (row.withTid t.nextTid).tid ≠ some x.tid) ∧ i.base.Full := by
      refine fun i hi => ⟨fun x hx heq => ?_, (h.indexes i hi).full⟩
      have hlt := h.entry_tid_lt hi hx
      exact Nat.lt_irrefl _ (Option.some.inj heq ▸ hlt)
    let t₁ : Table := { t with nextTid := t.nextTid + 1 }
    have hstored : (Table.store (row.withTid t.nextTid) t₁).2.result = .error e := by
      simp only [hrow, Logged.result_bind, Logged.result_pure] at he
      cases hs : (Table.store (row.withTid t.nextTid) t₁).2.result with
      | error e' =>
        rw [hs, Result.error_bind] at he
        cases he
        rfl
      | ok u => rw [hs] at he; cases he
    obtain ⟨is, hstore, hcontents⟩ := store_failed (t := t₁) hnew hstored
    refine ⟨{ t₁ with indexes := is }, ?_, rfl, rfl, rfl, .inr rfl, hcontents⟩
    show ((Table.store (row.withTid t.nextTid) t₁).1,
      (Table.store (row.withTid t.nextTid) t₁).2 >>= fun _ => pure (row.withTid t.nextTid)) = _
    rw [hstore]
    rfl

/-- Whatever makes an insertion fail, every row is as it was, every index gives for every probe in
every scope the tids in the order that it gave, or the same error, and rolling back never fails. -/
theorem insert_unnoticed (h : t.Grown) (values : List Value)
    (he : (insert values t).2.result = .error e) :
    (insert values t).2.notes = [] ∧ t.Unnoticed (insert values t).1 ∧
      List.Forall₂ (fun i' i => ∀ probe scope, i'.scan probe scope = i.scan probe scope)
        (insert values t).1.indexes t.indexes := by
  obtain ⟨known, htraced⟩ := h.traced
  obtain ⟨t', heq, hunnoticed⟩ := htraced.insert_failed he
  rw [heq]
  refine ⟨rfl, hunnoticed, ?_⟩
  exact (map_eq_iff_forall₂.1 hunnoticed.contents).imp fun _ _ => Index.scan_eq_of_content

/-- The indexes on `a` have taken the row when the one on `b` refuses it. -/
def refusedLastOps : List Op :=
  [.addIndex (.ordered "i" [.ref ⟨none, "a"⟩] false), .addIndex (.hashed "h" (.ref ⟨none, "a"⟩)),
    .addIndex (.ordered "u" [.ref ⟨none, "b"⟩] true), .insert [.int 1, .int 5],
    .insert [.float ⟨0x43e0000000000000⟩, .int 6], .insert [.int 1, .int 7], .deleteTid 0]

theorem insert_unnoticed_last :
    let t := (run refusedLastOps (make "t" [("a", .any), ("b", .int)])).1
    (insert [.int 1, .int 6] t).2.result = .error (.uniqueViolation "u" [.int 6]) ∧
      (insert [.int 1, .int 6] t).2.notes = [] ∧ t.Unnoticed (insert [.int 1, .int 6] t).1 ∧
      List.Forall₂ (fun i' i => ∀ probe scope, i'.scan probe scope = i.scan probe scope)
        (insert [.int 1, .int 6] t).1.indexes t.indexes := by
  intro t
  have hrefused : (insert [.int 1, .int 6] t).2.result =
      .error (.uniqueViolation "u" [.int 6]) := by
    decide
  exact ⟨hrefused, insert_unnoticed
    ⟨"t", [("a", .any), ("b", .int)], refusedLastOps, by decide, rfl⟩ _ hrefused⟩

end Table

end RelPlan

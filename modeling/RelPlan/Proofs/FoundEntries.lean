import RelPlan.Proofs.FailedUpdates

/-!
# Entries that are found again

Over binary64 data a removal can miss the entry of a row, which then stays behind in the index.
That takes a key with the datum `2 ^ 63`: among all other values the order is transitive, and an
index that keeps only such keys in order finds what it holds.  As long as no state of a run has
another key in order, every entry is that of a stored row (`Table.Kept.run`).
-/

namespace RelPlan

variable {S : Value → Prop} {row : Row} {rows : List Row}

namespace BaseIndex

variable {i i' : BaseIndex}

theorem placedIn_content (i : BaseIndex) : i.content.PlacedIn S ↔ i.PlacedIn S := by
  cases i <;> exact Iff.rfl

theorem full_content (i : BaseIndex) : i.content.Full ↔ i.Full := by
  cases i <;> exact Iff.rfl

theorem KeysIn.imp {S' : Value → Prop} (h : i.KeysIn S) (hS : ∀ v, S v → S' v) : i.KeysIn S' := by
  cases i with
  | ordered i => exact fun x hx v hv => hS v (h x hx v hv)
  | hashed i => trivial

theorem KeysIn.of_insert (h : i'.KeysIn S) (hins : i.insert row = .ok i') : i.KeysIn S := by
  cases i with
  | ordered i =>
    obtain ⟨j, -, rfl⟩ := Result.map_eq_ok.1 hins
    obtain ⟨x, -, hperm, -⟩ := insert_entries hins
    exact fun y hy => h y (hperm.mem_iff.2 (List.mem_cons_of_mem _ hy))
  | hashed i => trivial

end BaseIndex

namespace Index

variable {i j : Index}

/-- The index has the entries of the rows, each where it is looked for. -/
structure Finds (S : Value → Prop) (rows : List Row) (i : Index) : Prop where
  placed : i.base.PlacedIn S
  full : i.base.Full
  agrees : i.Agrees rows

theorem Finds.perm {rows' : List Row} (h : i.Finds S rows) (hp : rows'.Perm rows) :
    i.Finds S rows' :=
  { h with agrees := h.agrees.perm hp }

theorem Finds.of_content (h : i.Finds S rows) (hc : j.content = i.content) : j.Finds S rows := by
  have hbase := (content_eq_iff.1 hc).2
  refine ⟨?_, ?_, h.agrees.of_content hc⟩
  · rw [← BaseIndex.placedIn_content, hbase, BaseIndex.placedIn_content]
    exact h.placed
  · rw [← BaseIndex.full_content, hbase, BaseIndex.full_content]
    exact h.full

theorem Finds.of_holdsNothing (h0 : i.HoldsNothing) : i.Finds S [] := by
  obtain ⟨c, b⟩ := i
  cases b with
  | ordered i =>
    obtain ⟨htree, -⟩ := h0
    refine ⟨?_, trivial, .nil (by simp [entries, BaseIndex.entries, htree, Tree.toList])⟩
    simp only [BaseIndex.PlacedIn, htree]
    exact Tree.orderedIn_leaf
  | hashed i =>
    obtain ⟨hbuckets, -⟩ := h0
    refine ⟨⟨?_, ?_⟩, ?_, .nil ?_⟩ <;>
      simp [BaseIndex.Full, HashedIndex.Full, BaseIndex.entries, entries, HashedIndex.entries,
        HashedIndex.pairs, hbuckets]

theorem Finds.insert (hS : Value.Chained S) (h : i.Finds S rows) (hins : i.insert row = .ok j)
    (hkeys : j.base.KeysIn S) : j.Finds S (row :: rows) := by
  have hagrees := (h.agrees.insert hins).1
  rcases insert_eq_ok.1 hins with ⟨-, rfl⟩ | ⟨base, -, hbase, rfl⟩
  · exact { h with agrees := hagrees }
  · exact ⟨h.placed.insert hS hbase hkeys, h.full.insert hbase, hagrees⟩

/-- A row that alone has its tid is found and taken out. -/
theorem Finds.delete (hS : Value.Chained S) (h : i.Finds S (row :: rows))
    (hnew : ∀ r ∈ rows, r.tid ≠ row.tid) :
    ∃ j found, i.delete row = .ok (j, found) ∧ j.Finds S rows := by
  obtain ⟨o, es, ho, hes, hp⟩ := agrees_cons.1 h.agrees
  rcases entryOf_eq_ok.1 ho with ⟨hc, rfl⟩ | ⟨x, hc, hx, rfl⟩
  · exact ⟨i, false, by simp [Index.delete, hc], { h with agrees := ⟨es, hes, hp⟩ }⟩
  · obtain ⟨hmem, huniq⟩ := h.agrees.eq_entry hnew ho
    obtain ⟨base, hdel, hplaced, -, hperm, hblank⟩ := h.placed.delete hS hx hmem huniq
    have hb : ({ i with base } : Index).blank = i.blank := by simp [blank, hblank]
    refine ⟨{ i with base }, true, by simp [Index.delete, hc, hdel], hplaced, h.full.delete hdel,
      es, by rw [entryOf_eq_of_blank hb, hes], ?_⟩
    exact List.Perm.cons_inv (hperm.symm.trans hp)

theorem keysIn_of_insert (h : j.base.KeysIn S) (hins : i.insert row = .ok j) : i.base.KeysIn S := by
  rcases insert_eq_ok.1 hins with ⟨-, rfl⟩ | ⟨base, -, hbase, rfl⟩
  exacts [h, h.of_insert hbase]

theorem keysIn_of_fill (h : j.base.KeysIn S) (hf : Table.fill rows i = .ok j) :
    i.base.KeysIn S := by
  induction rows generalizing i with
  | nil => cases hf; exact h
  | cons row rows ih =>
    obtain ⟨i₁, hins, hf⟩ := Result.bind_eq_ok.1 hf
    exact keysIn_of_insert (ih hf) hins

theorem Finds.fill {done : List Row} (hS : Value.Chained S) (h : i.Finds S done)
    (hf : Table.fill rows i = .ok j) (hkeys : j.base.KeysIn S) : j.Finds S (rows ++ done) := by
  induction rows generalizing i done with
  | nil => cases hf; exact h
  | cons row rows ih =>
    obtain ⟨i₁, hins, hf⟩ := Result.bind_eq_ok.1 hf
    exact (ih (h.insert hS hins (keysIn_of_fill hkeys hf)) hf).perm List.perm_middle.symm

end Index

/-! ### Tables -/

namespace Table

variable {t t' : Table} {known : List Row} {tid : Nat} {values : List Value}

/-- Keys that the indexes keep in order are of these values. -/
def KeysIn (S : Value → Prop) (t : Table) : Prop := ∀ i ∈ t.indexes, i.base.KeysIn S

/-- Rows under distinct tids, of which each index finds the entries. -/
structure Kept (S : Value → Prop) (t : Table) : Prop where
  distinct : (t.rows.map Row.tid).Nodup
  indexes : ∀ i ∈ t.indexes, i.Finds S t.rows

theorem kept_make (name : String) (columns : List (String × DataType)) :
    (make name columns).Kept S := by
  constructor <;> simp [make]

theorem Kept.row_of_mem_entries (h : t.Kept S) {i : Index} (hi : i ∈ t.indexes) {x : Entry}
    (hx : x ∈ i.entries) : ∃ row, t.row x.tid = some row := by
  obtain ⟨row, hrow, hentry⟩ := (h.indexes i hi).agrees.exists_row hx
  exact ⟨row, (row_eq_some_iff_of_nodup h.distinct).2 ⟨hrow, Index.tid_of_entryOf hentry⟩⟩

theorem Kept.of_unnoticed (h : t.Kept S) (hu : t.Unnoticed t') : t'.Kept S := by
  refine ⟨hu.rows ▸ h.distinct, fun j hj => ?_⟩
  obtain ⟨i, hi, hc⟩ := exists_of_forall₂ (map_eq_iff_forall₂.1 hu.contents).flip hj
  rw [hu.rows]
  exact (h.indexes i hi).of_content hc

/-- Either every index has taken the row, or none has noticed it. -/
theorem Kept.store (hS : Value.Chained S) (h : t.Kept S) (hnew : ∀ r ∈ t.rows, r.tid ≠ row.tid)
    (hkeys : (store row t).1.KeysIn S) : (store row t).1.Kept S := by
  have hfresh : ∀ i ∈ t.indexes, (∀ x ∈ i.entries, row.tid ≠ some x.tid) ∧ i.base.Full := by
    refine fun i hi => ⟨fun x hx htid => ?_, (h.indexes i hi).full⟩
    obtain ⟨r, hr, hentry⟩ := (h.indexes i hi).agrees.exists_row hx
    exact hnew r hr ((Index.tid_of_entryOf hentry).trans htid.symm)
  unfold Table.store at hkeys ⊢
  match heach : insertEach row t.indexes with
  | (js, ⟨notes, .ok ()⟩) =>
    have hok : (insertEach row t.indexes).2.result = .ok () := by rw [heach]
    have hall := forall₂_of_insertEach hok
    simp only [heach] at hkeys hall ⊢
    refine ⟨?_, fun j hj => ?_⟩
    · rw [((putRow_perm row t.rows).map Row.tid).nodup_iff, List.map_cons, List.nodup_cons]
      refine ⟨fun hmem => ?_, h.distinct⟩
      obtain ⟨r, hr, htid⟩ := List.mem_map.1 hmem
      exact hnew r hr htid
    · obtain ⟨i, hi, hins⟩ := exists_of_forall₂ hall hj
      exact ((h.indexes i hi).insert hS hins (hkeys j hj)).perm (putRow_perm row t.rows)
  | (js, ⟨notes, .error e⟩) =>
    obtain ⟨-, hcontents⟩ := insertEach_failed hfresh (by rw [heach])
    simp only [heach] at hcontents ⊢
    refine ⟨h.distinct, fun j hj => ?_⟩
    obtain ⟨i, hi, hc⟩ := exists_of_forall₂ (map_eq_iff_forall₂.1 hcontents).flip hj
    exact (h.indexes i hi).of_content hc

theorem Kept.deleteTid (hS : Value.Chained S) (h : t.Kept S) (hrow : t.row tid = some row) :
    ∃ t', deleteTid tid t = (t', pure (some row)) ∧ t'.Kept S ∧
      t'.rows = t.rows.filter (·.tid ≠ some tid) := by
  have htid := ((row_eq_some_iff_of_nodup h.distinct).1 hrow).2
  have hperm := filter_perm_of_nodup h.distinct hrow
  have hnew : ∀ r ∈ t.rows.filter (·.tid ≠ some tid), r.tid ≠ row.tid := by
    intro r hr
    simpa [htid] using (List.mem_filter.1 hr).2
  obtain ⟨js, heq, hall⟩ :=
    deleteEach_ok fun i hi => ((h.indexes i hi).perm hperm.symm).delete hS hnew
  refine ⟨{ t with rows := t.rows.filter (·.tid ≠ some tid), indexes := js },
    by simp only [Table.deleteTid, hrow, heq]; rfl,
    ⟨h.distinct.sublist (List.filter_sublist.map Row.tid), fun j hj => ?_⟩, rfl⟩
  obtain ⟨i, -, hfinds⟩ := exists_of_forall₂ hall hj
  exact hfinds

theorem Kept.insert (hS : Value.Chained S) (h : t.Kept S) (ht : t.Traced known)
    (hkeys : (insert values t).1.KeysIn S) : (insert values t).1.Kept S := by
  unfold Table.insert at hkeys ⊢
  split at hkeys
  · exact h
  · next row _ =>
    have h₁ : Kept S { t with nextTid := t.nextTid + 1 } := ⟨h.distinct, h.indexes⟩
    refine h₁.store hS (fun r hr htid => ?_) hkeys
    obtain ⟨tid, hlt, hgiven⟩ := ht.given r (ht.rows r hr)
    rw [hgiven] at htid
    exact Nat.lt_irrefl _ (Option.some.inj htid ▸ hlt)

theorem Kept.update (hS : Value.Chained S) (h : t.Kept S) (ht : t.Traced known)
    (hkeys : (update tid values t).1.KeysIn S) : (update tid values t).1.Kept S := by
  unfold Table.update at hkeys ⊢
  split at hkeys
  · exact h
  · exact h
  · next old _ hold =>
    obtain ⟨t₁, hdel, h₁, hrows₁⟩ := h.deleteTid hS hold
    have ht₁ := ht.deleteTid tid
    simp only [hdel, pure] at hkeys ht₁ ⊢
    match hins : Table.insert values t₁ with
    | (t₂, ⟨notes, .ok row⟩) =>
      have h₂ : (Table.insert values t₁).1.KeysIn S → (Table.insert values t₁).1.Kept S :=
        h₁.insert hS ht₁
      rw [hins] at h₂
      simp only [hins] at hkeys ⊢
      exact h₂ hkeys
    | (t₂, ⟨notes, .error e⟩) =>
      obtain ⟨t₂', hfail, hu⟩ := ht₁.insert_failed (by rw [hins])
      obtain rfl : t₂ = t₂' := by
        rw [hins] at hfail
        exact congrArg Prod.fst hfail
      simp only [hins] at hkeys ⊢
      refine (h₁.of_unnoticed hu).store hS (fun r hr => ?_) hkeys
      rw [hu.rows, hrows₁] at hr
      have htid := ((row_eq_some_iff_of_nodup h.distinct).1 hold).2
      simpa [htid] using (List.mem_filter.1 hr).2

theorem Kept.addIndex (hS : Value.Chained S) (h : t.Kept S) {i : Index} (h0 : i.HoldsNothing) :
    (addIndex i t).1.KeysIn S → (addIndex i t).1.Kept S := by
  unfold Table.addIndex
  split
  · exact fun _ => h
  · split
    · exact fun _ => h
    · next i' hattach =>
      split
      · exact fun _ => h
      · next i'' hfill =>
        refine fun hkeys => ⟨h.distinct, fun j hj => ?_⟩
        rcases List.mem_append.1 hj with hj | hj
        · exact h.indexes j hj
        · obtain rfl := List.mem_singleton.1 hj
          have hfinds := (Index.Finds.of_holdsNothing (h0.attach hattach)).fill hS hfill
            (hkeys j (List.mem_append_right _ hj))
          rwa [List.append_nil] at hfinds

theorem Kept.apply {op : Op} (hS : Value.Chained S) (h : t.Kept S) (ht : t.Traced known)
    (hop : op.AttachesEmpty) (hkeys : (op.apply t).1.KeysIn S) : (op.apply t).1.Kept S := by
  have hdelete (tid : Nat) : (Table.deleteTid tid t).1.Kept S := by
    cases hrow : t.row tid with
    | none => simpa only [Table.deleteTid, hrow] using h
    | some row =>
      obtain ⟨t', heq, h', -⟩ := h.deleteTid hS hrow
      rw [heq]
      exact h'
  cases op with
  | insert values => exact h.insert hS ht hkeys
  | update tid values => exact h.update hS ht hkeys
  | deleteTid tid => exact hdelete tid
  | delete row =>
    simp only [Op.apply, Table.delete]
    split
    exacts [h, hdelete _]
  | addIndex i => exact h.addIndex hS hop hkeys

/-! ### Runs -/

/-- In every state of the run, keys that the indexes keep in order are of these values. -/
def RunsIn (S : Value → Prop) : List Op → Table → Prop
  | [], t => t.KeysIn S
  | op :: ops, t => t.KeysIn S ∧ RunsIn S ops (op.apply t).1

theorem RunsIn.keysIn {ops : List Op} (h : RunsIn S ops t) : t.KeysIn S := by
  cases ops with
  | nil => exact h
  | cons op ops => exact h.1

theorem Kept.run {ops : List Op} (hS : Value.Chained S) (h : t.Kept S) (ht : t.Traced known)
    (hops : ∀ op ∈ ops, op.AttachesEmpty) (hkeys : RunsIn S ops t) : (run ops t).1.Kept S := by
  induction ops generalizing t known with
  | nil => exact h
  | cons op ops ih =>
    obtain ⟨hop, hops⟩ := List.forall_mem_cons.1 hops
    obtain ⟨known', ht'⟩ := ht.apply hop
    exact ih (h.apply hS ht hop hkeys.2.keysIn) ht' hops hkeys.2

section
variable [DecidablePred S]

instance : (i : BaseIndex) → Decidable (i.KeysIn S)
  | .ordered i => inferInstanceAs (Decidable (∀ x ∈ i.tree.toList, ∀ v ∈ x.key, S v))
  | .hashed _ => .isTrue trivial

instance (t : Table) : Decidable (t.KeysIn S) :=
  inferInstanceAs (Decidable (∀ i ∈ t.indexes, i.base.KeysIn S))

instance decidableRunsIn : (ops : List Op) → (t : Table) → Decidable (RunsIn S ops t)
  | [], t => inferInstanceAs (Decidable (t.KeysIn S))
  | op :: ops, t =>
    have := decidableRunsIn ops (op.apply t).1
    inferInstanceAs (Decidable (_ ∧ _))

end

/-- The table has come about by operations, its indexes held nothing when they were attached, and
none of them has ever kept a key with the datum `2 ^ 63` in order. -/
def GrownSharp (t : Table) : Prop :=
  ∃ name columns ops, (∀ op ∈ ops, op.AttachesEmpty) ∧
    RunsIn (· ≠ .float Binary64.twoPow63) ops (make name columns) ∧
      (run ops (make name columns)).1 = t

/-- Over exact data that datum never becomes a key. -/
theorem Sound.runsIn {ops : List Op} (h : t.Sound) (hops : ∀ op ∈ ops, op.IsExact) :
    RunsIn (· ≠ .float Binary64.twoPow63) ops t := by
  have hkeys {t : Table} (h : t.Sound) : t.KeysIn (· ≠ .float Binary64.twoPow63) := fun i hi =>
    (BaseIndex.placed_iff.1 (h.indexes i hi).sound.placed).keysIn.imp fun _ => Value.ne_twoPow63
  induction ops generalizing t with
  | nil => exact hkeys h
  | cons op ops ih =>
    obtain ⟨hop, hops⟩ := List.forall_mem_cons.1 hops
    exact ⟨hkeys h, ih (h.apply hop).sound hops⟩

theorem GrownSharp.of_reachable (h : t.Reachable) : t.GrownSharp := by
  obtain ⟨name, columns, ops, hops, rfl⟩ := h
  exact ⟨name, columns, ops, fun op hop => (hops op hop).attachesEmpty,
    (sound_make name columns).runsIn hops, rfl⟩

theorem GrownSharp.grown (h : t.GrownSharp) : t.Grown := by
  obtain ⟨name, columns, ops, hops, -, rfl⟩ := h
  exact ⟨name, columns, ops, hops, rfl⟩

theorem GrownSharp.kept (h : t.GrownSharp) : t.Kept (· ≠ .float Binary64.twoPow63) := by
  obtain ⟨name, columns, ops, hops, hkeys, rfl⟩ := h
  exact (kept_make name columns).run Value.chained_ne_twoPow63 (traced_make name columns) hops hkeys

end Table

end RelPlan

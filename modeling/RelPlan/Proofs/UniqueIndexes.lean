import RelPlan.Proofs.TableRuns

/-!
# Unique indexes

A unique index looks for the key of a new row only on the path by which it would enter it.  Over
exact data every equal key lies on that path, whatever has been removed, rolled back or entered
again before, so the index refuses a row exactly if it holds an equal key, and the rows it accepts
have distinct keys (`Table.run_unique`).  A key with a component that is `NULL` is equal to none.
-/

namespace RelPlan

/-- No component of the key is missing. -/
def IsComplete (key : List Value) : Prop := ∀ v ∈ key, v.isNull = false

instance (key : List Value) : Decidable (IsComplete key) :=
  inferInstanceAs (Decidable (∀ v ∈ key, v.isNull = false))

namespace OrderedIndex

variable {i : OrderedIndex} {row : Row} {key : List Value} {tid : Nat}

/-- The index holds the key, as far as the order of keys can tell. -/
def Holds (i : OrderedIndex) (key : List Value) : Prop :=
  ∃ x ∈ i.tree.toList, orderKeys key x.key = .eq

instance (i : OrderedIndex) (key : List Value) : Decidable (i.Holds key) :=
  inferInstanceAs (Decidable (∃ x ∈ i.tree.toList, orderKeys key x.key = .eq))

theorem guards_iff : i.guards key ↔ i.unique ∧ IsComplete key := by
  simp [guards, IsComplete]

theorem meets_iff_holds {n : Nat} (ht : i.tree.Ordered n) (hkey : IsKey n key) :
    i.tree.meets key ↔ i.Holds key :=
  (Tree.meets_iff ht hkey).trans <| exists_congr fun x => and_congr_right fun hx =>
    eq_comm.trans (orderKeys_eq_iff hkey (ht.keys x hx)).symm

/-- A row whose key is guarded and held is refused, and any other one is entered. -/
theorem insert_eq_ite {n : Nat} (ht : i.tree.Ordered n) (hkey : IsKey n key)
    (htid : row.tid = some tid) (heval : i.keyOf row = .ok key) :
    i.insert row = if i.guards key ∧ i.Holds key then .error (.uniqueViolation i.name key)
      else .ok (i.add ⟨key, tid⟩) := by
  rw [insert_eq, entryOf_eq_ok.2 ⟨htid, heval⟩]
  simp only [Result.ok_bind, Bool.and_eq_true, meets_iff_holds ht hkey]

end OrderedIndex

namespace Index

variable {j : Index} {i : OrderedIndex} {columns : List Column} {rows : List Row}

theorem InStep.pairwise_rows (h : InStep columns rows j) :
    rows.Pairwise fun r s => ∀ x y, j.entryOf r = .ok (some x) → j.entryOf s = .ok (some y) →
      ¬ j.base.Conflict x y := by
  obtain ⟨es, hes, hperm⟩ := h.agrees
  have hall := Result.mapM_eq_ok.1 hes
  have hapart := hperm.pairwise h.sound.apart fun hne hyx => hne hyx.symm
  rw [List.reduceOption, List.pairwise_filterMap] at hapart
  rw [List.pairwise_iff_getElem] at hapart ⊢
  intro a b ha hb hab x y hx hy
  have ha' : a < es.length := hall.length_eq ▸ ha
  have hb' : b < es.length := hall.length_eq ▸ hb
  have hxa : es[a] = some x := Except.ok.inj ((hall.get ha ha').symm.trans hx)
  have hyb : es[b] = some y := Except.ok.inj ((hall.get hb hb').symm.trans hy)
  exact hapart a b ha' hb' hab x hxa y hyb

theorem InStep.evaluates (h : InStep columns rows j) (hj : j.base = .ordered i) :
    ∀ row ∈ rows, j.covers row = .ok false ∨
      j.covers row = .ok true ∧ ∃ key, i.keyOf row = .ok key := by
  intro row hrow
  obtain ⟨es, hes, -⟩ := h.agrees
  obtain ⟨o, -, ho⟩ := Result.exists_of_mapM_eq_ok hes hrow
  refine (entryOf_eq_ok.1 ho).imp And.left ?_
  rintro ⟨⟨key, tid⟩, hc, hx, -⟩
  rw [hj] at hx
  exact ⟨hc, key, (OrderedIndex.entryOf_eq_ok.1 hx).2⟩

end Index

namespace Table

variable {t : Table} {j : Index} {i : OrderedIndex}

/-- What a unique index guarantees for the rows of a table. -/
structure Unique (t : Table) (j : Index) (i : OrderedIndex) : Prop where
  /-- Every stored row is accepted or not, and has a key if it is. -/
  evaluates : ∀ row ∈ t.rows, j.covers row = .ok false ∨
    j.covers row = .ok true ∧ ∃ key, i.keyOf row = .ok key
  /-- No two stored rows that are accepted have complete keys that are equal. -/
  apart : t.rows.Pairwise fun r s => ∀ k l, j.covers r = .ok true → j.covers s = .ok true →
    i.keyOf r = .ok k → i.keyOf s = .ok l → IsComplete k → IsComplete l → orderKeys k l ≠ .eq
  /-- A row is refused exactly if its key is complete and equal to one that is stored. -/
  refuses : ∀ row tid key, row.IsExact → row.tid = some tid → i.keyOf row = .ok key →
    (i.insert row = .error (.uniqueViolation i.name key) ↔ IsComplete key ∧ i.Holds key)
  /-- Any other row is entered under its key. -/
  enters : ∀ row tid key, row.IsExact → row.tid = some tid → i.keyOf row = .ok key →
    ¬ (IsComplete key ∧ i.Holds key) →
      ∃ i', i.insert row = .ok i' ∧ i'.tree.toList.Perm (⟨key, tid⟩ :: i.tree.toList)
  /-- A refusal leaves the index, and those after it, as they are. -/
  unchanged : ∀ row is e, j.covers row = .ok true → i.insert row = .error e →
    insertEach row (j :: is) = (j :: is, .fail e)

theorem Sound.unique (h : t.Sound) (hj : j ∈ t.indexes) (hbase : j.base = .ordered i)
    (hu : i.unique) : t.Unique j i := by
  have hin := h.indexes j hj
  have hplaced : i.tree.Ordered i.keys.length := by
    have hp := hin.sound.placed
    rw [hbase] at hp
    exact hp
  have hexact : ∀ e ∈ i.keys, e.isExact := fun e he =>
    hin.exact e (List.mem_append_right _ (by rw [hbase]; exact he))
  have hiskey {row : Row} {key : List Value} (hrow : row.IsExact) (hkey : i.keyOf row = .ok key) :
      IsKey i.keys.length key := Expr.isKey_evalAll hexact Scope.isExact_empty hrow hkey
  have hguards {key : List Value} : i.guards key ∧ i.Holds key ↔ IsComplete key ∧ i.Holds key :=
    and_congr_left fun _ => OrderedIndex.guards_iff.trans (and_iff_right hu)
  refine ⟨hin.evaluates hbase, ?_, ?_, ?_, ?_⟩
  · -- two rows with equal keys would have entries in conflict, by the side whose key is guarded
    refine hin.pairwise_rows.imp_of_mem fun {r s} hr hs hne k l hcr hcs hkr hks hck _ heq => ?_
    have hentry {r : Row} {k : List Value} (hr : r ∈ t.rows) (hc : j.covers r = .ok true)
        (hk : i.keyOf r = .ok k) : ∃ tid, j.entryOf r = .ok (some ⟨k, tid⟩) := by
      obtain ⟨tid, -, htid⟩ := h.stored r hr
      refine ⟨tid, Index.entryOf_eq_ok.2 (.inr ⟨_, hc, ?_, rfl⟩)⟩
      rw [hbase]
      exact OrderedIndex.entryOf_eq_ok.2 ⟨htid, hk⟩
    obtain ⟨a, ha⟩ := hentry hr hcr hkr
    obtain ⟨b, hb⟩ := hentry hs hcs hks
    refine hne _ _ ha hb ?_
    rw [hbase]
    exact ⟨OrderedIndex.guards_iff.2 ⟨hu, hck⟩,
      (orderKeys_eq_iff (hiskey (h.exact r hr) hkr) (hiskey (h.exact s hs) hks)).1 heq⟩
  · intro row tid key hrow htid hkey
    rw [OrderedIndex.insert_eq_ite hplaced (hiskey hrow hkey) htid hkey, ← hguards]
    split <;> simp_all
  · intro row tid key hrow htid hkey hfree
    obtain ⟨slot, hslot⟩ := i.tree_add ⟨key, tid⟩
    refine ⟨i.add ⟨key, tid⟩, ?_, hslot ▸ Tree.toList_insert_perm slot _ i.tree⟩
    rw [OrderedIndex.insert_eq_ite hplaced (hiskey hrow hkey) htid hkey,
      if_neg fun hne => hfree (hguards.1 hne)]
  · intro row is e hc hins
    have hj : j.insert row = .error e := by
      simp [Index.insert, hc, hbase, BaseIndex.insert, hins]
    simp [insertEach, hj]

/-- In every state of every run a unique ordered index, restricted or not, keeps the complete keys
of the rows it accepts distinct, and refuses a row exactly if it would make two of them equal. -/
theorem run_unique (name : String) (columns : List (String × DataType)) (ops : List Op)
    (h : ∀ op ∈ ops, op.IsExact) :
    ∀ j ∈ (run ops (make name columns)).1.indexes, ∀ i, j.base = .ordered i → i.unique →
      (run ops (make name columns)).1.Unique j i := by
  intro j hj i hbase hu
  exact ((sound_make name columns).run h).1.unique hj hbase hu

/-- A unique index on `a`, `b` of the rows whose `b` is not `0`: it keeps both rows with `NULL` and
the rows it does not accept, refuses a second `1, 1` and the update that would make one, and takes
`1, 1` again after the first has gone. -/
def partialOps : List Op :=
  [.addIndex ⟨some (.binary (.cmp .ne) (.ref ⟨none, "b"⟩) (.const (.int 0))),
      .ordered { name := "u", keys := [.ref ⟨none, "a"⟩, .ref ⟨none, "b"⟩], unique := true }⟩,
    .insert [.int 1, .int 1], .insert [.null, .int 1], .insert [.null, .int 1],
    .insert [.int 1, .int 1], .insert [.int 1, .int 0], .insert [.int 1, .int 0],
    .insert [.int 2, .int 1], .update 6 [.int 1, .int 1], .deleteTid 0, .insert [.int 1, .int 1]]

def partialTable : Table := (run partialOps (make "t" [("a", .int), ("b", .int)])).1

theorem run_unique_partial : ∃ j i, partialTable.indexes = [j] ∧ j.base = .ordered i ∧
    i.tree.toList = [⟨[.null, .int 1], 2⟩, ⟨[.null, .int 1], 1⟩, ⟨[.int 1, .int 1], 8⟩,
      ⟨[.int 2, .int 1], 6⟩] ∧
    partialTable.Unique j i := by
  refine ⟨_, _, rfl, rfl, by decide, ?_⟩
  exact run_unique "t" [("a", .int), ("b", .int)] partialOps
    (by decide) _ (List.mem_singleton_self _) _ rfl rfl

end Table

end RelPlan

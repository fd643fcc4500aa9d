import RelPlan.Proofs.IndexUndo
import RelPlan.Proofs.TableRuns

/-!
# What stays true over any data

Over binary64 data a search can miss what is there, and a removal leave an entry behind.  Still each
entry of an index is that of a row which has once been given its tid, and no two rows have been
given one (`Table.Traced`).  Whatever operations a table goes through, this stays so (`Traced.run`).
-/

namespace RelPlan

variable {row : Row} {columns : List Column} {known known' : List Row} {x : Entry}

namespace BaseIndex

variable {i i' : BaseIndex}

-- which entry goes stays open: where the order is not transitive, it need not be that of the row
theorem delete_entries {found : Bool} (hdel : i.delete row = .ok (i', found)) :
    i' = i ∨ ∃ x, i.entries.Perm (x :: i'.entries) ∧ i'.size = i.size - 1 ∧
      i'.blank = i.blank := by
  cases i with
  | ordered i =>
    obtain ⟨⟨j, found'⟩, hj, hdel⟩ := Result.bind_eq_ok.1 hdel
    cases hdel
    rw [OrderedIndex.delete_eq] at hj
    obtain ⟨x, -, hj⟩ := Result.bind_eq_ok.1 hj
    split at hj
    · next tree freed hq =>
      cases hj
      obtain ⟨before, y, after, ht, ht', -⟩ := Tree.toList_erase hq
      refine .inr ⟨y, ?_, rfl, rfl⟩
      simp only [entries, ht, ht']
      exact List.perm_middle
    · cases hj
      exact .inl rfl
  | hashed i =>
    obtain ⟨⟨j, found'⟩, hj, hdel⟩ := Result.bind_eq_ok.1 hdel
    cases hdel
    obtain ⟨tid, -, hj⟩ := Result.bind_eq_ok.1 hj
    obtain ⟨v, -, hj⟩ := Result.bind_eq_ok.1 hj
    dsimp only at hj
    split at hj
    · cases hj
      exact .inl rfl
    · next k hk =>
      cases hj
      obtain ⟨hlt, -⟩ := List.findIdx?_eq_some_iff_getElem.1 hk
      exact .inr ⟨_, (i.pairs_erase_perm hlt).map _, rfl, rfl⟩

theorem Full.insert (h : i.Full) (hins : i.insert row = .ok i') : i'.Full := by
  cases i with
  | ordered i =>
    obtain ⟨j, -, rfl⟩ := Result.map_eq_ok.1 hins
    trivial
  | hashed i =>
    obtain ⟨j, hj, rfl⟩ := Result.map_eq_ok.1 hins
    obtain ⟨tid, -, hj⟩ := Result.bind_eq_ok.1 hj
    obtain ⟨v, -, hj⟩ := Result.bind_eq_ok.1 hj
    cases hj
    exact HashedIndex.setBucket_full h

theorem Full.delete {found : Bool} (h : i.Full) (hdel : i.delete row = .ok (i', found)) :
    i'.Full := by
  cases i with
  | ordered i =>
    obtain ⟨⟨j, found'⟩, -, hdel⟩ := Result.bind_eq_ok.1 hdel
    cases hdel
    trivial
  | hashed i =>
    obtain ⟨⟨j, found'⟩, hj, hdel⟩ := Result.bind_eq_ok.1 hdel
    cases hdel
    obtain ⟨tid, -, hj⟩ := Result.bind_eq_ok.1 hj
    obtain ⟨v, -, hj⟩ := Result.bind_eq_ok.1 hj
    dsimp only at hj
    split at hj <;> cases hj
    · exact h
    · exact HashedIndex.setBucket_full h

theorem Typed.of_blank (h : i.Typed columns) (hb : i'.blank = i.blank) : i'.Typed columns := by
  cases i <;> cases i' <;>
    simp_all [Typed, blank, OrderedIndex.blank, HashedIndex.blank]

end BaseIndex

namespace Index

variable {i i' : Index}

/-- Every entry is that of a known row. -/
structure Traces (columns : List Column) (known : List Row) (i : Index) : Prop where
  resolved : ∀ e ∈ i.exprs, ∀ r ∈ e.refs, ∃ k, resolve columns r = .ok (some k)
  typed : i.base.Typed columns
  full : i.base.Full
  size : i.base.size = i.entries.length
  traced : ∀ x ∈ i.entries, ∃ row ∈ known, i.entryOf row = .ok (some x)

theorem Traces.mono (h : i.Traces columns known) (hk : ∀ r ∈ known, r ∈ known') :
    i.Traces columns known' :=
  { h with traced := fun x hx => (h.traced x hx).imp fun _ => And.imp_left (hk _) }

theorem Traces.of_blank (h : i.Traces columns known) (hb : i'.blank = i.blank)
    (hfull : i'.base.Full) (hsize : i'.base.size = i'.entries.length)
    (htraced : ∀ x ∈ i'.entries, ∃ row ∈ known', i.entryOf row = .ok (some x)) :
    i'.Traces columns known' := by
  refine ⟨?_, h.typed.of_blank (congrArg base hb), hfull, hsize, ?_⟩
  · rw [exprs_eq_of_blank hb]
    exact h.resolved
  · rw [entryOf_eq_of_blank hb]
    exact htraced

theorem Traces.insert (h : i.Traces columns known) (hins : i.insert row = .ok i')
    (hrow : row ∈ known) : i'.Traces columns known := by
  rcases insert_eq_ok.1 hins with ⟨-, rfl⟩ | ⟨base, hc, hbase, rfl⟩
  · exact h
  · obtain ⟨x, hx, hperm, hsize, hblank⟩ := BaseIndex.insert_entries hbase
    refine h.of_blank (by simp [blank, hblank]) (h.full.insert hbase) ?_ fun y hy => ?_
    · show base.size = base.entries.length
      rw [hsize, hperm.length_eq, List.length_cons, h.size]
      rfl
    · rcases List.mem_cons.1 (hperm.mem_iff.1 hy) with rfl | hy
      · exact ⟨row, hrow, entryOf_eq_ok.2 (.inr ⟨y, hc, hx, rfl⟩)⟩
      · exact h.traced y hy

theorem Traces.delete {found : Bool} (h : i.Traces columns known)
    (hdel : i.delete row = .ok (i', found)) : i'.Traces columns known := by
  obtain ⟨covered, hc, hdel⟩ := Result.bind_eq_ok.1 hdel
  cases covered with
  | false => cases hdel; exact h
  | true =>
    obtain ⟨⟨base, found'⟩, hbase, hdel⟩ := Result.bind_eq_ok.1 hdel
    cases hdel
    have hfull := h.full.delete hbase
    rcases BaseIndex.delete_entries hbase with rfl | ⟨x, hperm, hsize, hblank⟩
    · exact h
    · refine h.of_blank (by simp [blank, hblank]) hfull ?_ fun y hy => ?_
      · show base.size = base.entries.length
        rw [hsize, h.size, show i.entries.length = _ from hperm.length_eq]
        simp
      · exact h.traced y (hperm.mem_iff.2 (List.mem_cons_of_mem _ hy))

theorem Traces.fill {rows : List Row} (h : i.Traces columns known)
    (hrows : ∀ r ∈ rows, r ∈ known) (hf : Table.fill rows i = .ok i') :
    i'.Traces columns known := by
  induction rows generalizing i with
  | nil => cases hf; exact h
  | cons row rows ih =>
    obtain ⟨i₁, hins, hf⟩ := Result.bind_eq_ok.1 hf
    obtain ⟨hrow, hrows⟩ := List.forall_mem_cons.1 hrows
    exact ih (h.insert hins hrow) hrows hf

theorem Traces.of_attach (h0 : i.HoldsNothing) (h : i.attach columns = (i', .ok ())) :
    i'.Traces columns known := by
  have hempty : i'.entries = [] ∧ i'.base.size = 0 ∧ i'.base.Full := by
    have h0' := h0.attach h
    obtain ⟨c, b⟩ := i'
    cases b with
    | ordered i => exact ⟨by simp [entries, BaseIndex.entries, h0'.1, Tree.toList], h0'.2, trivial⟩
    | hashed i =>
      refine ⟨?_, h0'.2, ?_⟩
      · simp [entries, BaseIndex.entries, HashedIndex.entries, HashedIndex.pairs, h0'.1]
      · intro b hb
        rw [h0'.1] at hb
        cases hb
  obtain ⟨hentries, hsize, hfull⟩ := hempty
  refine ⟨fun q hq => ?_, typed_of_attach h, hfull, by simp [hsize, hentries], by simp [hentries]⟩
  obtain ⟨e, -, heq⟩ := exprs_of_attach h q hq
  exact (attachExpr_eq_ok heq).2

end Index

/-! ### Tables -/

namespace Table

variable {t : Table} {is : List Index} {tid : Nat} {values : List Value}

/-- The known rows are those that have been given a tid, and every entry of an index is that of one
of them. -/
structure Traced (t : Table) (known : List Row) : Prop where
  rows : ∀ r ∈ t.rows, r ∈ known
  fits : ∀ r ∈ known, r.columns = t.columns ∧ checkTypes t.columns r.values = .ok ()
  given : ∀ r ∈ known, ∃ tid < t.nextTid, r.tid = some tid
  distinct : (known.map Row.tid).Nodup
  indexes : ∀ i ∈ t.indexes, i.Traces t.columns known

theorem traced_make (name : String) (columns : List (String × DataType)) :
    (make name columns).Traced [] := by
  constructor <;> simp [make]

theorem Traced.entryOf (h : t.Traced known) {i : Index} (hi : i ∈ t.indexes) (hx : x ∈ i.entries)
    (hrow : t.row x.tid = some row) : i.entryOf row = .ok (some x) ∧ row ∈ known := by
  obtain ⟨row', hmem', hentry⟩ := (h.indexes i hi).traced x hx
  have hmem : row ∈ known := h.rows row (List.mem_of_find?_eq_some hrow)
  have htid : row.tid = some x.tid := by simpa using List.find?_some hrow
  obtain rfl := List.inj_on_of_nodup_map h.distinct hmem hmem'
    (htid.trans (Index.tid_of_entryOf hentry).symm)
  exact ⟨hentry, hmem⟩

theorem Traced.entry_tid_lt (h : t.Traced known) {i : Index} (hi : i ∈ t.indexes)
    (hx : x ∈ i.entries) : x.tid < t.nextTid := by
  obtain ⟨row, hrow, hentry⟩ := (h.indexes i hi).traced x hx
  obtain ⟨tid, hlt, htid⟩ := h.given row hrow
  rw [Index.tid_of_entryOf hentry] at htid
  exact Option.some.inj htid ▸ hlt

theorem traces_insertEach (h : ∀ i ∈ is, i.Traces columns known) (hrow : row ∈ known) :
    ∀ i ∈ (insertEach row is).1, i.Traces columns known := by
  induction is with
  | nil => exact h
  | cons i is ih =>
    obtain ⟨hi, his⟩ := List.forall_mem_cons.1 h
    have hrest := ih his
    unfold insertEach
    cases hins : i.insert row with
    | error e => exact h
    | ok i' =>
      have hi' := hi.insert hins hrow
      rcases heach : insertEach row is with ⟨js, notes, e | ⟨⟩⟩
      · rw [heach] at hrest
        dsimp only
        split
        · next hdel => exact List.forall_mem_cons.2 ⟨hi'.delete hdel, hrest⟩
        · exact List.forall_mem_cons.2 ⟨hi', hrest⟩
      · rw [heach] at hrest
        exact List.forall_mem_cons.2 ⟨hi', hrest⟩

theorem traces_deleteEach (h : ∀ i ∈ is, i.Traces columns known) (row : Row) :
    ∀ i ∈ (deleteEach row is).1, i.Traces columns known := by
  induction is with
  | nil => exact h
  | cons i is ih =>
    obtain ⟨hi, his⟩ := List.forall_mem_cons.1 h
    unfold deleteEach
    split
    · exact h
    · next hdel => exact List.forall_mem_cons.2 ⟨hi.delete hdel, ih his⟩

theorem Traced.store (h : t.Traced known) (hrow : row ∈ known) :
    (store row t).1.Traced known ∧ (store row t).1.nextTid = t.nextTid := by
  have hindexes := traces_insertEach h.indexes hrow
  have hrows : ∀ r ∈ putRow row t.rows, r ∈ known := fun r hr => by
    rcases List.mem_cons.1 ((putRow_perm row t.rows).mem_iff.1 hr) with rfl | hr
    exacts [hrow, h.rows r hr]
  unfold Table.store
  match heach : insertEach row t.indexes with
  | (is, ⟨notes, .ok ()⟩) =>
    rw [heach] at hindexes
    exact ⟨{ h with rows := hrows, indexes := hindexes }, rfl⟩
  | (is, ⟨notes, .error e⟩) =>
    rw [heach] at hindexes
    exact ⟨{ h with indexes := hindexes }, rfl⟩

/-- A row that the table has given the next tid becomes known, whether it is stored or not. -/
theorem Traced.give (h : t.Traced known) (hrow : t.checkedRow values = .ok row) :
    Traced { t with nextTid := t.nextTid + 1 } (row.withTid t.nextTid :: known) := by
  obtain ⟨row', hmake, hrow⟩ := Result.bind_eq_ok.1 hrow
  obtain ⟨⟨⟩, htypes, hrow⟩ := Result.bind_eq_ok.1 hrow
  cases hrow
  unfold Row.make at hmake
  split at hmake <;> cases hmake
  refine ⟨fun r hr => List.mem_cons_of_mem _ (h.rows r hr),
    List.forall_mem_cons.2 ⟨⟨rfl, htypes⟩, h.fits⟩,
    List.forall_mem_cons.2 ⟨⟨_, Nat.lt_succ_self _, rfl⟩, fun r hr => ?_⟩,
    List.nodup_cons.2 ⟨fun hmem => ?_, h.distinct⟩,
    fun i hi => (h.indexes i hi).mono fun r => List.mem_cons_of_mem _⟩
  · exact (h.given r hr).imp fun _ h => ⟨Nat.lt_succ_of_lt h.1, h.2⟩
  · obtain ⟨r, hr, htid⟩ := List.mem_map.1 hmem
    obtain ⟨tid, hlt, htid'⟩ := h.given r hr
    rw [htid'] at htid
    exact Nat.lt_irrefl _ (Option.some.inj htid ▸ hlt)

theorem Traced.insert (h : t.Traced known) (values : List Value) :
    ∃ known', (∀ r ∈ known, r ∈ known') ∧ (insert values t).1.Traced known' := by
  unfold Table.insert
  split
  · exact ⟨known, fun _ => id, h⟩
  · next row hrow =>
    exact ⟨_, fun r => List.mem_cons_of_mem _,
      ((h.give hrow).store List.mem_cons_self).1⟩

theorem Traced.deleteTid (h : t.Traced known) (tid : Nat) : (deleteTid tid t).1.Traced known := by
  unfold Table.deleteTid
  split
  · exact h
  · next row hrow =>
    exact { h with
      rows := fun r hr => h.rows r (List.mem_of_mem_filter hr)
      indexes := traces_deleteEach h.indexes row }

theorem Traced.update (h : t.Traced known) (tid : Nat) (values : List Value) :
    ∃ known', (update tid values t).1.Traced known' := by
  unfold Table.update
  split
  · exact ⟨known, h⟩
  · exact ⟨known, h⟩
  · next old _ hold =>
    -- the old row stays known while it is out of the table, so it may be stored again
    have hmem : old ∈ known := h.rows old (List.mem_of_find?_eq_some hold)
    have h₁ := h.deleteTid tid
    match hdel : Table.deleteTid tid t with
    | (t₁, ⟨notes, .error e⟩) =>
      rw [hdel] at h₁
      exact ⟨known, h₁⟩
    | (t₁, ⟨notes, .ok _⟩) =>
      rw [hdel] at h₁
      obtain ⟨known', hsub, h₂⟩ := h₁.insert values
      match hins : Table.insert values t₁ with
      | (t₂, ⟨notes', .ok row⟩) =>
        rw [hins] at h₂
        exact ⟨known', by simpa only [hins] using h₂⟩
      | (t₂, ⟨notes', .error e⟩) =>
        rw [hins] at h₂
        exact ⟨known', by simpa only [hins] using (h₂.store (hsub old hmem)).1⟩

theorem Traced.addIndex (h : t.Traced known) {i : Index} (h0 : i.HoldsNothing) :
    (addIndex i t).1.Traced known := by
  unfold Table.addIndex
  split
  · exact h
  · split
    · exact h
    · next i' hattach =>
      split
      · exact h
      · next i'' hfill =>
        refine { h with indexes := fun j hj => ?_ }
        rcases List.mem_append.1 hj with hj | hj
        · exact h.indexes j hj
        · rw [List.mem_singleton.1 hj]
          exact (Index.Traces.of_attach h0 hattach).fill h.rows hfill

def Op.AttachesEmpty : Op → Prop
  | insert _ | delete _ | deleteTid _ | update _ _ => True
  | addIndex i => i.HoldsNothing

instance : (op : Op) → Decidable op.AttachesEmpty
  | .insert _ | .delete _ | .deleteTid _ | .update _ _ => .isTrue trivial
  | .addIndex i => inferInstanceAs (Decidable i.HoldsNothing)

theorem Traced.apply {op : Op} (h : t.Traced known) (hop : op.AttachesEmpty) :
    ∃ known', (op.apply t).1.Traced known' := by
  cases op with
  | insert values =>
    obtain ⟨known', -, h'⟩ := h.insert values
    exact ⟨known', h'⟩
  | update tid values => exact h.update tid values
  | deleteTid tid => exact ⟨known, h.deleteTid tid⟩
  | delete row =>
    simp only [Op.apply, Table.delete]
    split
    · exact ⟨known, h⟩
    · exact ⟨known, h.deleteTid _⟩
  | addIndex i => exact ⟨known, h.addIndex hop⟩

theorem Traced.run {ops : List Op} (h : t.Traced known) (hops : ∀ op ∈ ops, op.AttachesEmpty) :
    ∃ known', (run ops t).1.Traced known' := by
  induction ops generalizing t known with
  | nil => exact ⟨known, h⟩
  | cons op ops ih =>
    obtain ⟨hop, hops⟩ := List.forall_mem_cons.1 hops
    obtain ⟨known', h'⟩ := h.apply hop
    exact ih h' hops

/-- The table has come about by operations, and its indexes held nothing when they were
attached. -/
def Grown (t : Table) : Prop :=
  ∃ name columns ops, (∀ op ∈ ops, op.AttachesEmpty) ∧ (run ops (make name columns)).1 = t

theorem Grown.traced (h : t.Grown) : ∃ known, t.Traced known := by
  obtain ⟨name, columns, ops, hops, rfl⟩ := h
  exact (traced_make name columns).run hops

end Table

end RelPlan

import RelPlan.Access
import RelPlan.Proofs.Attaching
import RelPlan.Proofs.TableSteps

/-!
# Runs of table operations

Whatever operations a table has gone through, and whichever of them failed, its indexes hold exactly
the entries of its rows (`Table.run_consistent`).  What an index gives is therefore always stored,
and no tid is given out twice.
-/

namespace RelPlan

namespace Index

variable {i i' : Index} {columns : List Column} {rows done : List Row}

/-- An expression over the columns alone, without binary64 data. -/
def Attached (columns : List Column) (e : Expr) : Prop :=
  e.isExact ∧ ∀ r ∈ e.refs, ∃ k, resolve columns r = .ok (some k)

theorem attached_of_attach (hi : i.IsExact) (h : i.attach columns = (i', .ok ())) :
    ∀ e ∈ i'.exprs, Attached columns e := by
  intro q hq
  obtain ⟨e, he, heq⟩ := exprs_of_attach h q hq
  obtain ⟨hrename, hrefs⟩ := attachExpr_eq_ok heq
  exact ⟨Expr.isExact_of_rename (hi e he) hrename, hrefs⟩

theorem InStep.of_holdsNothing (h0 : i.HoldsNothing) (h : ∀ e ∈ i.exprs, Attached columns e) :
    InStep columns [] i := by
  suffices hs : i.base.Sound ∧ i.entries = [] from
    ⟨hs.1, fun e he => (h e he).1, fun e he => (h e he).2, .nil hs.2⟩
  obtain ⟨c, b⟩ := i
  cases b with
  | ordered i =>
    obtain ⟨htree, hsize⟩ := h0
    refine ⟨⟨?_, ?_, ?_⟩, ?_⟩ <;>
      simp [BaseIndex.Placed, BaseIndex.size, BaseIndex.entries, entries, htree, hsize,
        Tree.ordered_leaf, Tree.toList]
  | hashed i =>
    obtain ⟨hbuckets, hsize⟩ := h0
    refine ⟨⟨⟨?_, ?_⟩, ?_, ?_⟩, ?_⟩ <;>
      simp [BaseIndex.size, BaseIndex.entries, entries, HashedIndex.entries, HashedIndex.pairs,
        hbuckets, hsize]

theorem InStep.fill (h : InStep columns done i) (hr : ∀ r ∈ rows, r.IsExact)
    (hf : Table.fill rows i = .ok i') : InStep columns (rows ++ done) i' := by
  induction rows generalizing i done with
  | nil => cases hf; exact h
  | cons row rows ih =>
    obtain ⟨i₁, hins, hf⟩ := Result.bind_eq_ok.1 hf
    obtain ⟨hrow, hrows⟩ := List.forall_mem_cons.1 hr
    exact (ih (h.insert hrow hins).1 hrows hf).perm List.perm_middle.symm

end Index

namespace Table

variable {t : Table} {values : List Value} {tid : Nat} {old : Row}

theorem Sound.update (tid : Nat) (h : t.Sound) (hv : ∀ v ∈ values, v.isExact) :
    ∃ t' r, update tid values t = (t', ⟨[], r⟩) ∧ t'.Sound ∧ t'.frame = t.frame ∧
      ((∃ row, r = .ok row ∧ row.tid = some t.nextTid ∧ t'.nextTid = t.nextTid + 1 ∧
          t'.rows.Perm (row :: t.rows.filter (·.tid ≠ some tid))) ∨
        (∃ e, r = .error e) ∧ t.nextTid ≤ t'.nextTid ∧ t'.rows.Perm t.rows) := by
  unfold Table.update
  split
  · next e _ => exact ⟨t, .error e, rfl, h, rfl, .inr ⟨⟨e, rfl⟩, Nat.le_refl _, .refl _⟩⟩
  · exact ⟨t, _, rfl, h, rfl, .inr ⟨⟨_, rfl⟩, Nat.le_refl _, .refl _⟩⟩
  · next old _ hrow =>
    obtain ⟨t₁, hdel, h₁, hf₁, hn₁, hrows₁, -⟩ := h.deleteTid hrow
    obtain ⟨t₂, r, hins, h₂, hf₂, hcase⟩ := h₁.insert hv
    simp only [hdel, pure, hins]
    rcases hcase with ⟨row, rfl, htid, hperm, hn₂⟩ | ⟨⟨e, rfl⟩, hrows₂, hn₂⟩
    · exact ⟨t₂, .ok row, rfl, h₂, hf₂.trans hf₁,
        .inl ⟨row, rfl, hn₁ ▸ htid, by omega, hrows₁ ▸ hperm⟩⟩
    · obtain ⟨-, t₃, hstore, h₃, hf₃, hn₃, hperm⟩ := h.restore hrow h₂ (hf₂.trans hf₁) (by omega)
        (hrows₂.trans hrows₁)
      simp only [hstore]
      exact ⟨t₃, .error e, rfl, h₃, hf₃, .inr ⟨⟨e, rfl⟩, by omega, hperm⟩⟩

theorem Sound.addIndex {i : Index} (h : t.Sound) (hi : i.IsExact) (h0 : i.HoldsNothing) :
    ∃ t' x, addIndex i t = (t', x) ∧ t'.Sound ∧ t'.rows = t.rows ∧ t'.nextTid = t.nextTid := by
  unfold Table.addIndex
  split
  · exact ⟨t, _, rfl, h, rfl, rfl⟩
  · split
    · exact ⟨t, _, rfl, h, rfl, rfl⟩
    · next i' hattach =>
      split
      · exact ⟨t, _, rfl, h, rfl, rfl⟩
      · next i'' hfill =>
        have hblank := Index.InStep.of_holdsNothing (h0.attach hattach)
          (Index.attached_of_attach hi hattach)
        have hin := hblank.fill h.exact hfill
        rw [List.append_nil] at hin
        refine ⟨_, _, rfl, { h with indexes := fun j hj => ?_ }, rfl, rfl⟩
        rcases List.mem_append.1 hj with hj | hj
        · exact h.indexes j hj
        · rw [List.mem_singleton.1 hj]; exact hin

/-! ### Runs -/

/-- What can be done to a table. -/
inductive Op
  | insert (values : List Value)
  | delete (row : Row)
  | deleteTid (tid : Nat)
  | update (tid : Nat) (values : List Value)
  | addIndex (i : Index)

namespace Op

/-- The operation brings no binary64 datum, and an index only before anything is entered. -/
def IsExact : Op → Prop
  | insert values | update _ values => ∀ v ∈ values, v.isExact
  | delete _ | deleteTid _ => True
  | addIndex i => i.IsExact ∧ i.HoldsNothing

instance : (op : Op) → Decidable op.IsExact
  | insert values | update _ values => inferInstanceAs (Decidable (∀ v ∈ values, v.isExact))
  | delete _ | deleteTid _ => .isTrue trivial
  | addIndex i => inferInstanceAs (Decidable (i.IsExact ∧ i.HoldsNothing))

/-- Does the operation and says which tid it gave out. -/
def apply (op : Op) (t : Table) : Table × Option Nat :=
  let given (x : Table × Logged Row) : Table × Option Nat :=
    (x.1, match x.2.result with | .ok row => row.tid | .error _ => none)
  match op with
  | insert values => given (Table.insert values t)
  | update tid values => given (Table.update tid values t)
  | delete row => ((Table.delete row t).1, none)
  | deleteTid tid => ((Table.deleteTid tid t).1, none)
  | addIndex i => ((Table.addIndex i t).1, none)

end Op

/-- Does the operations one after the other, whether they succeed or not, and lists the tids that
were given out. -/
def run : List Op → Table → Table × List Nat
  | [], t => (t, [])
  | op :: ops, t =>
    let (t, given) := op.apply t
    let (t, tids) := run ops t
    (t, given.toList ++ tids)

/-- What holds of a table after every run. -/
structure Consistent (t : Table) (given : List Nat) : Prop where
  /-- Each index has the entries of the rows that it accepts, and no other ones. -/
  entries : ∀ i ∈ t.indexes, ∃ es, t.rows.mapM i.entryOf = .ok es ∧
    i.entries.Perm es.reduceOption ∧ i.size = es.reduceOption.length
  distinct : (t.rows.map Row.tid).Nodup
  stored : ∀ row ∈ t.rows, ∃ tid ∈ given, row.tid = some tid
  below : ∀ tid ∈ given, tid < t.nextTid
  once : given.Nodup
  /-- No index stands in the way of removing a stored row, under its tid or that of a row given. -/
  deletes : ∀ tid row, t.row tid = some row → (deleteTid tid t).2.result = .ok (some row)
  removes : ∀ tid row row', t.row tid = some row → row'.tid = some tid →
    (delete row' t).2.result = .ok (some row)
  /-- When the new row of an update is refused the old one is stored again. -/
  restores : ∀ tid old values, t.row tid = some old → (∀ v ∈ values, v.isExact) → ∀ e,
    (insert values (deleteTid tid t).1).2.result = .error e →
      (store old (insert values (deleteTid tid t).1).1).2.result = .ok ()
  /-- An update of a stored row fails only where the new row is refused, by the check of its values
  or by the insertion. -/
  updates : ∀ tid old values e, t.row tid = some old → (∀ v ∈ values, v.isExact) →
    (update tid values t).2.result = .error e →
      t.checkedRow values = .error e ∨ (insert values (deleteTid tid t).1).2.result = .error e
  /-- Every tid that an index gives is stored. -/
  complete : ∀ i ∈ t.indexes, ∀ probe enforced order scope s,
    AccessPath.scan ⟨t, .index i probe enforced order⟩ scope = .ok s →
      ∃ rows, (s ()).drain.result = .ok rows

/-- An operation leaves a sound table, and gives out the next tid if it gives out one.  There are no
new rows but under the tid given out. -/
structure Gives (t t' : Table) (given : Option Nat) : Prop where
  sound : t'.Sound
  next : given = none ∧ t.nextTid ≤ t'.nextTid ∨
    given = some t.nextTid ∧ t'.nextTid = t.nextTid + 1
  rows : ∀ row ∈ t'.rows, row ∈ t.rows ∨ row.tid = given

theorem Gives.of_subset {t' : Table} (h : t'.Sound) (hn : t.nextTid ≤ t'.nextTid)
    (hsub : t'.rows ⊆ t.rows) : t.Gives t' none :=
  ⟨h, .inl ⟨rfl, hn⟩, fun _ hrow => .inl (hsub hrow)⟩

theorem Gives.of_perm {t' : Table} {row : Row} {kept : List Row} (h : t'.Sound)
    (htid : row.tid = some t.nextTid) (hn : t'.nextTid = t.nextTid + 1)
    (hperm : t'.rows.Perm (row :: kept)) (hsub : kept ⊆ t.rows) : t.Gives t' row.tid where
  sound := h
  next := .inr ⟨htid, hn⟩
  rows r hr := by
    rcases List.mem_cons.1 (hperm.mem_iff.1 hr) with rfl | hr
    exacts [.inr rfl, .inl (hsub hr)]

theorem Sound.gives_deleteTid (h : t.Sound) (tid : Nat) :
    t.Gives (Table.deleteTid tid t).1 none := by
  cases hrow : t.row tid with
  | none =>
    simp only [Table.deleteTid, hrow]
    exact .of_subset h (Nat.le_refl _) (List.Subset.refl _)
  | some row =>
    obtain ⟨t', heq, h', -, hn, hrows, -⟩ := h.deleteTid hrow
    rw [heq]
    exact .of_subset h' (Nat.le_of_eq hn.symm) (hrows ▸ List.filter_subset_self _)

theorem Sound.apply {op : Op} (h : t.Sound) (hop : op.IsExact) :
    t.Gives (op.apply t).1 (op.apply t).2 := by
  cases op with
  | insert values =>
    obtain ⟨t', r, heq, h', -, ⟨row, rfl, htid, hperm, hn⟩ | ⟨⟨e, rfl⟩, hrows, hn⟩⟩ := h.insert hop
    · simp only [Op.apply, heq]
      exact .of_perm h' htid hn hperm (List.Subset.refl _)
    · simp only [Op.apply, heq]
      exact .of_subset h' hn (hrows ▸ List.Subset.refl _)
  | update tid values =>
    obtain ⟨t', r, heq, h', -, ⟨row, rfl, htid, hn, hperm⟩ | ⟨⟨e, rfl⟩, hn, hperm⟩⟩ :=
      h.update tid hop
    · simp only [Op.apply, heq]
      exact .of_perm h' htid hn hperm (List.filter_subset_self _)
    · simp only [Op.apply, heq]
      exact .of_subset h' hn hperm.subset
  | deleteTid tid => exact h.gives_deleteTid tid
  | delete row =>
    cases htid : row.requireTid with
    | error e =>
      simp only [Op.apply, Table.delete, htid]
      exact .of_subset h (Nat.le_refl _) (List.Subset.refl _)
    | ok tid =>
      simp only [Op.apply, Table.delete, htid]
      exact h.gives_deleteTid tid
  | addIndex i =>
    obtain ⟨t', x, heq, h', hrows, hn⟩ := h.addIndex hop.1 hop.2
    simp only [Op.apply, heq]
    exact .of_subset h' (Nat.le_of_eq hn.symm) (hrows ▸ List.Subset.refl _)

/-- A run gives out ascending tids, all of them new, and leaves a sound table. -/
theorem Sound.run {ops : List Op} (h : t.Sound) (hops : ∀ op ∈ ops, op.IsExact) :
    (run ops t).1.Sound ∧ t.nextTid ≤ (run ops t).1.nextTid ∧ (run ops t).2.Pairwise (· < ·) ∧
      (∀ tid ∈ (run ops t).2, t.nextTid ≤ tid ∧ tid < (run ops t).1.nextTid) ∧
      ∀ row ∈ (run ops t).1.rows, row ∈ t.rows ∨ ∃ tid ∈ (run ops t).2, row.tid = some tid := by
  induction ops generalizing t with
  | nil => exact ⟨h, Nat.le_refl _, .nil, by simp [Table.run], fun row hr => .inl hr⟩
  | cons op ops ih =>
    obtain ⟨hop, hops⟩ := List.forall_mem_cons.1 hops
    obtain ⟨h', hgiven, hnew⟩ := h.apply hop
    obtain ⟨hs, hle, hp, hb, horigin⟩ := ih h' hops
    simp only [Table.run]
    rcases hgiven with ⟨hgiven, hn⟩ | ⟨hgiven, hn⟩
    · rw [hgiven] at hnew ⊢
      refine ⟨hs, by omega, hp, fun tid htid => ⟨?_, (hb tid htid).2⟩, fun row hr => ?_⟩
      · have := (hb tid htid).1; omega
      · rcases horigin row hr with hr | hr
        · obtain ⟨tid, -, htid⟩ := h'.stored row hr
          exact .inl ((hnew row hr).resolve_right (by simp [htid]))
        · exact .inr hr
    · rw [hgiven] at hnew ⊢
      simp only [Option.toList_some, List.singleton_append, List.mem_cons]
      refine ⟨hs, by omega, List.pairwise_cons.2 ⟨fun tid htid => ?_, hp⟩, ?_, fun row hr => ?_⟩
      · have := (hb tid htid).1; omega
      · rintro tid (rfl | htid)
        · omega
        · have := hb tid htid; omega
      · rcases horigin row hr with hr | ⟨tid, htid, hr⟩
        · exact (hnew row hr).imp_right fun hr => ⟨_, .inl rfl, hr⟩
        · exact .inr ⟨tid, .inr htid, hr⟩

end Table

/-! ### What indexes give -/

/-- What a scan gives lies between the limits, whatever it leaves out. -/
theorem Tree.exists_of_mem_scan {tree : Tree} {limits : List Limits} {tid : Nat}
    (h : tid ∈ tree.scan limits ∨ tid ∈ tree.scanBackward limits) :
    ∃ x ∈ tree.toList, x.tid = tid ∧ Limits.allowKey limits x.key := by
  induction tree with
  | leaf => simp [scan, scanBackward] at h
  | node slot l e r ihl ihr =>
    have hl (h : tid ∈ l.scan limits ∨ tid ∈ l.scanBackward limits) :
        ∃ x ∈ (node slot l e r).toList, x.tid = tid ∧ Limits.allowKey limits x.key :=
      (ihl h).imp fun x hx => ⟨List.mem_append_left _ hx.1, hx.2⟩
    have hr (h : tid ∈ r.scan limits ∨ tid ∈ r.scanBackward limits) :
        ∃ x ∈ (node slot l e r).toList, x.tid = tid ∧ Limits.allowKey limits x.key :=
      (ihr h).imp fun x hx =>
        ⟨List.mem_append_right _ (List.mem_cons_of_mem _ hx.1), hx.2⟩
    have he (hallow : Limits.allowKey limits e.key) (h : tid ∈ [e.tid]) :
        ∃ x ∈ (node slot l e r).toList, x.tid = tid ∧ Limits.allowKey limits x.key :=
      ⟨e, by simp [toList], (List.mem_singleton.1 h).symm, hallow⟩
    simp only [scan, scanBackward, List.mem_append] at h
    rcases h with ((h | h) | h) | ((h | h) | h) <;> split at h
    any_goals exact absurd h List.not_mem_nil
    exacts [hl (.inl h), he ‹_› h, hr (.inl h), hr (.inr h), he ‹_› h, hl (.inr h)]

theorem OrderedIndex.exists_of_mem_scan {i : OrderedIndex} {range : KeyRange} {scope : Scope}
    {tids : List Nat} {tid : Nat} (h : i.scan range scope = .ok tids) (hmem : tid ∈ tids) :
    ∃ limits, Limits.ofRanges scope i.checkedTypes range.columns = .ok (some limits) ∧
      ∃ x ∈ i.tree.toList, x.tid = tid ∧ Limits.allowKey limits x.key := by
  obtain ⟨limits, hlimits, h⟩ := Result.bind_eq_ok.1 h
  cases limits with
  | none => cases h; cases hmem
  | some limits =>
    refine ⟨limits, hlimits, ?_⟩
    simp only at h
    split at h <;> cases h
    exacts [Tree.exists_of_mem_scan (.inl hmem), Tree.exists_of_mem_scan (.inr hmem)]

theorem HashedIndex.scan_eq_ok {i : HashedIndex} {probe : Expr} {scope : Scope} {tids : List Nat}
    (h : i.scan probe scope = .ok tids) : ∃ v, probe.eval scope = .ok v ∧ tids =
      if v.isNull then [] else ((i.bucket (i.hash v)).filter fun x => hits v x.2).map (·.1) := by
  obtain ⟨v, hv, h⟩ := Result.bind_eq_ok.1 h
  refine ⟨v, hv, ?_⟩
  dsimp only at h
  split at h
  · obtain ⟨-, -, h⟩ := Result.bind_eq_ok.1 h
    split at h <;> simp_all
  · split at h <;> simp_all

theorem HashedIndex.exists_of_mem_scan {i : HashedIndex} {probe : Expr} {scope : Scope}
    {tids : List Nat} {tid : Nat} (h : i.scan probe scope = .ok tids) (hmem : tid ∈ tids) :
    ∃ w, probe.eval scope = .ok w ∧ ∃ v, (tid, v) ∈ i.pairs ∧ hits w v := by
  obtain ⟨w, hw, rfl⟩ := scan_eq_ok h
  refine ⟨w, hw, ?_⟩
  split at hmem
  · cases hmem
  · obtain ⟨⟨tid, v⟩, hx, rfl⟩ := List.mem_map.1 hmem
    obtain ⟨hx, hhit⟩ := List.mem_filter.1 hx
    exact ⟨v, mem_pairs_of_mem_bucket hx, hhit⟩

theorem Index.exists_of_mem_scan {i : Index} {probe : Probe} {scope : Scope} {tids : List Nat}
    {tid : Nat} (h : i.scan probe scope = .ok tids) (hmem : tid ∈ tids) :
    ∃ x ∈ i.entries, x.tid = tid := by
  obtain ⟨c, b⟩ := i
  cases b with
  | ordered i =>
    cases probe with
    | key e => cases h
    | range range =>
      obtain ⟨-, -, x, hx, htid, -⟩ := OrderedIndex.exists_of_mem_scan h hmem
      exact ⟨x, hx, htid⟩
  | hashed i =>
    cases probe with
    | range range => cases h
    | key e =>
      obtain ⟨-, -, v, hx, -⟩ := HashedIndex.exists_of_mem_scan h hmem
      exact ⟨⟨[v], tid⟩, List.mem_map_of_mem hx, rfl⟩

theorem AccessPath.drain_rowsAt {t : Table} (index : String) {tids : List Nat}
    (h : ∀ tid ∈ tids, ∃ row, t.row tid = some row) :
    ∃ rows, (rowsAt t index tids).drain = pure rows ∧
      List.Forall₂ (fun tid row => t.row tid = some row) tids rows := by
  induction tids with
  | nil => exact ⟨[], rfl, .nil⟩
  | cons tid tids ih =>
    obtain ⟨⟨row, hrow⟩, hrest⟩ := List.forall_mem_cons.1 h
    obtain ⟨rows, hdrain, hall⟩ := ih hrest
    exact ⟨row :: rows, by simp [rowsAt, hrow, hdrain]; rfl, .cons hrow hall⟩

/-- A path through an index whose entries are those of stored rows reads these rows. -/
theorem AccessPath.drain_index {t : Table} {i : Index} {probe : Probe} {enforced : Filter}
    {order : SortOrder} {scope : Scope} {s : Unit → Scan Row}
    (h : ∀ x ∈ i.entries, ∃ row, t.row x.tid = some row)
    (hscan : scan ⟨t, .index i probe enforced order⟩ scope = .ok s) :
    ∃ tids rows, i.scan probe scope = .ok tids ∧ (s ()).drain.result = .ok rows ∧
      List.Forall₂ (fun tid row => t.row tid = some row) tids rows := by
  obtain ⟨tids, htids, hscan⟩ := Result.bind_eq_ok.1 hscan
  cases hscan
  have hstored : ∀ tid ∈ tids, ∃ row, t.row tid = some row := by
    intro tid htid
    obtain ⟨x, hx, rfl⟩ := Index.exists_of_mem_scan htids htid
    exact h x hx
  obtain ⟨rows, hdrain, hrows⟩ := drain_rowsAt i.name hstored
  exact ⟨tids, rows, htids, by rw [hdrain]; rfl, hrows⟩

namespace Table

variable {t : Table}

theorem Sound.row_of_mem_entries (h : t.Sound) {i : Index} (hi : i ∈ t.indexes) {x : Entry}
    (hx : x ∈ i.entries) : ∃ row, t.row x.tid = some row := by
  obtain ⟨row, hrow, hentry⟩ := (h.indexes i hi).exists_row hx
  exact ⟨row, h.row_eq_some_iff.2 ⟨hrow, Index.tid_of_entryOf hentry⟩⟩

theorem Sound.deletes (h : t.Sound) {tid : Nat} {row : Row} (hrow : t.row tid = some row) :
    (Table.deleteTid tid t).2.result = .ok (some row) := by
  obtain ⟨t', heq, -⟩ := h.deleteTid hrow
  rw [heq]
  rfl

theorem Sound.restores (h : t.Sound) {tid : Nat} {old : Row} {values : List Value}
    (hrow : t.row tid = some old) (hv : ∀ v ∈ values, v.isExact) {e : QueryError}
    (he : (Table.insert values (Table.deleteTid tid t).1).2.result = .error e) :
    (Table.store old (Table.insert values (Table.deleteTid tid t).1).1).2.result = .ok () := by
  obtain ⟨t₁, hdel, h₁, hf₁, hn₁, hrows₁, -⟩ := h.deleteTid hrow
  obtain ⟨t₂, r, hins, h₂, hf₂, hcase⟩ := h₁.insert hv
  rw [hdel] at he ⊢
  simp only [hins] at he ⊢
  rcases hcase with ⟨row, hr, -⟩ | ⟨-, hrows₂, hn₂⟩
  · rw [hr] at he
    cases he
  · obtain ⟨-, t₃, hstore, -⟩ := h.restore hrow h₂ (hf₂.trans hf₁) (by omega)
      (hrows₂.trans hrows₁)
    rw [hstore]
    rfl

theorem Sound.updates (h : t.Sound) {tid : Nat} {old : Row} {values : List Value}
    (hrow : t.row tid = some old) (hv : ∀ v ∈ values, v.isExact) {e : QueryError}
    (he : (Table.update tid values t).2.result = .error e) :
    t.checkedRow values = .error e ∨
      (Table.insert values (Table.deleteTid tid t).1).2.result = .error e := by
  have hdel := h.deletes hrow
  have hback := fun e' => h.restores (e := e') hrow hv
  unfold Table.update at he
  cases hcheck : t.checkedRow values with
  | error cause =>
    rw [hcheck] at he
    exact .inl he
  | ok row =>
    refine .inr ?_
    simp only [hcheck, hrow] at he
    match hdelete : Table.deleteTid tid t with
    | (t₁, ⟨notes, r⟩) =>
      rw [hdelete] at hdel hback he
      obtain rfl : r = .ok (some old) := hdel
      simp only at hback he ⊢
      match hinsert : Table.insert values t₁ with
      | (t₂, ⟨notes', .ok row⟩) => simp [hinsert] at he
      | (t₂, ⟨notes', .error cause⟩) =>
        -- the old row is stored again, so what is reported is why the new one was refused
        have hstored : (Table.store old t₂).2.result = .ok () := by
          simpa [hinsert] using hback cause
        simpa [hinsert, hstored, Except.bind] using he

/-- In every state of every run, the indexes have exactly the entries of the stored rows, tids are
never given out twice, and neither removing a row nor restoring it nor an index scan fails. -/
theorem run_consistent (name : String) (columns : List (String × DataType)) (ops : List Op)
    (h : ∀ op ∈ ops, op.IsExact) :
    (run ops (make name columns)).1.Consistent (run ops (make name columns)).2 := by
  obtain ⟨hs, -, hp, hb, horigin⟩ := (sound_make name columns).run h
  refine
    { entries := fun i hi => ?_
      distinct := hs.nodup_tids
      stored := fun row hr => (horigin row hr).resolve_left (by simp [make])
      below := fun tid htid => (hb tid htid).2
      once := hp.imp fun hlt => Nat.ne_of_lt hlt
      deletes := fun _ _ => hs.deletes
      removes := fun tid row row' hrow htid => ?_
      restores := fun _ _ _ hrow hv _ => hs.restores hrow hv
      updates := fun _ _ _ _ hrow hv he => hs.updates hrow hv he
      complete := fun i hi probe enforced order scope s hscan => ?_ }
  · obtain ⟨es, hes, hperm⟩ := (hs.indexes i hi).agrees
    exact ⟨es, hes, hperm, by rw [← hperm.length_eq]; exact (hs.indexes i hi).sound.size⟩
  · simp only [Table.delete, Row.requireTid_eq_ok.2 htid]
    exact hs.deletes hrow
  · obtain ⟨-, rows, -, hdrain, -⟩ :=
      AccessPath.drain_index (fun _ hx => hs.row_of_mem_entries hi hx) hscan
    exact ⟨rows, hdrain⟩

/-- The table has come about by operations that brought no binary64 datum. -/
def Reachable (t : Table) : Prop :=
  ∃ name columns ops, (∀ op ∈ ops, op.IsExact) ∧ (run ops (make name columns)).1 = t

theorem Reachable.sound (h : t.Reachable) : t.Sound := by
  obtain ⟨name, columns, ops, hops, rfl⟩ := h
  exact ((sound_make name columns).run hops).1

/-- A unique index refuses the second row, and then the update that would make its key. -/
def refusedOps : List Op :=
  [.addIndex (.ordered "u" [.ref ⟨none, "a"⟩] true), .insert [.int 1], .insert [.int 1],
    .insert [.int 2], .update 2 [.int 1], .deleteTid 0, .update 2 [.int 1]]

theorem run_consistent_refused :
    (∀ op ∈ refusedOps, op.IsExact) ∧
      (run refusedOps (make "t" [("a", .int)])).2 = [0, 2, 4] ∧
      (run refusedOps (make "t" [("a", .int)])).1.Consistent
        (run refusedOps (make "t" [("a", .int)])).2 := by
  have hexact : ∀ op ∈ refusedOps, op.IsExact := by
    simp [refusedOps, Op.IsExact, Index.IsExact, Index.exprs, Index.ordered, Expr.isExact,
      Index.HoldsNothing]
  exact ⟨hexact, by decide, run_consistent "t" [("a", .int)] refusedOps hexact⟩

end Table

end RelPlan

import RelPlan.Proofs.AccessRows
import RelPlan.Proofs.Residuals
import RelPlan.Proofs.ScanAll
import RelPlan.Proofs.StableSorts

/-!
# The scan of a settled plan

How the scan of a settled node is made of the scans of its inputs, one equation for each kind of
node and each way to join.  Its rows have the columns of the plan (`Settles.all_columns`).
-/

namespace RelPlan

variable {columns : List Column} {scope : Scope} {P : Row → Prop}

namespace Opened

variable {o : Opened}

theorem all_filter (h : (o.scan ()).All P) (f : Filter) : ((o.filter scope f).scan ()).All P := by
  cases f with
  | none => exact h
  | some e => exact h.filter _

theorem all_reshape : ((o.reshape columns).scan ()).All (·.columns = columns) :=
  Scan.all_map (fun _ _ h => (Row.make_eq_ok h).1) _

end Opened

theorem AccessPath.all_scan {p : AccessPath} {s : Unit → Scan Row} (h : p.scan scope = .ok s) :
    (s ()).All (· ∈ p.table.rows) := by
  unfold scan at h
  split at h
  · cases h
    exact Scan.all_ofList fun _ hrow => hrow
  · next i _ _ _ _ =>
    obtain ⟨tids, -, h⟩ := Result.bind_eq_ok.1 h
    cases h
    show (rowsAt p.table i.name tids).All (· ∈ p.table.rows)
    clear * -
    induction tids with
    | nil => trivial
    | cons tid tids ih =>
      rw [rowsAt]
      split
      · next row hrow => exact ⟨List.mem_of_find?_eq_some hrow, ih⟩
      · trivial

theorem AccessPath.Selected.table {t : Table} {f : Filter} {requested : Option SortOrder}
    {p : AccessPath} (h : Selected t f requested p) : p.table = t := by
  cases h <;> rfl

theorem SortOrder.all_gather {o : SortOrder} {s : Unit → Scan Row} {rows : List SortedRow}
    (hs : (s ()).All P) (h : (o.gather scope s).result = .ok rows) : ∀ x ∈ rows, P x.row := by
  refine Scan.All.drain (hs.map fun row x hrow hx => ?_) h
  obtain ⟨key, -, hx⟩ := Result.bind_eq_ok.1 hx
  cases hx
  exact hrow

namespace Plan

variable {left right input p q : Plan} {f : Filter} {o : Option SortOrder} {opened : Opened}

theorem scan_source (s : Source) (scope : Scope) :
    (source .settled s).scan scope = .ofResult (s.scan scope) := by
  rw [scan]
  rfl

theorem scan_stage (s : Stage) (input : Plan) (scope : Scope) :
    (stage .settled s input).scan scope =
      input.scan scope >>= scanStage .settled s input scope := by
  rw [scan]
  rfl

theorem scan_nestedLoop {j : Join} (hj : j.strategy = some .nestedLoop) (left right : Plan)
    (scope : Scope) : (pair .settled (.join j) left right).scan scope =
      left.scan scope >>= fun l =>
      pure (.once fun _ => nestedLoop (left.columns ++ right.columns)
        (fun row => right.scan (scope.push row) >>= fun r =>
          pure (r.filter (scope.push row) right.residual).scan)
        (l.filter scope left.residual).scan) := by
  rw [scan, hj]
  rfl

theorem scan_hash {j : Join} {pairs : List KeyPair} (hj : j.strategy = some (.hash pairs))
    (left right : Plan) (scope : Scope) : (pair .settled (.join j) left right).scan scope =
      left.scan scope >>= fun l => right.scan scope >>= fun r =>
      pure (.once fun _ => hashJoin scope (left.columns ++ right.columns) pairs
        (l.filter scope left.residual).scan (r.filter scope right.residual).scan) := by
  rw [scan, hj]
  rfl

theorem scan_merge {j : Join} {pairs : List KeyPair} (hj : j.strategy = some (.merge pairs))
    (left right : Plan) (scope : Scope) : (pair .settled (.join j) left right).scan scope =
      left.scan scope >>= fun l => right.scan scope >>= fun r =>
      pure (.once fun _ => mergeJoin scope (left.columns ++ right.columns) pairs
        (l.filter scope left.residual).scan (r.filter scope right.residual)) := by
  rw [scan, hj]
  rfl

theorem scan_union (u : Union) (left right : Plan) (scope : Scope) :
    (pair .settled (.union u) left right).scan scope =
      left.scan scope >>= fun l => right.scan scope >>= fun r =>
      pure (.once fun _ =>
        let rows := (((l.reshape left.columns).filter scope u.leftLocal).scan ()).append
          ((r.reshape left.columns).filter scope u.rightLocal).scan
        if u.distinct then rows.distinct Row.values {} else rows) := by
  rw [scan]
  cases u.distinct <;> simp <;> rfl

theorem scan_stage_eq_ok {s : Stage}
    (h : ((stage .settled s input).scan scope).result = .ok opened) :
    ∃ o, (input.scan scope).result = .ok o ∧
      (scanStage .settled s input scope o).result = .ok opened := by
  rw [scan_stage] at h
  exact Logged.result_bind_eq_ok.1 h

theorem scanSorted_eq_ok {order : SortOrder} {buffered : Bool} {o : Opened}
    (h : (scanSorted .settled order buffered input scope o).result = .ok opened) :
    (needsSort .settled order input = false ∧ opened = o) ∨
      ∃ rows, (order.gather scope o.scan).result = .ok rows ∧
        opened = .ofRows ((if needsSort .settled order input then stableSort order.less rows
          else rows).map SortedRow.row) := by
  unfold scanSorted at h
  dsimp only at h
  split at h
  · next hkeep =>
    cases h
    simp only [Bool.and_eq_true, Bool.not_eq_true'] at hkeep
    exact .inl ⟨hkeep.1, rfl⟩
  · obtain ⟨rows, hrows, h⟩ := Logged.result_bind_eq_ok.1 h
    cases h
    exact .inr ⟨rows, hrows, rfl⟩

/-! ### Columns of rows -/

/-- The rows that are scanned have the columns of the plan. -/
def Columnar (q : Plan) : Prop :=
  ∀ scope opened, (q.scan scope).result = .ok opened → (opened.scan ()).All (·.columns = q.columns)

theorem columnar_table {r : TableRead} {path : AccessPath}
    (hcol : ∀ row ∈ r.table.rows, row.columns = r.table.columns) (hpath : r.path = some path)
    (htable : path.table = r.table) : (source .settled (.table r)).Columnar := by
  intro scope opened hopen
  rw [scan_source, Source.scan, hpath] at hopen
  obtain ⟨s, hs, rfl⟩ := Result.map_eq_ok.1 hopen
  refine (AccessPath.all_scan hs).imp fun row hrow => hcol row ?_
  rwa [htable] at hrow

theorem columnar_rows {r : InlineRows} (hcol : ∀ row ∈ r.rows, row.columns = r.columns) :
    (source .settled (.rows r)).Columnar := by
  intro scope opened hopen
  rw [scan_source, Source.scan] at hopen
  have hall (rows : List Row) (hsub : rows ⊆ r.rows) :
      ((Opened.ofRows rows).scan ()).All (·.columns = r.columns) :=
    Scan.all_ofList fun row hrow => hcol row (hsub hrow)
  split at hopen
  · cases hopen
    exact hall _ fun _ h => h
  · obtain ⟨rows, hrows, rfl⟩ := Result.map_eq_ok.1 hopen
    obtain ⟨-, rfl⟩ := Result.filterM_eq_ok hrows
    exact hall _ (List.filter_subset_self _)

theorem Columnar.stage (h : input.Columnar) (s : Stage) : (stage .settled s input).Columnar := by
  intro scope opened hopen
  obtain ⟨o, ho, hstage⟩ := scan_stage_eq_ok hopen
  have hall := h scope o ho
  cases s with
  | filter =>
    cases hstage
    exact Opened.all_filter hall _
  | sort =>
    rcases scanSorted_eq_ok hstage with ⟨-, rfl⟩ | ⟨rows, hrows, rfl⟩
    · exact hall
    · refine Scan.all_ofList (List.forall_mem_map.2 fun x hx => ?_)
      refine SortOrder.all_gather hall hrows x ?_
      split at hx
      · exact (perm_stableSort _ rows).mem_iff.1 hx
      · exact hx
  | project =>
    cases hstage
    refine Scan.all_map (fun _ _ hrow => ?_) _
    obtain ⟨vs, -, hmake⟩ := Result.bind_eq_ok.1 hrow
    exact (Row.make_eq_ok hmake).1
  | cut c =>
    cases hstage
    have hall := @Opened.all_filter scope _ _ hall (checked .settled input)
    cases c with
    | limit n =>
      show (if n = 0 then Scan.done else _ : Scan Row).All _
      split
      · trivial
      · exact hall.take n
    | offset n => exact hall.drop n
  | rename =>
    cases hstage
    exact Opened.all_reshape

theorem columnar_pair (p : Pairing) (left right : Plan) :
    (pair .settled p left right).Columnar := by
  intro scope opened hopen
  cases p with
  | join j =>
    cases hs : j.strategy with
    | none =>
      rw [scan] at hopen
      obtain ⟨-, -, hopen⟩ := Logged.result_bind_eq_ok.1 hopen
      obtain ⟨l, -, hopen⟩ := Logged.result_bind_eq_ok.1 hopen
      rw [hs] at hopen
      cases hopen
    | some strategy =>
      cases strategy with
      | nestedLoop =>
        rw [scan_nestedLoop hs] at hopen
        obtain ⟨l, -, hopen⟩ := Logged.result_bind_eq_ok.1 hopen
        cases hopen
        exact all_nestedLoop _ _
      | hash pairs =>
        rw [scan_hash hs] at hopen
        obtain ⟨l, -, hopen⟩ := Logged.result_bind_eq_ok.1 hopen
        obtain ⟨r, -, hopen⟩ := Logged.result_bind_eq_ok.1 hopen
        cases hopen
        exact all_hashJoin _ _ _
      | merge pairs =>
        rw [scan_merge hs] at hopen
        obtain ⟨l, -, hopen⟩ := Logged.result_bind_eq_ok.1 hopen
        obtain ⟨r, -, hopen⟩ := Logged.result_bind_eq_ok.1 hopen
        cases hopen
        exact all_mergeJoin _ _ _
  | union u =>
    rw [scan_union] at hopen
    obtain ⟨l, -, hopen⟩ := Logged.result_bind_eq_ok.1 hopen
    obtain ⟨r, -, hopen⟩ := Logged.result_bind_eq_ok.1 hopen
    cases hopen
    have hall := (@Opened.all_filter scope _ (l.reshape left.columns) Opened.all_reshape
      u.leftLocal).append (@Opened.all_filter scope _ (r.reshape left.columns) Opened.all_reshape
      u.rightLocal)
    cases u.distinct
    · exact hall
    · exact hall.distinct _ _

theorem Settles.columnar (h : Settles p f o q) : q.Columnar := by
  induction h with
  | table hcol _ _ hpath =>
    exact columnar_table hcol rfl (AccessPath.selected_of_select hpath).table
  | rows hcol => exact columnar_rows hcol
  | filter _ _ ih | sort _ _ ih | cut _ _ ih | project _ _ _ _ ih | rename _ _ _ _ _ _ _ ih =>
    exact ih.stage _
  | join | union => exact columnar_pair _ _ _

/-- The rows of a settled plan have its columns. -/
theorem Settles.all_columns (h : Settles p f o q) (hopen : (q.scan scope).result = .ok opened) :
    (opened.scan ()).All (·.columns = p.columns) := h.columns ▸ h.columnar scope opened hopen

end Plan

end RelPlan

import RelPlan.Proofs.Delivery

/-!
# What settled sources deliver

A table leaves over the conjuncts that its access path does not enforce, and what these and the path
decide together is what the filter handed to it decides.  Inline rows are filtered where they are.
-/

namespace RelPlan

variable {f f' : Filter} {o o' : Option SortOrder} {columns : List Column} {rows : List Row}
  {exact : Prop}

theorem Row.env_record {row : Row} (hcol : row.columns = columns) (scope : Scope) :
    row.record.env columns scope.env = row.env scope := by
  rw [row.env_eq, hcol]
  rfl

namespace Plan

theorem filter_map_record (P : List (Option Value) → Bool) (rows : List Row) :
    ((rows.map Row.record).filter fun x => P x.cells) =
      (rows.filter fun row => P row.record.cells).map Row.record := by
  rw [List.filter_map]
  rfl

/-- A table delivers if the path by which it is read serves the filter. -/
theorem delivers_table {t : Table} {weights : AccessWeights} {path : AccessPath}
    (hcols : ∀ row ∈ t.rows, row.columns = t.columns) (hx : exact → ∀ row ∈ t.rows, row.IsExact)
    (hq : f.qualify t.columns = .ok f') (hqo : o.mapM (SortOrder.qualify t.columns) = .ok o')
    (hserves : ∀ {scope : Scope} {s : Unit → Scan Row}, (exact → scope.IsExact) →
      path.scan scope = .ok s → path.Serves t f'.taken.fold scope s) :
    (read t weights).Delivers exact f o (source .settled (.table
      ⟨t, weights, f'.taken.fold, SortOrder.taken (o'.map SortOrder.fold), some path⟩)) := by
  have hclear : f'.taken.fold.Clear t.columns :=
    (Filter.clear_rename (Filter.faithful_of_qualify hq) hq).taken.fold
  have hfits (hexact : exact) (row : Row) (hrow : row ∈ t.rows) : row.record.Fits t.columns :=
    hcols row hrow ▸ Row.fits_record (hx hexact row hrow)
  refine ⟨fun hexact => List.forall_mem_map.2 (hfits hexact),
    fun {scope opened} hscope hopen Φ hΦ => ?_⟩
  rw [scan_source] at hopen
  obtain ⟨s, hs, rfl⟩ := Result.map_eq_ok.1 hopen
  obtain ⟨hpart, rows, hdrain, hperm, hsorted⟩ := hserves hscope hs
  have hstored (row : Row) (hrow : row ∈ rows) : row ∈ t.rows :=
    List.mem_of_mem_filter (hperm.subset hrow)
  have hiff (row : Row) (hrow : row ∈ t.rows) : Φ row.record.cells ↔
      path.enforced.Passes (row.env scope) ∧
        (f'.taken.fold.diff path.enforced).Passes (row.env scope) := by
    have hadm := (hΦ row.record (List.mem_map_of_mem hrow)).rename
      (Filter.faithful_of_qualify hq) hq
    rw [← Filter.passes_iff_diff (hpart _), ← Row.env_record (hcols row hrow)]
    exact hadm.push.fold.iff hclear
  let Ψ (cells : List (Option Value)) : Bool :=
    Filter.Passes (cellsEnv t.columns scope.env cells) (f'.taken.fold.diff path.enforced)
  have hsort : path.ordering.Sorted ((rows.map Row.record).map
      (Record.env t.columns scope.env)) := by
    rw [List.map_map]
    refine hsorted.of_map fun a ha b hb hle => ?_
    rw [Function.comp_apply, Function.comp_apply, Row.env_record (hcols a (hstored a ha)),
      Row.env_record (hcols b (hstored b hb))]
    exact hle
  refine ⟨Ψ, rows.map Row.record, ⟨List.map_subset _ hstored, ?_, ?_, ?_⟩,
    fun _ => .of_isEmpty rfl _, fun _ hunmet => ?_⟩
  · refine (Scan.shows_of_drain hdrain).mem.imp fun a row ⟨hrow, hmem⟩ => ?_
    subst hrow
    exact ⟨hcols a (hstored a hmem), rfl⟩
  · exact fun x _ => (Filter.Admits.passes t.columns ..).congr decide_eq_true_iff.symm
  · rw [filter_map_record, show (read t weights).records = t.rows.map Row.record from rfl,
      filter_map_record]
    refine List.Perm.map _ ((hperm.filter _).trans (.of_eq ?_))
    rw [List.filter_filter]
    refine List.filter_congr fun row hrow => ?_
    rw [Bool.eq_iff_iff, hiff row hrow, ← Row.env_record (hcols row hrow), Bool.and_eq_true,
      decide_eq_true_iff, decide_eq_true_iff, and_comm]
    rfl
  · rintro o₁ rfl
    rw [Option.mapM_some] at hqo
    obtain ⟨o₂, ho₂, rfl⟩ := Result.map_eq_ok.1 hqo
    have hsorted' := sorted_of_taken (o := some o₂.fold) (sorted_of_unmet_eq_none hunmet hsort)
    exact SortOrder.sorted_of_qualify ho₂ (hsorted' o₂.fold rfl).of_fold

theorem delivers_rows (hcol : ∀ row ∈ rows, row.columns = columns)
    (hq : f.taken.fold.qualify columns = .ok f') (hx : exact → ∀ row ∈ rows, row.IsExact) :
    (source .building (.rows { columns, rows })).Delivers exact f o
      (source .settled (.rows ⟨columns, rows, f', SortOrder.taken o⟩)) := by
  have hfits (hexact : exact) (row : Row) (hrow : row ∈ rows) : row.record.Fits columns :=
    hcol row hrow ▸ Row.fits_record (hx hexact row hrow)
  refine ⟨fun hexact => List.forall_mem_map.2 (hfits hexact), fun {scope opened} _ hopen Φ hΦ => ?_⟩
  rw [scan_source] at hopen
  have hadm (row : Row) (hrow : row ∈ rows) :
      Filter.Admits columns scope.env row.record.cells f' (Φ row.record.cells) :=
    (hΦ row.record (List.mem_map_of_mem hrow)).push.fold.rename (Filter.faithful_of_qualify hq) hq
  obtain ⟨rows', hopened, hrows'⟩ : ∃ rows', opened = .ofRows rows' ∧
      rows' = rows.filter fun row => Φ row.record.cells := by
    cases f' with
    | none =>
      cases hopen
      refine ⟨rows, rfl, (List.filter_eq_self.2 fun row hrow => ?_).symm⟩
      exact (hadm row hrow).sound Filter.passes_none
    | some e =>
      obtain ⟨rows', hrows, rfl⟩ := Result.map_eq_ok.1 hopen
      obtain ⟨hall, rfl⟩ := Result.filterM_eq_ok hrows
      refine ⟨_, rfl, List.filter_congr fun row hrow => ?_⟩
      obtain ⟨b, hb⟩ := hall row hrow
      have hadm := hadm row hrow
      rw [← hcol row hrow] at hadm
      rw [hb, Bool.eq_iff_iff, hadm.decides hb]
      simp [Except.toOption]
  subst hopened hrows'
  refine ⟨fun _ => true, (rows.filter fun row => Φ row.record.cells).map Row.record,
    ⟨List.map_subset _ (List.filter_subset_self _), ?_, fun x _ => .none rfl, ?_⟩,
    fun _ => .of_isEmpty rfl _, fun _ hunmet => sorted_of_taken_eq_none hunmet _⟩
  · refine Scan.shows_ofList (List.forall₂_map_right_iff.2 (List.forall₂_same.2 fun row hrow => ?_))
    exact ⟨hcol row (List.mem_of_mem_filter hrow), rfl⟩
  · rw [List.filter_true, ← filter_map_record]
    exact .refl _

end Plan

end RelPlan

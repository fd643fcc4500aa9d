import RelPlan.Proofs.Records
import RelPlan.Proofs.SettledScans
import RelPlan.Proofs.StableSorts

/-!
# Scans that are sorted

A sort reads all rows with their sort values, and shows the records that they stand for, in its
order if their values are exact (`Plan.shows_scanSorted`).
-/

namespace RelPlan

variable {columns : List Column} {scope : Scope} {order : SortOrder} {T : List Record}
  {exact : Prop}

/-- The row stands for the record, and has its sort values. -/
def SortedRow.Stands (columns : List Column) (outer : Env) (order : SortOrder) (a : SortedRow)
    (x : Record) : Prop :=
  a.row.Stands columns x ∧ order.Worths (x.env columns outer) a.key

namespace SortOrder

theorem worths_of_keyOf {row : Row} {key : List Value} (h : order.keyOf scope row = .ok key) :
    order.Worths (row.env scope) key :=
  List.forall₂_map_left_iff.1
    ((Result.mapM_eq_ok.1 h).imp fun _ _ hv => Expr.worth_of_evalRow hv)

theorem stands_of_gather {s : Unit → Scan Row} {rows : List SortedRow}
    (hs : (s ()).Shows (Row.Stands columns) T) (h : (order.gather scope s).result = .ok rows) :
    List.Forall₂ (SortedRow.Stands columns scope.env order) rows T := by
  have hmap : Scan.Shows (SortedRow.Stands columns scope.env order)
      ((s ()).map fun row => return ⟨← order.keyOf scope row, row⟩) (T.map id) :=
    hs.map fun row x hrow a ha => ?_
  · rw [List.map_id] at hmap
    exact hmap.drain h
  · obtain ⟨key, hkey, ha⟩ := Result.bind_eq_ok.1 ha
    cases ha
    exact ⟨hrow, hrow.env ▸ worths_of_keyOf hkey⟩

theorem less_eq_false {a b : SortedRow} :
    order.less b a = false ↔ (order.compare a.key b.key).isLE := by
  rw [less, SortOrder.compare, SortOrder.compare, ← compareBy_swap]
  cases compareBy order.keys a.key b.key <;> simp

/-- Exact sort values of one order are linearly ordered. -/
theorem linear_less {rows : List SortedRow} (h : ∀ a ∈ rows, IsKey order.keys.length a.key) :
    Linear order.less rows := by
  refine ⟨fun a ha b hb c hc hab hbc => ?_, fun a _ b _ => ?_⟩
  · rw [less_eq_false] at hab hbc ⊢
    exact compareBy_isLE_trans (h a ha) (h b hb) (h c hc) hab hbc
  · rw [less_eq_false, less_eq_false, SortOrder.compare, SortOrder.compare,
      ← compareBy_swap order.keys a.key]
    cases compareBy order.keys a.key b.key <;> simp

end SortOrder

/-- Sorted rows stand for the same records in another order, and exact ones are sorted. -/
theorem exists_sorted {outer : Env} {rows : List SortedRow}
    (hx : exact → outer.IsExact ∧ order.IsExact ∧ ∀ x ∈ T, x.Fits columns)
    (h : List.Forall₂ (SortedRow.Stands columns outer order) rows T) :
    ∃ U, U.Perm T ∧
      List.Forall₂ (SortedRow.Stands columns outer order) (stableSort order.less rows) U ∧
      (exact → order.Sorted (U.map (Record.env columns outer))) := by
  obtain ⟨U, hU, hperm⟩ := List.perm_comp_forall₂ (perm_stableSort order.less rows) h
  refine ⟨U, hperm, hU, fun hexact => ?_⟩
  obtain ⟨ho, hx, hT⟩ := hx hexact
  have hkeys : ∀ a ∈ rows, IsKey order.keys.length a.key := by
    intro a ha
    obtain ⟨x, hx', -, hworths⟩ := exists_of_forall₂ h.flip ha
    exact hworths.isKey hx ((hT x hx').env ho)
  refine ⟨List.forall_mem_map.2 fun x hx => ?_, List.pairwise_map.2 ?_⟩
  · obtain ⟨a, -, -, hworths⟩ := exists_of_forall₂ hU hx
    exact hworths.le_self
  · refine pairwise_of_forall₂ hU ?_ (pairwise_stableSort (SortOrder.linear_less hkeys))
    rintro a b x y ⟨-, hx⟩ ⟨-, hy⟩ hless
    exact ⟨a.key, b.key, hx, hy, SortOrder.less_eq_false.1 hless⟩

/-- What a sort shows.  Exact records are in its order if those that it need not sort are. -/
theorem Plan.shows_scanSorted {buffered : Bool} {input : Plan} {o opened : Opened}
    (hx : exact → scope.IsExact ∧ order.IsExact ∧ ∀ x ∈ T, x.Fits columns)
    (hs : (o.scan ()).Shows (Row.Stands columns) T)
    (hsorted : exact → needsSort .settled order input = false →
      order.Sorted (T.map (Record.env columns scope.env)))
    (h : (scanSorted .settled order buffered input scope o).result = .ok opened) :
    ∃ U, U.Perm T ∧ (opened.scan ()).Shows (Row.Stands columns) U ∧
      (exact → order.Sorted (U.map (Record.env columns scope.env))) := by
  rcases scanSorted_eq_ok h with ⟨hno, rfl⟩ | ⟨rows, hrows, rfl⟩
  · exact ⟨T, .refl T, hs, fun hexact => hsorted hexact hno⟩
  · have hall := SortOrder.stands_of_gather hs hrows
    have hshows {rows : List SortedRow} {U : List Record}
        (h : List.Forall₂ (SortedRow.Stands columns scope.env order) rows U) :
        ((Opened.ofRows (rows.map SortedRow.row)).scan ()).Shows (Row.Stands columns) U :=
      Scan.shows_ofList (List.forall₂_map_left_iff.2 (h.imp fun _ _ hax => hax.1))
    cases hno : needsSort .settled order input with
    | false =>
      exact ⟨T, .refl T, by simpa [hno] using hshows hall, fun hexact => hsorted hexact hno⟩
    | true =>
      obtain ⟨U, hperm, hU, hsort⟩ :=
        exists_sorted (fun hexact => (hx hexact).imp_left Scope.IsExact.env) hall
      exact ⟨U, hperm, by simpa [hno] using hshows hU, hsort⟩

end RelPlan

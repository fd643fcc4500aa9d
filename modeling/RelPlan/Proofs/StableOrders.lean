import RelPlan.Proofs.HandedOrders
import RelPlan.Proofs.SortedScans

/-!
# Stable sorts

Sorting keeps the members between which `less` does not decide in their order
(`filter_stableSort`).  Rows that are sorted by the bound form of an order are in that order, and
rows with the same sort values are in the order in which they were
(`SortOrder.stablySorts_stableSort`).
-/

namespace RelPlan

section

variable {α : Type} {less : α → α → Bool} {P : α → Bool} {x : α} {xs sorted : List α}

theorem filter_insertDown (hP : ∀ y ∈ sorted, P x → P y → less x y = false) :
    (insertDown less x sorted).filter P = (x :: sorted).filter P := by
  induction sorted with
  | nil => rfl
  | cons y ys ih =>
    rw [insertDown]
    split
    · next hlt =>
      have hnot : P x = true → P y = false := by
        intro hx
        by_contra hy
        rw [hP y (by simp) hx (by simpa using hy)] at hlt
        cases hlt
      rw [List.filter_cons, ih fun z hz => hP z (by simp [hz]), List.filter_cons, List.filter_cons,
        List.filter_cons]
      by_cases hx : P x = true
      · simp [hx, hnot hx]
      · simp [hx]
    · rfl

theorem filter_foldl_insertDown
    (hP : ∀ a ∈ xs ++ sorted, ∀ b ∈ xs ++ sorted, P a → P b → less a b = false) :
    (xs.foldl (fun sorted x => insertDown less x sorted) sorted).filter P =
      (xs.reverse ++ sorted).filter P := by
  induction xs generalizing sorted with
  | nil => rfl
  | cons x xs ih =>
    have hmem (a : α) (ha : a ∈ xs ++ insertDown less x sorted) : a ∈ x :: xs ++ sorted := by
      rw [List.mem_append, (perm_insertDown less x sorted).mem_iff] at ha
      simp only [List.mem_cons, List.mem_append, List.cons_append] at ha ⊢
      tauto
    rw [List.foldl_cons, ih fun a ha b hb => hP a (hmem a ha) b (hmem b hb), List.filter_append,
      filter_insertDown fun y hy => hP x (by simp) y (by simp [hy])]
    simp [List.filter_append]

/-- What passes is sorted already, so merging keeps it as a sublist. -/
theorem filter_mergeSort {le : α → α → Bool} (htrans : ∀ a b c, le a b → le b c → le a c)
    (htotal : ∀ a b, le a b || le b a) (hP : ∀ a ∈ xs, ∀ b ∈ xs, P a → P b → le a b) :
    (xs.mergeSort le).filter P = xs.filter P := by
  have hpair : (xs.filter P).Pairwise fun a b => le a b := by
    refine List.pairwise_of_forall_mem_list fun a ha b hb => ?_
    obtain ⟨ha, hPa⟩ := List.mem_filter.1 ha
    obtain ⟨hb, hPb⟩ := List.mem_filter.1 hb
    exact hP a ha b hb hPa hPb
  have hsub := (List.sublist_mergeSort htrans htotal hpair List.filter_sublist).filter P
  simp only [List.filter_filter, Bool.and_self] at hsub
  exact (hsub.eq_of_length ((List.mergeSort_perm xs le).filter P).length_eq.symm).symm

/-- Members that are not told apart stay in their order. -/
theorem filter_stableSort (h : Linear less xs)
    (hP : ∀ a ∈ xs, ∀ b ∈ xs, P a → P b → less a b = false) :
    (stableSort less xs).filter P = xs.filter P := by
  unfold stableSort
  split
  · rw [insertionSort, List.filter_reverse, filter_foldl_insertDown (by simpa using hP)]
    simp [List.filter_reverse]
  · have hmap : xs.mergeSort (fun a b => !less b a) =
        (xs.attach.mergeSort fun a b => !less b.1 a.1).map Subtype.val := by
      rw [List.map_mergeSort (s := fun a b => !less b a) fun a _ b _ => rfl,
        List.attach_map_subtype_val]
    rw [hmap, List.filter_map, filter_mergeSort, ← List.filter_map, List.attach_map_subtype_val]
    · intro a b c hab hbc
      have := h.trans a a.2 b b.2 c c.2
      simp_all
    · intro a b
      have := h.total a a.2 b b.2
      simpa using this
    · intro a _ b _ ha hb
      simp [hP b b.2 a a.2 hb ha]

end

/-! ### Rows in a stable order -/

namespace SortOrder

variable {columns : List Column} {scope : Scope} {o p : SortOrder} {k : SortKey} {a b : Row}
  {rows : List Row} {keyed : List SortedRow}

/-- Whether the row has the given sort values. -/
def hasKey (o : SortOrder) (scope : Scope) (vs : List Value) (row : Row) : Bool :=
  o.keys.map (·.expr.worth (row.env scope)) = vs.map some

/-- `out` is `rows` in the given order, with rows of the same sort values as they were. -/
structure StablySorts (o : SortOrder) (scope : Scope) (rows out : List Row) : Prop where
  perm : out.Perm rows
  sorted : o.Sorted (out.map (Row.env scope))
  stable : ∀ vs, out.filter (o.hasKey scope vs) = rows.filter (o.hasKey scope vs)

theorem worths_iff_map {env : Env} {vs : List Value} :
    o.Worths env vs ↔ o.keys.map (·.expr.worth env) = vs.map some := map_eq_iff_forall₂.symm

theorem map_env (h : ∀ row ∈ rows, row.columns = columns) :
    rows.map (Row.env scope) = (rows.map Row.record).map (Record.env columns scope.env) := by
  rw [List.map_map]
  exact List.map_congr_left fun row hrow => Row.Stands.env ⟨h row hrow, rfl⟩

theorem exists_key_of_bindTo (h : o.bindTo columns = .ok p) (hk : k ∈ p.keys) :
    ∃ k₀ ∈ o.keys, ∀ row : Row, row.columns = columns →
      k.expr.worth (row.env scope) = k₀.expr.worth (row.env scope) := by
  obtain ⟨_, -, h⟩ := Result.bind_eq_ok.1 h
  obtain ⟨q, hq, h⟩ := Result.bind_eq_ok.1 h
  cases h
  obtain ⟨k₁, hk₁, he⟩ := keys_fold_subset k hk
  obtain ⟨k₀, hk₀, -, hqual⟩ := exists_of_forall₂ (mapM_eq_ok hq) hk₁
  refine ⟨k₀, hk₀, fun row hrow => ?_⟩
  rw [he, Expr.worth_fold, row.env_eq, hrow]
  exact Expr.worth_qualify hqual

theorem map_worth_bindTo (h : o.bindTo columns = .ok p) (ha : a.columns = columns)
    (hb : b.columns = columns) {vs : List Value} (hka : o.hasKey scope vs a)
    (hkb : o.hasKey scope vs b) :
    p.keys.map (·.expr.worth (a.env scope)) = p.keys.map (·.expr.worth (b.env scope)) := by
  have hsame := (of_decide_eq_true hka).trans (of_decide_eq_true hkb).symm
  refine List.map_congr_left fun k hk => ?_
  obtain ⟨k₀, hk₀, hworth⟩ := exists_key_of_bindTo h hk
  rw [hworth a ha, hworth b hb]
  exact List.map_inj_left.1 hsame k₀ hk₀

/-- Sorting by the bound order sorts by the order. -/
theorem stablySorts_stableSort (hbind : o.bindTo columns = .ok p) (ho : o.IsExact)
    (hs : scope.IsExact) (hcol : ∀ x ∈ keyed, x.row.columns = columns)
    (hexact : ∀ x ∈ keyed, x.row.IsExact)
    (hkey : ∀ x ∈ keyed, p.keyOf scope x.row = .ok x.key) :
    o.StablySorts scope (keyed.map SortedRow.row)
      ((stableSort p.less keyed).map SortedRow.row) := by
  have hlinear : Linear p.less keyed := by
    refine linear_less fun x hx => ?_
    have hkeys := Expr.isKey_evalAll (List.forall_mem_map.2 ((bindTo_spec hbind).2 ho)) hs
      (hexact x hx) (hkey x hx)
    rwa [List.length_map] at hkeys
  have hperm := perm_stableSort p.less keyed
  refine ⟨hperm.map _, ?_, ?_⟩
  · have hworths (x : SortedRow) (hx : x ∈ stableSort p.less keyed) :
        p.Worths (x.row.env scope) x.key := worths_of_keyOf (hkey x (hperm.mem_iff.1 hx))
    have hsorted :
        p.Sorted (((stableSort p.less keyed).map SortedRow.row).map (Row.env scope)) := by
      rw [List.map_map]
      refine ⟨List.forall_mem_map.2 fun x hx => (hworths x hx).le_self, List.pairwise_map.2 ?_⟩
      refine (pairwise_stableSort hlinear).imp_of_mem fun hx hy hless => ?_
      exact ⟨_, _, hworths _ hx, hworths _ hy, less_eq_false.1 hless⟩
    have hcol' : ∀ row ∈ (stableSort p.less keyed).map SortedRow.row, row.columns = columns :=
      List.forall_mem_map.2 fun x hx => hcol x (hperm.mem_iff.1 hx)
    rw [map_env hcol'] at hsorted ⊢
    exact sorted_of_bindTo hbind hsorted
  · intro vs
    rw [List.filter_map, List.filter_map, filter_stableSort hlinear]
    intro x hx y hy hkx hky
    have hsame := map_worth_bindTo hbind (hcol x hx) (hcol y hy) hkx hky
    rw [worths_iff_map.1 (worths_of_keyOf (hkey x hx)),
      worths_iff_map.1 (worths_of_keyOf (hkey y hy))] at hsame
    rw [less_eq_false, List.map_injective_iff.2 (fun _ _ => Option.some.inj) hsame,
      SortOrder.compare, compareBy_self]
    rfl

/-- An order without a key that decides leaves the rows as they are. -/
theorem stablySorts_self (hbind : o.bindTo columns = .ok p) (hp : p.isEmpty)
    (hcol : ∀ row ∈ rows, row.columns = columns) : o.StablySorts scope rows rows := by
  refine ⟨.refl rows, ?_, fun _ => rfl⟩
  rw [map_env hcol]
  exact sorted_of_bindTo hbind (.of_isEmpty hp _)

end SortOrder

end RelPlan

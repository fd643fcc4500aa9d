import RelPlan.Join.Keys
import RelPlan.Proofs.AccessRows

/-!
# Pairs of rows

What a nested loop over two lists of rows joins, as the pairs in its order (`loopPairs`), and the
same pairs found by way of keys (`flatMap_keyPartners`).  Rows belong together where each pair of
key expressions has values that are equal in a comparison (`KeyPair.equated`), or where both have a
key and the keys are equal in the order (`KeyPair.tied`).  Without binary64 data both come to
having one key (`KeyPair.equated_iff`, `KeyPair.tied_iff`).
-/

namespace RelPlan

/-- Each pair of rows joined. -/
def joinAll (join : Row → Row → Result Row) (ps : List (Row × Row)) : Result (List Row) :=
  ps.mapM fun p => join p.1 p.2

/-- Each left row with each of the right rows that belong to it. -/
def loopPairs (rel : Row → Row → Bool) (L R : List Row) : List (Row × Row) :=
  L.flatMap fun l => (R.filter (rel l)).map (l, ·)

def loopJoin (rel : Row → Row → Bool) (columns : List Column) (L R : List Row) :
    Result (List Row) :=
  joinAll (fun l r => l.concat r columns) (loopPairs rel L R)

/-- Both sides of each pair are equal in a comparison, so neither is `NULL`. -/
def KeyPair.equated (scope : Scope) (pairs : List KeyPair) (l r : Row) : Bool :=
  pairs.all fun p =>
    match p.left.evalRow scope l, p.right.evalRow scope r with
    | .ok v, .ok w => v.compareSql w = .ok (some .eq)
    | _, _ => false

/-- Both rows have a key, and the keys are equal in the order of keys. -/
def KeyPair.tied (scope : Scope) (pairs : List KeyPair) (l r : Row) : Bool :=
  match joinKey scope l (pairs.map KeyPair.left), joinKey scope r (pairs.map KeyPair.right) with
  | .ok (some a), .ok (some b) => orderKeys a b = .eq
  | _, _ => false

/-- Whether a row has a key is found out without a failure, and a key that it has is exact. -/
def HasExactKeys (scope : Scope) (es : List Expr) (rows : List Row) : Prop :=
  ∀ row ∈ rows, (joinKey scope row es).toOption.any fun key? =>
    key?.all fun key => key.all Value.isExact

instance (scope : Scope) (es : List Expr) (rows : List Row) :
    Decidable (HasExactKeys scope es rows) :=
  inferInstanceAs (Decidable (∀ _ ∈ _, _ = true))

/-- The rows that have a key, with it. -/
def keyedRows (scope : Scope) (es : List Expr) (rows : List Row) : List Keyed :=
  rows.filterMap fun row => (joinKey scope row es).toOption.join.map (⟨row, ·⟩)

section
variable {join : Row → Row → Result Row} {columns : List Column} {ps qs : List (Row × Row)}
  {L R : List Row} {l r row : Row} {rel : Row → Row → Bool}

theorem joinAll_cons (p : Row × Row) (ps : List (Row × Row)) :
    joinAll join (p :: ps) = (do
      let row ← join p.1 p.2
      (row :: ·) <$> joinAll join ps) := by
  rw [joinAll, List.mapM_cons]
  rfl

theorem joinAll_append (ps qs : List (Row × Row)) :
    joinAll join (ps ++ qs) = (do
      let rows ← joinAll join ps
      (rows ++ ·) <$> joinAll join qs) := by
  rw [joinAll, List.mapM_append]
  rfl

theorem joinAll_flatMap {α : Type} (f : α → List (Row × Row)) (xs : List α) :
    joinAll join (xs.flatMap f) = List.flatten <$> xs.mapM fun x => joinAll join (f x) := by
  induction xs with
  | nil => rfl
  | cons x xs ih =>
    rw [List.flatMap_cons, joinAll_append, ih, List.mapM_cons]
    cases joinAll join (f x) with
    | error e => rfl
    | ok rows => cases xs.mapM fun x => joinAll join (f x) <;> rfl

theorem joinAll_of_fits
    (h : ∀ p ∈ ps, p.1.values.length + p.2.values.length = columns.length) :
    ∃ rows, joinAll (fun l r => l.concat r columns) ps = .ok rows ∧
      (∀ row ∈ rows, row.columns = columns) ∧
      rows.map Row.values = ps.map fun p => p.1.values ++ p.2.values := by
  induction ps with
  | nil => exact ⟨[], rfl, by simp, rfl⟩
  | cons p ps ih =>
    obtain ⟨hp, hps⟩ := List.forall_mem_cons.1 h
    obtain ⟨rows, hrows, hcolumns, hvalues⟩ := ih hps
    have hfit : (p.1.values ++ p.2.values).length = columns.length := by
      rw [List.length_append, hp]
    refine ⟨⟨columns, p.1.values ++ p.2.values, none, hfit⟩ :: rows, ?_, ?_, ?_⟩
    · rw [joinAll_cons, Row.concat, Row.make, dif_pos hfit, hrows]
      rfl
    · exact List.forall_mem_cons.2 ⟨rfl, hcolumns⟩
    · rw [List.map_cons, List.map_cons, hvalues]

theorem loopPairs_cons (rel : Row → Row → Bool) (l : Row) (L R : List Row) :
    loopPairs rel (l :: L) R = (R.filter (rel l)).map (l, ·) ++ loopPairs rel L R :=
  List.flatMap_cons

theorem rel_of_mem_loopPairs {p : Row × Row} (h : p ∈ loopPairs rel L R) : rel p.1 p.2 := by
  obtain ⟨l, -, hp⟩ := List.mem_flatMap.1 h
  obtain ⟨r, hr, rfl⟩ := List.mem_map.1 hp
  exact (List.mem_filter.1 hr).2

theorem loopJoin_of_fits
    (h : ∀ l ∈ L, ∀ r ∈ R, l.values.length + r.values.length = columns.length) :
    ∃ rows, loopJoin rel columns L R = .ok rows ∧ (∀ row ∈ rows, row.columns = columns) ∧
      rows.map Row.values = (loopPairs rel L R).map fun p => p.1.values ++ p.2.values := by
  refine joinAll_of_fits fun p hp => ?_
  obtain ⟨l, hl, hp⟩ := List.mem_flatMap.1 hp
  obtain ⟨r, hr, rfl⟩ := List.mem_map.1 hp
  exact h l hl r (List.mem_of_mem_filter hr)

end

/-! ### Keys -/

section
variable {scope : Scope} {es : List Expr} {pairs : List KeyPair} {rows L R : List Row}
  {l r row : Row} {key : List Value}

theorem joinKey_eq_some : joinKey scope row es = .ok (some key) ↔
    List.Forall₂ (fun e v => e.evalRow scope row = .ok v ∧ v.isNull = false) es key := by
  induction es generalizing key with
  | nil => cases key <;> simp [joinKey]
  | cons e es ih =>
    rw [joinKey, Result.bind_eq_ok, List.forall₂_cons_left_iff]
    constructor
    · rintro ⟨v, hv, h⟩
      split at h
      · cases h
      · next hnull =>
        obtain ⟨key?, hkey, h⟩ := Result.bind_eq_ok.1 h
        obtain ⟨key', rfl, rfl⟩ := Option.map_eq_some_iff.1 (Except.ok.inj h)
        exact ⟨v, key', ⟨hv, by simpa using hnull⟩, ih.1 hkey, rfl⟩
    · rintro ⟨v, key', ⟨hv, hnull⟩, hkey, rfl⟩
      refine ⟨v, hv, ?_⟩
      simp [hnull, ih.2 hkey]

theorem not_null_of_joinKey (h : joinKey scope row es = .ok (some key)) :
    ∀ v ∈ key, v.isNull = false := by
  intro v hv
  obtain ⟨e, -, -, hnull⟩ := exists_of_forall₂ (joinKey_eq_some.1 h) hv
  exact hnull

theorem exists_key_of_ne_null {key? : Option (List Value)} (h : joinKey scope row es = .ok key?)
    (hne : ∀ e ∈ es, e.evalRow scope row ≠ .ok .null) : ∃ key, key? = some key := by
  induction es generalizing key? with
  | nil =>
    cases h
    exact ⟨[], rfl⟩
  | cons e es ih =>
    obtain ⟨he, hes⟩ := List.forall_mem_cons.1 hne
    obtain ⟨v, hv, h⟩ := Result.bind_eq_ok.1 h
    split at h
    · next hnull =>
      obtain rfl : v = .null := by cases v <;> simp_all [Value.isNull]
      exact absurd hv he
    · obtain ⟨key?, hkey, h⟩ := Result.bind_eq_ok.1 h
      obtain ⟨key, rfl⟩ := ih hkey hes
      exact ⟨v :: key, (Except.ok.inj h).symm⟩

theorem HasExactKeys.joinKey (h : HasExactKeys scope es rows) (hrow : row ∈ rows) :
    ∃ key?, RelPlan.joinKey scope row es = .ok key? := by
  obtain ⟨key?, hkey, -⟩ := (Option.any_eq_true _ _).1 (h row hrow)
  exact ⟨key?, Expr.toOption_eq_some.1 hkey⟩

theorem HasExactKeys.isKey (h : HasExactKeys scope es rows) (hrow : row ∈ rows)
    (hkey : RelPlan.joinKey scope row es = .ok (some key)) : IsKey es.length key := by
  have hexact := h row hrow
  rw [hkey] at hexact
  exact ⟨(joinKey_eq_some.1 hkey).length_eq.symm, by simpa [Except.toOption] using hexact⟩

theorem compareSql_eq_of_exact {v w : Value} (hv : v.isExact) (hw : w.isExact) :
    v.compareSql w = .ok (some .eq) ↔ v = w ∧ v.isNull = false := by
  rw [Value.compareSql_eq_iff, Value.order_eq_iff hv hw]
  constructor
  · rintro ⟨hnull, -, rfl⟩
    exact ⟨rfl, hnull⟩
  · rintro ⟨rfl, hnull⟩
    exact ⟨hnull, hnull, rfl⟩

theorem KeyPair.ne_null_of_equated (h : equated scope pairs l r) :
    ∀ p ∈ pairs, p.left.evalRow scope l ≠ .ok .null ∧ p.right.evalRow scope r ≠ .ok .null := by
  intro p hp
  have hpair := List.all_eq_true.1 h p hp
  refine ⟨fun hnull => ?_, fun hnull => ?_⟩
  · rw [hnull] at hpair
    cases hw : p.right.evalRow scope r <;> simp [hw, Value.compareSql, Value.isNull] at hpair
  · rw [hnull] at hpair
    cases hv : p.left.evalRow scope l <;> simp [hv, Value.compareSql, Value.isNull] at hpair

theorem KeyPair.equated_iff_eq {a b : List Value}
    (ha : joinKey scope l (pairs.map KeyPair.left) = .ok (some a))
    (hb : joinKey scope r (pairs.map KeyPair.right) = .ok (some b))
    (hax : ∀ v ∈ a, v.isExact) (hbx : ∀ w ∈ b, w.isExact) :
    equated scope pairs l r ↔ a = b := by
  rw [joinKey_eq_some, List.forall₂_map_left_iff] at ha hb
  induction ha generalizing b with
  | nil =>
    cases hb
    exact iff_of_true rfl rfl
  | @cons p v pairs a hp ha ih =>
    obtain ⟨w, b, ⟨hw, -⟩, htail, rfl⟩ := List.forall₂_cons_left_iff.1 hb
    obtain ⟨hv, hnull⟩ := hp
    obtain ⟨hvx, hax⟩ := List.forall_mem_cons.1 hax
    obtain ⟨hwx, hbx⟩ := List.forall_mem_cons.1 hbx
    have hcons : equated scope (p :: pairs) l r =
        (decide (v.compareSql w = .ok (some .eq)) && equated scope pairs l r) := by
      rw [equated, List.all_cons, hv, hw]
      rfl
    have hrest : equated scope pairs l r = true ↔ a = b := ih htail hax hbx
    rw [hcons, Bool.and_eq_true, hrest, decide_eq_true_eq, compareSql_eq_of_exact hvx hwx,
      List.cons.injEq]
    simp [hnull]

theorem KeyPair.equated_iff (hl : HasExactKeys scope (pairs.map KeyPair.left) L)
    (hr : HasExactKeys scope (pairs.map KeyPair.right) R) (hlmem : l ∈ L) (hrmem : r ∈ R) :
    equated scope pairs l r ↔ ∃ key, joinKey scope l (pairs.map KeyPair.left) = .ok (some key) ∧
      joinKey scope r (pairs.map KeyPair.right) = .ok (some key) := by
  constructor
  · intro h
    have hne := ne_null_of_equated h
    obtain ⟨a?, ha⟩ := hl.joinKey hlmem
    obtain ⟨b?, hb⟩ := hr.joinKey hrmem
    obtain ⟨a, rfl⟩ := exists_key_of_ne_null ha (List.forall_mem_map.2 fun p hp => (hne p hp).1)
    obtain ⟨b, rfl⟩ := exists_key_of_ne_null hb (List.forall_mem_map.2 fun p hp => (hne p hp).2)
    obtain rfl :=
      (equated_iff_eq ha hb (hl.isKey hlmem ha).exact (hr.isKey hrmem hb).exact).1 h
    exact ⟨a, ha, hb⟩
  · rintro ⟨key, ha, hb⟩
    exact (equated_iff_eq ha hb (hl.isKey hlmem ha).exact (hr.isKey hrmem hb).exact).2 rfl

theorem KeyPair.tied_iff (hl : HasExactKeys scope (pairs.map KeyPair.left) L)
    (hr : HasExactKeys scope (pairs.map KeyPair.right) R) (hlmem : l ∈ L) (hrmem : r ∈ R) :
    tied scope pairs l r ↔ ∃ key, joinKey scope l (pairs.map KeyPair.left) = .ok (some key) ∧
      joinKey scope r (pairs.map KeyPair.right) = .ok (some key) := by
  unfold tied
  split
  · next a b ha hb =>
    have hkeys : IsKey pairs.length a ∧ IsKey pairs.length b := by
      rw [← pairs.length_map KeyPair.left]
      refine ⟨hl.isKey hlmem ha, ?_⟩
      rw [pairs.length_map, ← pairs.length_map KeyPair.right]
      exact hr.isKey hrmem hb
    rw [decide_eq_true_eq, orderKeys_eq_iff hkeys.1 hkeys.2, ha, hb]
    simp [eq_comm]
  · next hnot =>
    simp only [Bool.false_eq_true, false_iff]
    rintro ⟨key, ha, hb⟩
    exact hnot key key ha hb

/-- The rows with the key of a left row. -/
def keyPartners (R : List Keyed) (x : Keyed) : List (Row × Row) :=
  (R.filter fun y => y.key = x.key).map fun y => (x.row, y.row)

theorem mem_keyedRows {x : Keyed} : x ∈ keyedRows scope es rows ↔
    x.row ∈ rows ∧ joinKey scope x.row es = .ok (some x.key) := by
  obtain ⟨row, key⟩ := x
  simp only [keyedRows, List.mem_filterMap, Option.map_eq_some_iff, Keyed.mk.injEq,
    Option.join_eq_some_iff, Expr.toOption_eq_some]
  constructor
  · rintro ⟨row', hrow, key', hkey, rfl, rfl⟩
    exact ⟨hrow, hkey⟩
  · rintro ⟨hrow, hkey⟩
    exact ⟨row, hrow, key, hkey, rfl, rfl⟩

theorem keyedRows_cons (row : Row) (rows : List Row) :
    keyedRows scope es (row :: rows) =
      ((joinKey scope row es).toOption.join.map (⟨row, ·⟩)).toList ++ keyedRows scope es rows := by
  rw [keyedRows, List.filterMap_cons, keyedRows]
  cases (joinKey scope row es).toOption.join <;> rfl

theorem keyPartners_keyedRows {rel : Row → Row → Bool} {x : Keyed}
    (hrel : ∀ r ∈ R, rel x.row r ↔ joinKey scope r es = .ok (some x.key)) :
    keyPartners (keyedRows scope es R) x = (R.filter (rel x.row)).map (x.row, ·) := by
  induction R with
  | nil => rfl
  | cons r R ih =>
    obtain ⟨hr, hR⟩ := List.forall_mem_cons.1 hrel
    have htail := ih hR
    rw [keyPartners] at htail ⊢
    rw [keyedRows_cons, List.filter_append, List.map_append, htail, List.filter_cons]
    rcases hkey : joinKey scope r es with e | _ | key
    · rw [if_neg (by simp [hr, hkey])]
      rfl
    · rw [if_neg (by simp [hr, hkey])]
      rfl
    · by_cases heq : key = x.key
      · rw [if_pos (by simp [hr, hkey, heq])]
        simp [Except.toOption, heq]
      · rw [if_neg (by simp [hr, hkey, heq])]
        simp [Except.toOption, heq]

/-- Rows that belong together if they have one key are found by way of their keys. -/
theorem flatMap_keyPartners {rel : Row → Row → Bool} {fs : List Expr}
    (hrel : ∀ l ∈ L, ∀ r ∈ R, rel l r ↔ ∃ key, joinKey scope l es = .ok (some key) ∧
      joinKey scope r fs = .ok (some key)) :
    (keyedRows scope es L).flatMap (keyPartners (keyedRows scope fs R)) = loopPairs rel L R := by
  induction L with
  | nil => rfl
  | cons l L ih =>
    obtain ⟨hl, hL⟩ := List.forall_mem_cons.1 hrel
    rw [keyedRows_cons, List.flatMap_append, ih hL, loopPairs_cons]
    have hnone (hkey : ∀ key, joinKey scope l es ≠ .ok (some key)) :
        (R.filter (rel l)).map (l, ·) = [] := by
      rw [List.map_eq_nil_iff, List.filter_eq_nil_iff]
      intro r hr hmatch
      obtain ⟨key, h, -⟩ := (hl r hr).1 hmatch
      exact hkey key h
    congr 1
    rcases hkey : joinKey scope l es with e | _ | key
    · rw [hnone (by simp [hkey])]
      rfl
    · rw [hnone (by simp [hkey])]
      rfl
    · have hpartners : keyPartners (keyedRows scope fs R) ⟨l, key⟩ =
          (R.filter (rel l)).map (l, ·) := by
        refine keyPartners_keyedRows fun r hr => ?_
        rw [hl r hr, hkey]
        simp
      simp [Except.toOption, hpartners]

end

section
variable {R : List Keyed} {x y : Keyed}

theorem keyPartners_append (R₁ R₂ : List Keyed) (x : Keyed) :
    keyPartners (R₁ ++ R₂) x = keyPartners R₁ x ++ keyPartners R₂ x := by
  simp [keyPartners]

theorem keyPartners_eq_nil (h : ∀ y ∈ R, y.key ≠ x.key) : keyPartners R x = [] := by
  rw [keyPartners, List.map_eq_nil_iff, List.filter_eq_nil_iff]
  simpa using h

theorem keyPartners_cons_of_eq (h : y.key = x.key) :
    keyPartners (y :: R) x = (x.row, y.row) :: keyPartners R x := by
  simp [keyPartners, h]

end

end RelPlan

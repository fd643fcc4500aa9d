import RelPlan.Expr.Rename
import RelPlan.Proofs.Results

/-!
# What references mean

`resolve` finds a column exactly if it is the only one that answers (`resolve_eq_some_iff`).  The
full name of a column that some reference finds finds it again (`resolve_ref`); a column that is
found under a new relation is found under its old name (`resolve_ref_of_withRelation`); and what
two lists of columns find together is found by one of them alone (`resolve_append_eq_some`).  The
innermost row of a scope answers for what its columns find, and for what is ambiguous among them.
-/

namespace RelPlan

variable {r : ColumnRef} {columns left right : List Column} {c : Column} {i j : Nat}

theorem mem_positionsFrom (r : ColumnRef) (columns : List Column) (k j : Nat) :
    j ∈ positionsFrom r k columns ↔ ∃ i c, j = k + i ∧ columns[i]? = some c ∧ c.answers r := by
  induction columns generalizing k with
  | nil => simp [positionsFrom]
  | cons d ds ih =>
    have hstep : (∃ i c, j = k + i ∧ (d :: ds)[i]? = some c ∧ c.answers r) ↔
        (j = k ∧ d.answers r) ∨ ∃ i c, j = k + 1 + i ∧ ds[i]? = some c ∧ c.answers r := by
      constructor
      · rintro ⟨_ | i, c, rfl, hc, hr⟩
        · exact .inl ⟨rfl, by simp_all⟩
        · exact .inr ⟨i, c, by omega, by simpa using hc, hr⟩
      · rintro (⟨rfl, hr⟩ | ⟨i, c, rfl, hc, hr⟩)
        · exact ⟨0, d, rfl, rfl, hr⟩
        · exact ⟨i + 1, c, by omega, by simpa using hc, hr⟩
    rw [hstep, positionsFrom]
    split <;> simp_all

theorem pairwise_positionsFrom (r : ColumnRef) (k : Nat) (columns : List Column) :
    (positionsFrom r k columns).Pairwise (· < ·) := by
  induction columns generalizing k with
  | nil => simp [positionsFrom]
  | cons d ds ih =>
    rw [positionsFrom]
    split
    · refine List.pairwise_cons.2 ⟨fun j hj => ?_, ih (k + 1)⟩
      obtain ⟨i, -, rfl, -⟩ := (mem_positionsFrom ..).1 hj
      omega
    · exact ih (k + 1)

theorem resolve_eq_none_iff : resolve columns r = .ok none ↔ ∀ c ∈ columns, ¬ c.answers r := by
  have hmem (j : Nat) := mem_positionsFrom r columns 0 j
  simp only [Nat.zero_add, exists_and_left, exists_eq_left'] at hmem
  unfold resolve
  split
  · next h =>
    simp only [h, List.not_mem_nil, false_iff, not_exists, not_and] at hmem
    refine ⟨fun _ c hc => ?_, fun _ => rfl⟩
    obtain ⟨i, hi⟩ := List.mem_iff_getElem?.1 hc
    exact hmem i c hi
  · next i h =>
    obtain ⟨c, hc, hr⟩ := (hmem i).1 (by simp [h])
    simp only [Except.ok.injEq, reduceCtorEq, false_iff, not_forall, not_not]
    exact ⟨c, List.mem_of_getElem? hc, hr⟩
  · next h₀ _ =>
    obtain ⟨j, hj⟩ := List.exists_mem_of_ne_nil _ h₀
    obtain ⟨c, hc, hr⟩ := (hmem j).1 hj
    simp only [reduceCtorEq, false_iff, not_forall, not_not]
    exact ⟨c, List.mem_of_getElem? hc, hr⟩

theorem resolve_eq_some_iff : resolve columns r = .ok (some i) ↔
    (∃ c, columns[i]? = some c ∧ c.answers r) ∧
      ∀ j c, columns[j]? = some c → c.answers r → j = i := by
  have hmem (j : Nat) := mem_positionsFrom r columns 0 j
  simp only [Nat.zero_add, exists_and_left, exists_eq_left'] at hmem
  unfold resolve
  split
  · next h =>
    simp only [h, List.not_mem_nil, false_iff, not_exists, not_and] at hmem
    simp only [Except.ok.injEq, reduceCtorEq, false_iff, not_and]
    rintro ⟨c, hc, hr⟩
    exact absurd hr (hmem i c hc)
  · next k h =>
    simp only [h, List.mem_singleton] at hmem
    simp only [Except.ok.injEq, Option.some.injEq]
    constructor
    · rintro rfl
      exact ⟨(hmem k).1 rfl, fun j c hc hr => (hmem j).2 ⟨c, hc, hr⟩⟩
    · rintro ⟨⟨c, hc, hr⟩, -⟩
      exact ((hmem i).2 ⟨c, hc, hr⟩).symm
  · next h₀ h₁ =>
    simp only [reduceCtorEq, false_iff, not_and]
    rintro - hall
    have hp := pairwise_positionsFrom r 0 columns
    match h : positionsFrom r 0 columns with
    | [] => exact h₀ h
    | [k] => exact h₁ k h
    | j :: k :: ks =>
      rw [h] at hp hmem
      obtain ⟨c, hc, hr⟩ := (hmem j).1 (by simp)
      obtain ⟨d, hd, hr'⟩ := (hmem k).1 (by simp)
      have hjk : j < k := (List.pairwise_cons.1 hp).1 k (by simp)
      have := hall j c hc hr
      have := hall k d hd hr'
      omega

theorem resolve_eq_error {cause : QueryError} (h : resolve columns r = .error cause) :
    cause = .ambiguousColumn r := by
  unfold resolve at h
  split at h <;> cases h
  rfl

theorem exists_of_resolve (h : resolve columns r = .ok (some i)) :
    ∃ c, columns[i]? = some c ∧ c.answers r := (resolve_eq_some_iff.1 h).1

theorem lt_of_resolve (h : resolve columns r = .ok (some i)) : i < columns.length := by
  obtain ⟨c, hc, -⟩ := exists_of_resolve h
  exact (List.getElem?_eq_some_iff.1 hc).1

theorem answers_ref (c : Column) : c.answers c.ref := by
  simp [Column.answers, Column.ref]

/-- A column that the full name of another one may mean answers to whatever the other one does. -/
theorem answers_of_answers_ref {d : Column} (hd : d.answers c.ref) (hc : c.answers r) :
    d.answers r := by
  simp only [Column.answers, Column.ref, Bool.and_eq_true, decide_eq_true_eq, Bool.or_eq_true,
    Option.isNone_iff_eq_none] at hd hc ⊢
  grind

/-- The full name of a column that a reference finds finds it too. -/
theorem resolve_ref (h : resolve columns r = .ok (some i)) (hc : columns[i]? = some c) :
    resolve columns c.ref = .ok (some i) := by
  obtain ⟨⟨d, hd, hr⟩, huniq⟩ := resolve_eq_some_iff.1 h
  obtain rfl : d = c := by simpa [hd] using hc
  exact resolve_eq_some_iff.2 ⟨⟨d, hd, answers_ref d⟩,
    fun j e he hans => huniq j e he (answers_of_answers_ref hans hr)⟩

theorem eq_of_resolve_ref (h : resolve columns c.ref = .ok (some j)) (hc : columns[i]? = some c) :
    j = i := ((resolve_eq_some_iff.1 h).2 i c hc (answers_ref c)).symm

theorem resolve_ref_ne_none (hc : columns[i]? = some c) : resolve columns c.ref ≠ .ok none :=
  fun h => resolve_eq_none_iff.1 h c (List.mem_of_getElem? hc) (answers_ref c)

/-- Under one relation for all, columns are told apart by less than before. -/
theorem resolve_ref_of_withRelation {relation : Option String}
    (h : resolve (columns.map (·.withRelation relation)) r = .ok (some i))
    (hc : columns[i]? = some c) : resolve columns c.ref = .ok (some i) := by
  obtain ⟨⟨d, hd, hr⟩, huniq⟩ := resolve_eq_some_iff.1 h
  obtain rfl : d = c.withRelation relation := by simpa [hc] using hd.symm
  refine resolve_eq_some_iff.2 ⟨⟨c, hc, answers_ref c⟩, fun j e he hans => ?_⟩
  refine huniq j (e.withRelation relation) (by simp [he]) ?_
  simp only [Column.answers, Column.withRelation, Column.ref, Bool.and_eq_true] at hr hans ⊢
  exact ⟨decide_eq_true ((of_decide_eq_true hans.1).trans (of_decide_eq_true hr.1)), hr.2⟩

theorem resolve_append_eq_none : resolve (left ++ right) r = .ok none ↔
    resolve left r = .ok none ∧ resolve right r = .ok none := by
  simp [resolve_eq_none_iff, or_imp, forall_and]

theorem resolve_append_eq_some (h : resolve (left ++ right) r = .ok (some i)) :
    (resolve left r = .ok (some i) ∧ resolve right r = .ok none) ∨
      ∃ j, i = left.length + j ∧ resolve left r = .ok none ∧ resolve right r = .ok (some j) := by
  obtain ⟨⟨c, hc, hr⟩, huniq⟩ := resolve_eq_some_iff.1 h
  have hleft (k : Nat) (d : Column) (hd : left[k]? = some d) (hans : d.answers r) : k = i := by
    have hk := (List.getElem?_eq_some_iff.1 hd).1
    exact huniq k d (by rw [List.getElem?_append_left hk, hd]) hans
  have hright (k : Nat) (d : Column) (hd : right[k]? = some d) (hans : d.answers r) :
      left.length + k = i :=
    huniq _ d (by rw [List.getElem?_append_right (by omega), Nat.add_sub_cancel_left, hd]) hans
  by_cases hi : i < left.length
  · rw [List.getElem?_append_left hi] at hc
    refine .inl ⟨resolve_eq_some_iff.2 ⟨⟨c, hc, hr⟩, hleft⟩,
      resolve_eq_none_iff.2 fun d hd hans => ?_⟩
    obtain ⟨k, hk⟩ := List.mem_iff_getElem?.1 hd
    have := hright k d hk hans
    omega
  · rw [List.getElem?_append_right (by omega)] at hc
    refine .inr ⟨i - left.length, by omega, resolve_eq_none_iff.2 fun d hd hans => ?_,
      resolve_eq_some_iff.2 ⟨⟨c, hc, hr⟩, fun k d hd hans => ?_⟩⟩
    · obtain ⟨k, hk⟩ := List.mem_iff_getElem?.1 hd
      have := hleft k d hk hans
      have := (List.getElem?_eq_some_iff.1 hk).1
      omega
    · have := hright k d hd hans
      omega

section

variable {scope : Scope} {row : Row} {v : Value}

theorem Row.exists_value (h : resolve row.columns r = .ok (some i)) :
    ∃ v, row.values[i]? = some v :=
  ⟨_, List.getElem?_eq_getElem (row.aligned ▸ lt_of_resolve h)⟩

theorem Scope.lookup_push_of_some (h : resolve row.columns r = .ok (some i))
    (hv : row.values[i]? = some v) : (scope.push row).lookup r = .ok v := by
  simp [lookup, push, lookupIn, Row.lookup, h, hv]

theorem Scope.lookup_push_of_none (h : resolve row.columns r = .ok none) :
    (scope.push row).lookup r = scope.lookup r := by
  simp [lookup, push, lookupIn, Row.lookup, h]

theorem Scope.lookup_push_of_error {cause : QueryError} (h : resolve row.columns r = .error cause) :
    (scope.push row).lookup r = .error cause := by
  simp [lookup, push, lookupIn, Row.lookup, h]

end

end RelPlan

import RelPlan.Plan.Descent
import RelPlan.Proofs.Cells
import RelPlan.Proofs.Renaming

/-!
# Expressions moved between columns

Renaming keeps what an expression is worth if every reference means the column at the same position
before and after, or no column both times (`Faithful`).  Names under one relation are less telling
than the ones before, so going down through a renaming is faithful, and going up again is for
whatever came down that way (`Faithful.back`).  Between other columns a name may become ambiguous,
and then the renamed expression is worth less (`worth_rename_le`).
-/

namespace RelPlan

variable {columns source target left right : List Column} {outer : Env}
  {cells lcells rcells : List (Option Value)} {r : ColumnRef} {e e' : Expr} {i : Nat} {c : Column}

theorem cellsEnv_append (hl : lcells.length = left.length)
    (h : ∃ o, resolve (left ++ right) r = .ok o) :
    cellsEnv (left ++ right) outer (lcells ++ rcells) r =
      cellsEnv right (cellsEnv left outer lcells) rcells r := by
  obtain ⟨o, h⟩ := h
  cases o with
  | none =>
    obtain ⟨hleft, hright⟩ := resolve_append_eq_none.1 h
    rw [cellsEnv_none h, cellsEnv_none hright, cellsEnv_none hleft]
  | some i =>
    rcases resolve_append_eq_some h with ⟨hleft, hright⟩ | ⟨j, rfl, -, hright⟩
    · have hi : i < lcells.length := hl ▸ lt_of_resolve hleft
      rw [cellsEnv_some h, cellsEnv_none hright, cellsEnv_some hleft, List.getElem?_append_left hi]
    · rw [cellsEnv_some h, cellsEnv_some hright, List.getElem?_append_right (by omega), ← hl,
        Nat.add_sub_cancel_left]

namespace Expr

/-- Each reference means one of the columns, or none. -/
def Clear (columns : List Column) (e : Expr) : Prop := ∀ r ∈ e.refs, ∃ o, resolve columns r = .ok o

/-- Each reference means one of the columns. -/
def Bound (columns : List Column) (e : Expr) : Prop :=
  ∀ r ∈ e.refs, ∃ i, resolve columns r = .ok (some i)

instance (columns : List Column) (e : Expr) : Decidable (e.Clear columns) :=
  decidable_of_iff (∀ r ∈ e.refs, (resolve columns r).isOk) <|
    forall₂_congr fun r _ => by cases resolve columns r <;> simp [Except.isOk, Except.toBool]

instance (columns : List Column) (e : Expr) : Decidable (e.Bound columns) :=
  decidable_of_iff (∀ r ∈ e.refs, ((resolve columns r).toOption.bind id).isSome) <|
    forall₂_congr fun r _ => by
      rcases resolve columns r with _ | (_ | _) <;> simp [Except.toOption]

/-- Each reference means one of the first columns, or none of either. -/
def Movable (source target : List Column) (e : Expr) : Prop := ∀ r ∈ e.refs,
  (∃ i, resolve source r = .ok (some i)) ∨
    (resolve source r = .ok none ∧ resolve target r = .ok none)

theorem Bound.clear (h : e.Bound columns) : e.Clear columns := fun r hr =>
  (h r hr).imp' some fun _ hi => hi

theorem Movable.clear (h : e.Movable source target) : e.Clear source := by
  intro r hr
  rcases h r hr with ⟨i, hi⟩ | ⟨hi, -⟩
  exacts [⟨_, hi⟩, ⟨_, hi⟩]

theorem Bound.worth_eq (h : e.Bound columns) (outer outer' : Env) :
    e.worth (cellsEnv columns outer cells) = e.worth (cellsEnv columns outer' cells) := by
  refine worth_congr fun r hr => ?_
  obtain ⟨i, hi⟩ := h r hr
  rw [cellsEnv_some hi, cellsEnv_some hi]

theorem Bound.movable (h : e.Bound source) : e.Movable source target := fun r hr => .inl (h r hr)

theorem Bound.worth_append_left (h : e.Bound left) (hc : e.Clear (left ++ right))
    (hl : lcells.length = left.length) (outer outer' : Env) :
    e.worth (cellsEnv (left ++ right) outer (lcells ++ rcells)) =
      e.worth (cellsEnv left outer' lcells) := by
  refine worth_congr fun r hr => ?_
  obtain ⟨i, hi⟩ := h r hr
  obtain ⟨o, ho⟩ := hc r hr
  rw [cellsEnv_append hl ⟨o, ho⟩, cellsEnv_some hi]
  cases o with
  | none =>
    obtain ⟨hleft, -⟩ := resolve_append_eq_none.1 ho
    simp [hi] at hleft
  | some j =>
    rcases resolve_append_eq_some ho with ⟨-, hright⟩ | ⟨_, -, hleft, -⟩
    · rw [cellsEnv_none hright, cellsEnv_some hi]
    · simp [hi] at hleft

theorem Bound.worth_append_right (h : e.Bound right) (hc : e.Clear (left ++ right))
    (hl : lcells.length = left.length) (outer outer' : Env) :
    e.worth (cellsEnv (left ++ right) outer (lcells ++ rcells)) =
      e.worth (cellsEnv right outer' rcells) := by
  rw [h.worth_eq outer' (cellsEnv left outer lcells)]
  exact worth_congr fun r hr => cellsEnv_append hl (hc r hr)

theorem capturesOuter_eq_false :
    e.capturesOuter source target = .ok false ↔ e.Movable source target := by
  unfold capturesOuter Movable
  induction e.refs with
  | nil => simp [anyCaptured]
  | cons r rs ih =>
    simp only [anyCaptured, Result.bind_eq_ok, List.forall_mem_cons]
    constructor
    · rintro ⟨_ | i, ho, h⟩
      · match htarget : resolve target r, h with
        | .ok none, h => exact ⟨.inr ⟨ho, rfl⟩, ih.1 h⟩
        | .ok (some _), h | .error _, h => cases h
      · exact ⟨.inl ⟨i, ho⟩, ih.1 h⟩
    · rintro ⟨⟨i, hi⟩ | ⟨hs, ht⟩, h⟩
      · exact ⟨some i, hi, ih.2 h⟩
      · exact ⟨none, hs, by simpa [ht] using ih.2 h⟩

theorem bound_of_validate (h : e.validate columns = .ok ()) : e.Bound columns :=
  requireAll_eq_ok.1 h

/-- A substituted expression is worth what the expression is where each reference is worth its
substitute. -/
theorem worth_subst {f : ColumnRef → Result Expr} (h : e.subst f = .ok e') (env : Env) :
    e'.worth env = e.worth fun r => (f r).toOption.bind (·.worth env) := by
  induction e generalizing e' with
  | const v => cases h; rfl
  | ref r =>
    have hr : f r = .ok e' := h
    simp [worth, hr, Except.toOption]
  | unary op a ih =>
    obtain ⟨a', ha, h⟩ := Result.bind_eq_ok.1 h
    cases h
    rw [worth_unary, worth_unary, ih ha]
  | binary op a b iha ihb =>
    obtain ⟨a', ha, h⟩ := Result.bind_eq_ok.1 h
    obtain ⟨b', hb, h⟩ := Result.bind_eq_ok.1 h
    cases h
    rw [worth_binary, worth_binary, iha ha, ihb hb]

theorem clear_of_rename (h : e.rename source target = .ok e') : e.Clear source := by
  intro r hr
  obtain ⟨e₀, he₀⟩ := exists_of_subst h hr
  obtain ⟨o, ho, -⟩ := Result.bind_eq_ok.1 he₀
  exact ⟨o, ho⟩

end Expr

/-! ### Faithful renaming -/

/-- The reference means the columns at one position on both sides, or nothing on either. -/
def Faithful (source target : List Column) (r : ColumnRef) : Prop :=
  (∃ i c, resolve source r = .ok (some i) ∧ target[i]? = some c ∧
    resolve target c.ref = .ok (some i)) ∨
  (resolve source r = .ok none ∧ resolve target r = .ok none)

namespace Faithful

theorem of_resolve (h : resolve columns r = .ok o) : Faithful columns columns r := by
  cases o with
  | none => exact .inr ⟨h, h⟩
  | some i =>
    obtain ⟨c, hc, -⟩ := exists_of_resolve h
    exact .inl ⟨i, c, h, hc, resolve_ref h hc⟩

theorem ref (h : Faithful source target r) (hr : resolve source r = .ok (some i))
    (hc : source[i]? = some c) : Faithful source target c.ref := by
  rcases h with ⟨j, d, hj, hd, ht⟩ | ⟨hnone, -⟩
  · obtain rfl : i = j := by simpa [hr] using hj
    exact .inl ⟨i, d, resolve_ref hr hc, hd, ht⟩
  · simp [hr] at hnone

/-- What a reference is renamed to is worth what the reference is. -/
theorem worth_renameRef (h : Faithful source target r) (outer : Env)
    (cells : List (Option Value)) :
    (renameRef source target r).toOption.bind (·.worth (cellsEnv target outer cells)) =
      cellsEnv source outer cells r := by
  unfold renameRef
  rcases h with ⟨i, c, hs, hc, ht⟩ | ⟨hs, ht⟩
  · simp [hs, hc, ht, Except.toOption, Expr.worth]
  · simp [hs, ht, Except.toOption, Expr.worth]

/-- A name that is found, and the full name of what it finds, go back to it. -/
theorem back (h : Faithful source target r) (he : renameRef source target r = .ok e)
    {r' : ColumnRef} (hr' : r' ∈ e.refs) : Faithful target source r' := by
  rcases h with ⟨i, c, hs, hc, ht⟩ | ⟨hs, ht⟩
  · obtain ⟨d, hd, -⟩ := exists_of_resolve hs
    have he : Expr.ref c.ref = e := by simpa [renameRef, hs, hc] using he
    obtain rfl : r' = c.ref := by simpa [← he, Expr.refs] using hr'
    exact .inl ⟨i, d, ht, hd, resolve_ref hs hd⟩
  · have he : Expr.ref r = e := by simpa [renameRef, hs] using he
    obtain rfl : r' = r := by simpa [← he, Expr.refs] using hr'
    exact .inr ⟨ht, hs⟩

end Faithful

namespace Expr

/-- Down through a renaming every name that is found stays faithful. -/
theorem Movable.faithful {relation : Option String}
    (h : e.Movable (columns.map (·.withRelation relation)) columns) :
    ∀ r ∈ e.refs, Faithful (columns.map (·.withRelation relation)) columns r := by
  intro r hr
  rcases h r hr with ⟨i, hi⟩ | ⟨hs, ht⟩
  · obtain ⟨c, hc, -⟩ := exists_of_resolve hi
    obtain ⟨d, hd, -⟩ : ∃ d, columns[i]? = some d ∧ d.withRelation relation = c := by
      simpa using hc
    exact .inl ⟨i, d, hi, hd, resolve_ref_of_withRelation hi hd⟩
  · exact .inr ⟨hs, ht⟩

theorem worth_rename (h : e.rename source target = .ok e')
    (hf : ∀ r ∈ e.refs, Faithful source target r) :
    e'.worth (cellsEnv target outer cells) = e.worth (cellsEnv source outer cells) := by
  rw [worth_subst h]
  exact worth_congr fun r hr => (hf r hr).worth_renameRef outer cells

theorem worth_qualify (h : e.qualify columns = .ok e') :
    e'.worth (cellsEnv columns outer cells) = e.worth (cellsEnv columns outer cells) := by
  refine worth_rename h fun r hr => ?_
  obtain ⟨o, ho⟩ := clear_of_rename h r hr
  exact .of_resolve ho

theorem clear_of_qualify (h : e.qualify columns = .ok e') : e'.Clear columns := by
  intro r' hr'
  obtain ⟨r, -, e₀, he₀, hr'⟩ := mem_refs_of_subst h hr'
  rcases renameRef_eq_ok.1 he₀ with ⟨i, c, hi, hc, rfl⟩ | ⟨i, hi, -, rfl⟩ | ⟨hi, rfl⟩
  · obtain rfl : r' = c.ref := by simpa [refs] using hr'
    exact ⟨_, resolve_ref hi hc⟩
  · obtain rfl : r' = r := by simpa [refs] using hr'
    exact ⟨_, hi⟩
  · obtain rfl : r' = r := by simpa [refs] using hr'
    exact ⟨_, hi⟩

theorem Bound.rename (h : e.Bound source) (hf : ∀ r ∈ e.refs, Faithful source target r)
    (he : e.rename source target = .ok e') : e'.Bound target := by
  intro r' hr'
  obtain ⟨r, hr, e₀, he₀, hr'⟩ := mem_refs_of_subst he hr'
  rcases hf r hr with ⟨i, c, hs, hc, ht⟩ | ⟨hs, -⟩
  · have he₀ : ref c.ref = e₀ := by simpa [renameRef, hs, hc] using he₀
    obtain rfl : r' = c.ref := by simpa [← he₀, refs] using hr'
    exact ⟨i, ht⟩
  · obtain ⟨i, hi⟩ := h r hr
    simp [hs] at hi

/-- The name that a reference gets among as many other columns is worth what it was, or nothing. -/
theorem worth_renameRef_le (hlen : source.length = target.length) {v : Value}
    (hm : (∃ i, resolve source r = .ok (some i)) ∨
      (resolve source r = .ok none ∧ resolve target r = .ok none))
    (h : (renameRef source target r).toOption.bind (·.worth (cellsEnv target outer cells)) =
      some v) : cellsEnv source outer cells r = some v := by
  rcases hm with ⟨i, hi⟩ | ⟨hs, ht⟩
  · obtain ⟨c, hc⟩ : ∃ c, target[i]? = some c :=
      ⟨_, List.getElem?_eq_getElem (hlen ▸ lt_of_resolve hi)⟩
    have hren : renameRef source target r = .ok (.ref c.ref) := by simp [renameRef, hi, hc]
    simp only [hren, Except.toOption, Option.bind_some, worth] at h
    rw [cellsEnv_some hi]
    unfold cellsEnv at h
    split at h
    · next j hj =>
      obtain rfl := eq_of_resolve_ref hj hc
      exact h
    · next hnone => exact absurd hnone (resolve_ref_ne_none hc)
    · cases h
  · rw [← h]
    simp [renameRef, hs, ht, Except.toOption, worth]

/-- Among other columns a renamed expression is worth what it was, or nothing. -/
theorem worth_rename_le (h : e.rename source target = .ok e') (hm : e.Movable source target)
    (hlen : source.length = target.length) {v : Value}
    (hv : e'.worth (cellsEnv target outer cells) = some v) :
    e.worth (cellsEnv source outer cells) = some v := by
  rw [worth_subst h] at hv
  have hsame : e.worth (cellsEnv source outer cells) = e.worth fun r =>
      if r ∈ e.refs then cellsEnv source outer cells r else
        (renameRef source target r).toOption.bind (·.worth (cellsEnv target outer cells)) :=
    worth_congr fun r hr => by simp [hr]
  rw [hsame]
  refine worth_mono (fun r w hw => ?_) hv
  split
  · next hr => exact worth_renameRef_le hlen (hm r hr) hw
  · exact hw

end Expr

end RelPlan

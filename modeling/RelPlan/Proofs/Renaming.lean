import RelPlan.Proofs.Exactness
import RelPlan.Proofs.Resolution

/-!
# Substitution and renaming

A substitution that succeeds has an expression for each reference, and the references of the result
are those of these expressions.  A renaming has references for references.
-/

namespace RelPlan

variable {source target columns : List Column} {r r' : ColumnRef} {e e' e₁ e₂ : Expr}

namespace Expr

section
variable {ε : Type} {f : ColumnRef → Except ε Expr}

theorem subst_unary_eq_ok {op : UnaryOp} (h : (unary op e).subst f = .ok e') :
    ∃ a, e.subst f = .ok a ∧ e' = unary op a := by
  simp only [subst, bind, Except.bind] at h
  split at h <;> cases h
  next a ha => exact ⟨a, ha, rfl⟩

theorem subst_binary_eq_ok {op : BinaryOp} (h : (binary op e₁ e₂).subst f = .ok e') :
    ∃ a b, e₁.subst f = .ok a ∧ e₂.subst f = .ok b ∧ e' = binary op a b := by
  simp only [subst, bind, Except.bind] at h
  split at h
  · cases h
  · next a ha =>
    split at h <;> cases h
    next b hb => exact ⟨a, b, ha, hb, rfl⟩

theorem exists_of_subst (h : e.subst f = .ok e') (hr : r ∈ e.refs) : ∃ e₀, f r = .ok e₀ := by
  induction e generalizing e' with
  | const v => cases hr
  | ref r' =>
    obtain rfl : r = r' := by simpa [refs] using hr
    exact ⟨e', h⟩
  | unary op a ih =>
    obtain ⟨a', ha, rfl⟩ := subst_unary_eq_ok h
    exact ih ha hr
  | binary op a b iha ihb =>
    obtain ⟨a', b', ha, hb, rfl⟩ := subst_binary_eq_ok h
    rcases List.mem_append.1 hr with hr | hr
    exacts [iha ha hr, ihb hb hr]

theorem mem_refs_of_subst (h : e.subst f = .ok e') (hr : r' ∈ e'.refs) :
    ∃ r ∈ e.refs, ∃ e₀, f r = .ok e₀ ∧ r' ∈ e₀.refs := by
  induction e generalizing e' with
  | const v => cases h; cases hr
  | ref r => exact ⟨r, by simp [refs], e', h, hr⟩
  | unary op a ih =>
    obtain ⟨a', ha, rfl⟩ := subst_unary_eq_ok h
    exact ih ha hr
  | binary op a b iha ihb =>
    obtain ⟨a', b', ha, hb, rfl⟩ := subst_binary_eq_ok h
    rcases List.mem_append.1 hr with hr | hr
    · obtain ⟨r, hmem, he⟩ := iha ha hr
      exact ⟨r, List.mem_append_left _ hmem, he⟩
    · obtain ⟨r, hmem, he⟩ := ihb hb hr
      exact ⟨r, List.mem_append_right _ hmem, he⟩

theorem subst_eq_self (h : ∀ r ∈ e.refs, f r = .ok (ref r)) : e.subst f = .ok e := by
  induction e with
  | const v => rfl
  | ref r => exact h r (by simp [refs])
  | unary op a ih => rw [subst, ih h]; rfl
  | binary op a b iha ihb =>
    simp only [refs, List.mem_append] at h
    rw [subst, iha fun r hr => h r (.inl hr), ihb fun r hr => h r (.inr hr)]
    rfl

theorem isExact_of_subst (he : e.isExact) (hf : ∀ r e₀, f r = .ok e₀ → e₀.isExact)
    (h : e.subst f = .ok e') : e'.isExact := by
  induction e generalizing e' with
  | const v => cases h; exact he
  | ref r => exact hf r e' h
  | unary op a ih =>
    obtain ⟨a', ha, rfl⟩ := subst_unary_eq_ok h
    simpa [isExact] using ih he ha
  | binary op a b iha ihb =>
    simp only [isExact, Bool.and_eq_true] at he
    obtain ⟨a', b', ha, hb, rfl⟩ := subst_binary_eq_ok h
    simp [isExact, iha he.1 ha, ihb he.2 hb]

end

end Expr

theorem requireAll_eq_ok {rs : List ColumnRef} :
    requireAll columns rs = .ok () ↔ ∀ r ∈ rs, ∃ i, resolve columns r = .ok (some i) := by
  induction rs with
  | nil => simp [requireAll]
  | cons r rs ih =>
    simp only [requireAll, resolveRequired, Result.bind_eq_ok, List.forall_mem_cons, ← ih]
    constructor
    · rintro ⟨i, ⟨o, ho, hi⟩, h⟩
      match o, hi with
      | some j, _ => exact ⟨⟨j, ho⟩, h⟩
    · rintro ⟨⟨i, hi⟩, h⟩
      exact ⟨i, ⟨some i, hi, rfl⟩, h⟩

/-- A reference is renamed to a reference: the full name of a column, or itself. -/
theorem renameRef_eq_ok : renameRef source target r = .ok e ↔
    (∃ i c, resolve source r = .ok (some i) ∧ target[i]? = some c ∧ e = .ref c.ref) ∨
    (∃ i, resolve source r = .ok (some i) ∧ target[i]? = none ∧ e = .ref r) ∨
    (resolve source r = .ok none ∧ e = .ref r) := by
  unfold renameRef
  match resolve source r with
  | .error cause => simp
  | .ok none => simp [eq_comm]
  | .ok (some i) =>
    cases h : target[i]? with
    | none => simp only [Result.ok_bind, h, Result.pure_eq, Except.ok.injEq]; grind
    | some c => simp only [Result.ok_bind, h, Result.pure_eq, Except.ok.injEq]; grind

theorem isExact_of_renameRef (h : renameRef source target r = .ok e) : e.isExact := by
  rcases renameRef_eq_ok.1 h with ⟨_, _, -, -, rfl⟩ | ⟨_, -, -, rfl⟩ | ⟨-, rfl⟩ <;> rfl

namespace Expr

theorem isExact_of_rename (he : e.isExact) (h : e.rename source target = .ok e') : e'.isExact :=
  isExact_of_subst he (fun _ _ => isExact_of_renameRef) h

/-- Full names are their own full names. -/
theorem qualify_qualify (h : e.qualify columns = .ok e') : e'.qualify columns = .ok e' := by
  refine subst_eq_self fun r' hr' => ?_
  obtain ⟨r, -, e₀, he₀, hr'⟩ := mem_refs_of_subst h hr'
  rcases renameRef_eq_ok.1 he₀ with ⟨i, c, hi, hc, rfl⟩ | ⟨i, hi, hnone, rfl⟩ | ⟨hi, rfl⟩
  · obtain rfl : r' = c.ref := by simpa [refs] using hr'
    exact renameRef_eq_ok.2 (.inl ⟨i, c, resolve_ref hi hc, hc, rfl⟩)
  · obtain rfl : r' = r := by simpa [refs] using hr'
    exact he₀
  · obtain rfl : r' = r := by simpa [refs] using hr'
    exact he₀

theorem resolvesWithin_eq_true :
    e.resolvesWithin columns = .ok true ↔ ∀ r ∈ e.refs, ∃ i, resolve columns r = .ok (some i) := by
  unfold resolvesWithin
  induction e.refs with
  | nil => simp [allResolve]
  | cons r rs ih =>
    simp only [allResolve, Result.bind_eq_ok, List.mem_cons, forall_eq_or_imp]
    constructor
    · rintro ⟨_ | i, ho, h⟩
      · cases h
      · exact ⟨⟨i, ho⟩, ih.1 h⟩
    · rintro ⟨⟨i, hi⟩, h⟩
      exact ⟨some i, hi, ih.2 h⟩

end Expr

end RelPlan

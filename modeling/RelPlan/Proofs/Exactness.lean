import RelPlan.Expr.Eval
import RelPlan.Proofs.KeyOrder
import RelPlan.Proofs.Results

/-!
# Evaluation over exact data

Expressions whose constants are exact have exact values on exact rows (`evalWith_isExact`), so the
keys of rows are keys in the sense of `IsKey`.  The value of an expression depends on nothing but
the values of its references (`evalWith_congr`).
-/

namespace RelPlan

variable {v w : Value}

namespace Value

@[simp] theorem isExact_null : Value.null.isExact := rfl

@[simp] theorem isExact_bool (b : Bool) : (Value.bool b).isExact := rfl

@[simp] theorem isExact_int (n : Int64) : (Value.int n).isExact := rfl

@[simp] theorem isExact_ofTruth (b : Option Bool) : (ofTruth b).isExact := by
  cases b <;> rfl

theorem isExact_of_ofIntChecked {n : Int} (h : ofIntChecked n = .ok v) : v.isExact := by
  unfold ofIntChecked at h
  split at h <;> cases h
  rfl

end Value

theorem UnaryOp.isExact_apply {op : UnaryOp} (hv : v.isExact) (h : op.apply v = .ok w) :
    w.isExact := by
  cases op with
  | not =>
    obtain ⟨b, -, h⟩ := Result.bind_eq_ok.1 h
    cases h
    exact Value.isExact_ofTruth _
  | negate =>
    cases v <;> simp only [apply, reduceCtorEq] at h
    · cases h; rfl
    · exact Value.isExact_of_ofIntChecked h
    · exact absurd hv (by simp [Value.isExact])
  | isNull | isNotNull => cases h; rfl

theorem Arith.isExact_applyInt {op : Arith} {a b : Int} (h : op.applyInt a b = .ok v) :
    v.isExact := by
  cases op <;> simp only [applyInt] at h
  case div =>
    split at h
    · cases h
    · exact Value.isExact_of_ofIntChecked h
  all_goals exact Value.isExact_of_ofIntChecked h

theorem Arith.isExact_apply {op : Arith} {a b : Value} (ha : a.isExact) (hb : b.isExact)
    (h : op.apply a b = .ok v) : v.isExact := by
  cases a <;> cases b <;>
    simp only [apply, Value.toBinary64?, Value.isExact, Except.ok.injEq, reduceCtorEq,
      Bool.false_eq_true] at h ha hb
  all_goals first
    | exact Arith.isExact_applyInt h
    | (subst h; rfl)

theorem Comparison.isExact_apply {c : Comparison} {a b : Value} (h : c.apply a b = .ok v) :
    v.isExact := by
  obtain ⟨o, -, h⟩ := Result.bind_eq_ok.1 h
  cases h
  exact Value.isExact_ofTruth _

namespace Expr

/-- No constant of the expression is a binary64 datum. -/
def isExact : Expr → Bool
  | const v => v.isExact
  | ref _ => true
  | unary _ e => e.isExact
  | binary _ l r => l.isExact && r.isExact

variable {env env' : ColumnRef → Result Value} {e : Expr}

/-- Exact expressions are worth exact values where their references are. -/
theorem evalWith_isExact (he : e.isExact) (henv : ∀ r v, env r = .ok v → v.isExact)
    (h : e.evalWith env = .ok v) : v.isExact := by
  fun_induction evalWith env e generalizing v with
  | case1 w => cases h; exact he
  | case2 r => exact henv r v h
  | case3 op e ih =>
    obtain ⟨w, hw, h⟩ := Result.bind_eq_ok.1 h
    exact UnaryOp.isExact_apply (ih he hw) h
  | case4 l r | case5 l r =>
    obtain ⟨w, -, h⟩ := Result.bind_eq_ok.1 h
    obtain ⟨a, -, h⟩ := Result.bind_eq_ok.1 h
    split at h
    · cases h; rfl
    · obtain ⟨w', -, h⟩ := Result.bind_eq_ok.1 h
      obtain ⟨b, -, h⟩ := Result.bind_eq_ok.1 h
      cases h
      exact Value.isExact_ofTruth _
  | case6 c l r =>
    obtain ⟨a, -, h⟩ := Result.bind_eq_ok.1 h
    obtain ⟨b, -, h⟩ := Result.bind_eq_ok.1 h
    exact Comparison.isExact_apply h
  | case7 op l r ihl ihr =>
    simp only [isExact, Bool.and_eq_true] at he
    obtain ⟨a, ha, h⟩ := Result.bind_eq_ok.1 h
    obtain ⟨b, hb, h⟩ := Result.bind_eq_ok.1 h
    exact Arith.isExact_apply (ihl he.1 ha) (ihr he.2 hb) h
  | case8 l r =>
    obtain ⟨a, -, h⟩ := Result.bind_eq_ok.1 h
    obtain ⟨b, -, h⟩ := Result.bind_eq_ok.1 h
    cases h
    rfl

theorem evalWith_congr (h : ∀ r ∈ e.refs, env r = env' r) : e.evalWith env = e.evalWith env' := by
  fun_induction evalWith env e with
  | case1 w => rfl
  | case2 r => exact h r (by simp [refs])
  | case3 op e ih => rw [evalWith, ih h]
  | case4 l r ihl ihr | case5 l r ihl ihr | case6 _ l r ihl ihr | case7 _ l r ihl ihr
  | case8 l r ihl ihr =>
    simp only [refs, List.mem_append] at h
    rw [evalWith, ihl fun x hx => h x (.inl hx), ihr fun x hx => h x (.inr hx)]

end Expr

/-- No value of the row is a binary64 datum. -/
def Row.IsExact (row : Row) : Prop := ∀ v ∈ row.values, v.isExact

/-- No value in the rows of the scope is a binary64 datum. -/
def Scope.IsExact (scope : Scope) : Prop := ∀ row ∈ scope.rows, row.IsExact

instance (row : Row) : Decidable row.IsExact :=
  inferInstanceAs (Decidable (∀ v ∈ row.values, v.isExact))

instance (scope : Scope) : Decidable scope.IsExact :=
  inferInstanceAs (Decidable (∀ row ∈ scope.rows, row.IsExact))

theorem Scope.isExact_empty : Scope.empty.IsExact := by simp [IsExact, empty]

theorem Scope.IsExact.push {scope : Scope} {row : Row} (hs : scope.IsExact) (hr : row.IsExact) :
    (scope.push row).IsExact := by
  rintro r (_ | ⟨_, hr'⟩)
  exacts [hr, hs r hr']

theorem Row.IsExact.lookup {row : Row} {r : ColumnRef} (h : row.IsExact)
    (hv : row.lookup r = .ok (some v)) : v.isExact := by
  obtain ⟨o, ho, hv⟩ := Result.bind_eq_ok.1 hv
  match o, hv with
  | some i, hv => exact h v (List.mem_of_getElem? (Except.ok.inj hv))

theorem Scope.IsExact.lookup {scope : Scope} {r : ColumnRef} (h : scope.IsExact)
    (hv : scope.lookup r = .ok v) : v.isExact := by
  obtain ⟨rows⟩ := scope
  induction rows with
  | nil => cases hv
  | cons row rows ih =>
    obtain ⟨o, ho, hv⟩ := Result.bind_eq_ok.1 hv
    match o, hv with
    | some w, hv =>
      cases hv
      exact (h row (by simp)).lookup ho
    | none, hv => exact ih (fun r hr => h r (by simp [hr])) hv

namespace Expr

variable {scope : Scope} {row : Row} {e : Expr}

theorem eval_isExact (he : e.isExact) (hs : scope.IsExact) (h : e.eval scope = .ok v) :
    v.isExact :=
  evalWith_isExact he (fun _ _ => hs.lookup) h

theorem evalRow_isExact (he : e.isExact) (hs : scope.IsExact) (hr : row.IsExact)
    (h : e.evalRow scope row = .ok v) : v.isExact :=
  eval_isExact he (hs.push hr) h

theorem isKey_evalAll {es : List Expr} {key : List Value} (he : ∀ e ∈ es, e.isExact)
    (hs : scope.IsExact) (hr : row.IsExact) (h : evalAll scope row es = .ok key) :
    IsKey es.length key := by
  have hall := Result.mapM_eq_ok.1 h
  refine ⟨hall.length_eq.symm, fun v hv => ?_⟩
  obtain ⟨i, hi, rfl⟩ := List.getElem_of_mem hv
  have hi' : i < es.length := hall.length_eq ▸ hi
  exact evalRow_isExact (he _ (List.getElem_mem hi')) hs hr (hall.get hi' hi)

end Expr

end RelPlan

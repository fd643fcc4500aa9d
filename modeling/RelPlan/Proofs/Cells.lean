import RelPlan.Proofs.Resolution
import RelPlan.Proofs.Worth

/-!
# References on a row

Over columns and cells a reference is worth the cell of the column that it means, what it is worth
outside if it means none, and nothing if it means several.  A cell may be missing, as the one of an
output whose evaluation would fail.  Rows are the case where none is (`Row.env_eq`).
-/

namespace RelPlan

/-- What references are worth over the given columns and cells, inside an environment. -/
def cellsEnv (columns : List Column) (outer : Env) (cells : List (Option Value)) : Env := fun r =>
  match resolve columns r with
  | .ok (some i) => cells[i]?.join
  | .ok none => outer r
  | .error _ => none

variable {columns : List Column} {outer outer' : Env} {cells : List (Option Value)}
  {r : ColumnRef} {i : Nat} {e : Expr}

@[simp] theorem cellsEnv_some (h : resolve columns r = .ok (some i)) :
    cellsEnv columns outer cells r = cells[i]?.join := by
  simp [cellsEnv, h]

@[simp] theorem cellsEnv_none (h : resolve columns r = .ok none) :
    cellsEnv columns outer cells r = outer r := by
  simp [cellsEnv, h]

theorem isExact_cellsEnv (ho : outer.IsExact) (hc : ∀ v, some v ∈ cells → v.isExact) :
    (cellsEnv columns outer cells).IsExact := by
  intro r v h
  unfold cellsEnv at h
  split at h
  · next i _ =>
    exact hc v (List.mem_of_getElem? (Option.join_eq_some_iff.1 h))
  · exact ho r v h
  · cases h

namespace Scope

theorem IsExact.env {scope : Scope} (h : scope.IsExact) : scope.env.IsExact :=
  fun _ _ hv => h.lookup (Expr.toOption_eq_some.1 hv)

@[simp] theorem env_empty (r : ColumnRef) : Scope.empty.env r = none := rfl

/-- What is found in the innermost rows is found whatever rows are added further out. -/
theorem lookup_mono {inner scope : Scope} {v : Value} (h : inner.rows <+: scope.rows)
    (hv : inner.lookup r = .ok v) : scope.lookup r = .ok v := by
  obtain ⟨outer, houter⟩ := h
  unfold lookup at *
  rw [← houter]
  generalize inner.rows = rows at hv
  induction rows with
  | nil => cases hv
  | cons row rows ih =>
    obtain ⟨found, hfound, hv⟩ := Result.bind_eq_ok.1 hv
    rw [List.cons_append, lookupIn, hfound, Result.ok_bind]
    cases found with
    | some w => exact hv
    | none => exact ih hv

end Scope

namespace Row

variable {row : Row} {scope : Scope}

theorem make_eq_ok {vs : List Value} (h : make columns vs = .ok row) :
    row.columns = columns ∧ row.values = vs ∧ row.tid = none := by
  unfold make at h
  split at h <;> cases h
  exact ⟨rfl, rfl, rfl⟩

theorem env_eq (scope : Scope) (row : Row) :
    row.env scope = cellsEnv row.columns scope.env (row.values.map some) := by
  funext r
  show ((scope.push row).lookup r).toOption = _
  rcases h : resolve row.columns r with cause | (_ | i)
  · rw [Scope.lookup_push_of_error h]
    simp [cellsEnv, h, Except.toOption]
  · rw [Scope.lookup_push_of_none h, cellsEnv_none h, Scope.env]
  · obtain ⟨v, hv⟩ := Row.exists_value h
    rw [Scope.lookup_push_of_some h hv, cellsEnv_some h]
    simp [hv, Except.toOption]

theorem env_of_resolve_none (h : resolve row.columns r = .ok none) :
    row.env scope r = scope.env r := by
  rw [env_eq, cellsEnv_none h]

theorem env_of_resolve_some (h : resolve row.columns r = .ok (some i)) :
    row.env scope r = row.values[i]? := by
  have hi : i < row.values.length := row.aligned ▸ lt_of_resolve h
  rw [env_eq, cellsEnv_some h]
  simp [hi]

end Row

namespace Expr

variable {row : Row} {scope scope' : Scope}

/-- An expression over the columns of a row alone does not depend on the scope. -/
theorem worth_of_resolves (h : ∀ r ∈ e.refs, ∃ k, resolve row.columns r = .ok (some k)) :
    e.worth (row.env scope) = e.worth (row.env scope') := by
  refine worth_congr fun r hr => ?_
  obtain ⟨k, hk⟩ := h r hr
  rw [Row.env_of_resolve_some hk, Row.env_of_resolve_some hk]

theorem readsAny_eq_false :
    e.readsAny columns = .ok false ↔ ∀ r ∈ e.refs, resolve columns r = .ok none := by
  unfold readsAny
  induction e.refs with
  | nil => simp [anyResolves]
  | cons r rs ih =>
    simp only [anyResolves, Result.bind_eq_ok, List.mem_cons, forall_eq_or_imp]
    constructor
    · rintro ⟨_ | i, ho, h⟩
      · exact ⟨ho, ih.1 h⟩
      · cases h
    · rintro ⟨hr, h⟩
      exact ⟨none, hr, ih.2 h⟩

theorem worth_of_readsAny (h : e.readsAny row.columns = .ok false) :
    e.worth (row.env scope) = e.worth scope.env :=
  worth_congr fun r hr => Row.env_of_resolve_none (readsAny_eq_false.1 h r hr)

/-- What evaluation yields is the worth also when rows are added further out. -/
theorem worth_of_evalRow_inner {inner : Scope} {v : Value} (h : inner.rows <+: scope.rows)
    (hv : e.evalRow inner row = .ok v) : e.worth (row.env scope) = some v := by
  have hpush : (inner.push row).rows <+: (scope.push row).rows :=
    List.cons_prefix_cons.2 ⟨rfl, h⟩
  refine worth_mono (fun r w hw => ?_) (worth_of_evalRow hv)
  exact toOption_eq_some.2 (Scope.lookup_mono hpush (toOption_eq_some.1 hw))

theorem evalRow_of_resolves (h : ∀ r ∈ e.refs, ∃ k, resolve row.columns r = .ok (some k)) :
    e.evalRow scope row = e.evalRow scope' row := by
  refine evalWith_congr fun r hr => ?_
  obtain ⟨k, hk⟩ := h r hr
  obtain ⟨v, hv⟩ := Row.exists_value hk
  rw [Scope.lookup_push_of_some hk hv, Scope.lookup_push_of_some hk hv]

theorem evalRow_of_readsAny (h : e.readsAny row.columns = .ok false) :
    e.evalRow scope row = e.eval scope := by
  exact evalWith_congr fun r hr => Scope.lookup_push_of_none (readsAny_eq_false.1 h r hr)

end Expr

end RelPlan

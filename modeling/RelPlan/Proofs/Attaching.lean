import RelPlan.Proofs.IndexRows

/-!
# Attaching an index

Each expression of an attached index is one of its expressions with full names, which are names of
the columns, and the types that are kept for its keys are those of the keys on rows of the columns
(`Index.exprs_of_attach`, `Index.typed_of_attach`).
-/

namespace RelPlan

/-- Values are checked against the types of the keys on rows of the columns. -/
def BaseIndex.Typed (columns : List Column) : BaseIndex → Prop
  | ordered i => i.keyTypes = i.keys.map (Expr.typeIn columns)
  | hashed i => i.keyType = i.key.typeIn columns

namespace Index

variable {i i' : Index} {b b' : BaseIndex} {columns : List Column} {name : String} {e q : Expr}

theorem attachExpr_eq_ok (h : attachExpr name columns e = .ok q) :
    e.qualify columns = .ok q ∧ ∀ r ∈ q.refs, ∃ k, resolve columns r = .ok (some k) := by
  unfold attachExpr at h
  split at h
  · cases h
  · next q' hq =>
    split at h <;> cases h
    next hall => exact ⟨hq, Expr.resolvesWithin_eq_true.1 hall⟩

theorem attachExprs_eq_ok {es qs : List Expr} (h : attachExprs name columns es = (qs, .ok ())) :
    ∀ q ∈ qs, ∃ e ∈ es, attachExpr name columns e = .ok q := by
  induction es generalizing qs with
  | nil => cases h; simp
  | cons e es ih =>
    unfold attachExprs at h
    split at h
    · cases h
    · next q hq =>
      match heq : attachExprs name columns es with
      | (qs', r) =>
        rw [heq] at h
        obtain ⟨rfl, rfl⟩ := Prod.mk.inj h
        refine List.forall_mem_cons.2 ⟨⟨e, List.mem_cons_self, hq⟩, fun q hq => ?_⟩
        exact (ih heq q hq).imp fun _ => And.imp_left (List.mem_cons_of_mem _)

theorem attachBase_eq_ok (h : attachBase columns b = (b', .ok ())) :
    (∀ q ∈ exprs ⟨none, b'⟩, ∃ e ∈ exprs ⟨none, b⟩, attachExpr b.name columns e = .ok q) ∧
      b'.Typed columns ∧ (HoldsNothing ⟨none, b⟩ → HoldsNothing ⟨none, b'⟩) := by
  unfold attachBase at h
  split at h
  · next i =>
    split at h
    · cases h
    · split at h <;> cases h
      next keys heq => exact ⟨attachExprs_eq_ok heq, rfl, id⟩
  · next i =>
    split at h <;> cases h
    next key heq =>
      refine ⟨fun q hq => ⟨i.key, by simp [exprs], ?_⟩, rfl, id⟩
      obtain rfl : q = key := by simpa [exprs] using hq
      exact heq

theorem attach_eq_ok (h : i.attach columns = (i', .ok ())) :
    attachBase columns i.base = (i'.base, .ok ()) ∧
      List.Forall₂ (fun e q => attachExpr i.name columns e = .ok q) i.condition.toList
        i'.condition.toList := by
  rcases hb : attachBase columns i.base with ⟨b, r⟩
  unfold attach at h
  simp only [hb] at h
  split at h
  · next hc =>
    obtain ⟨rfl, rfl⟩ := Prod.mk.inj h
    exact ⟨rfl, by simp [hc]⟩
  · next c hc =>
    split at h
    · cases h
    · next q hq =>
      obtain ⟨rfl, rfl⟩ := Prod.mk.inj h
      exact ⟨rfl, by simpa [hc] using hq⟩

theorem exprs_of_attach (h : i.attach columns = (i', .ok ())) :
    ∀ q ∈ i'.exprs, ∃ e ∈ i.exprs, attachExpr i.name columns e = .ok q := by
  obtain ⟨hbase, hcond⟩ := attach_eq_ok h
  intro q hq
  rcases List.mem_append.1 hq with hq | hq
  · obtain ⟨e, he, heq⟩ := exists_of_forall₂ hcond hq
    exact ⟨e, List.mem_append_left _ he, heq⟩
  · obtain ⟨e, he, heq⟩ := (attachBase_eq_ok hbase).1 q (by simpa [exprs] using hq)
    exact ⟨e, List.mem_append_right _ (by simpa [exprs] using he), heq⟩

theorem typed_of_attach (h : i.attach columns = (i', .ok ())) : i'.base.Typed columns :=
  (attachBase_eq_ok (attach_eq_ok h).1).2.1

theorem HoldsNothing.attach (h0 : i.HoldsNothing) (h : i.attach columns = (i', .ok ())) :
    i'.HoldsNothing :=
  (attachBase_eq_ok (attach_eq_ok h).1).2.2 h0

end Index

end RelPlan

import RelPlan.Proofs.Deliveries

/-!
# Plans read to the end

A settled plan whose scan drains has delivered everything: the rows that pass what it leaves over
stand for the records that meet the condition that it was handed (`Settles.of_drain`).
-/

namespace RelPlan

variable {scope : Scope} {p p' q : Plan} {f : Filter} {o : Option SortOrder} {rows rows' : List Row}

theorem Row.biUnique_stands (columns : List Column) : Relator.BiUnique (Row.Stands columns) := by
  constructor
  · rintro ⟨_, vs, tid, _⟩ ⟨_, ws, tid', _⟩ x ⟨rfl, rfl⟩ ⟨rfl, hx⟩
    obtain ⟨hvs, rfl⟩ := Record.mk.inj hx
    obtain rfl := List.map_injective_iff.2 (fun _ _ => Option.some.inj) hvs
    rfl
  · rintro row x y ⟨-, rfl⟩ ⟨-, rfl⟩
    rfl

namespace Plan

/-- The rows of an optimized plan that pass a filter, in a scope of outer rows. -/
def drain (p : Plan) (scope : Scope) (f : Filter) : Result (List Row) := do
  let o ← (p.scan scope).result
  ((o.filter scope f).scan ()).drain.result

theorem execute_eq_ok (h : p.execute.2.result = .ok rows) :
    p.optimize.2.result = .ok () ∧
      p.optimize.1.drain .empty p.optimize.1.residual = .ok rows := by
  simp only [execute, Logged.result_bind] at h
  obtain ⟨⟨⟩, hopt, h⟩ := Result.bind_eq_ok.1 h
  exact ⟨hopt, h⟩

/-- Rows that stand for the records of a plan which meet a condition, in the plan's own order and,
where it does not leave it unmet, in the order wanted. -/
structure Drained (p : Plan) (o : Option SortOrder) (q : Plan) (scope : Scope)
    (Φ : List (Option Value) → Bool) (rows : List Row) (U : List Record) : Prop where
  stands : List.Forall₂ (Row.Stands p.columns) rows U
  perm : U.Perm (p.records.filter fun x => Φ x.cells)
  own : p.ownOrder.Sorted (U.map (Record.env p.columns scope.env))
  sorted : q.unmet = none → ∀ o' ∈ o, o'.Sorted (U.map (Record.env p.columns scope.env))

theorem Settles.of_drain (h : Settles p f o q) (hp : p.Built) (hx : p.IsExact) (hf : f.IsExact)
    (ho : ∀ o' ∈ o, o'.IsExact ∧ o'.Bound p.columns) (hs : scope.IsExact)
    (hdrain : q.drain scope q.residual = .ok rows) {Φ : List (Option Value) → Bool}
    (hΦ : ∀ x ∈ p.records, f.Admits p.columns scope.env x.cells (Φ x.cells)) :
    ∃ U, p.Drained o q scope Φ rows U := by
  obtain ⟨opened, hscan, hrows⟩ := Result.bind_eq_ok.1 hdrain
  obtain ⟨Ψ, U, hd⟩ := (h.delivers hp hx hf ho).delivery (fun _ => hs) hscan Φ hΦ
  have hsub : ((U.filter fun x => Ψ x.cells).map (Record.env p.columns scope.env)).Sublist
      (U.map (Record.env p.columns scope.env)) := List.filter_sublist.map _
  exact ⟨_, hd.checked.drain hrows, hd.perm, (hd.own trivial).sublist hsub,
    fun hunmet o' ho' => (hd.sorted trivial hunmet o' ho').sublist hsub⟩

theorem perm_of_stands {columns : List Column} {U U' : List Record}
    (h : List.Forall₂ (Row.Stands columns) rows U) (h' : List.Forall₂ (Row.Stands columns) rows' U')
    (hU : U.Perm U') : rows.Perm rows' :=
  (List.rel_perm (Row.biUnique_stands columns) h h').2 hU

/-- An executed plan yields rows for its records. -/
theorem Built.stands_execute (hp : p.Built) (hx : p.IsExact)
    (hrun : p.execute.2.result = .ok rows) :
    ∃ U, List.Forall₂ (Row.Stands p.columns) rows U ∧ U.Perm p.records := by
  obtain ⟨hopt, hdrain⟩ := execute_eq_ok hrun
  obtain ⟨U, hU⟩ := (hp.assembled.settles_alone hopt).of_drain hp hx Filter.isExact_none (by simp)
    Scope.isExact_empty hdrain (Φ := fun _ => true) fun _ _ => .none rfl
  have hperm := hU.perm
  rw [List.filter_true] at hperm
  exact ⟨U, hU.stands, hperm⟩

end Plan

end RelPlan

import RelPlan.Proofs.HandedOrders
import RelPlan.Proofs.Residuals
import RelPlan.Proofs.SettledScans

/-!
# What a settled plan delivers

The filter handed to a plan admits a condition on each of its records.  The settled plan shows some
of the records, and what it leaves over admits a condition too; the records shown that meet the one
are, in some order, the records that meet the other (`Opened.Share`).  Whoever checks what is left
over therefore gets the records that meet the condition, whatever was done with the filter.  Where
no order is left unmet, exact records come in the order wanted (`Plan.Delivery`).
-/

namespace RelPlan

variable {scope : Scope} {opened : Opened} {f : Filter} {o : Option SortOrder}

theorem Row.Stands.reshape {columns columns' : List Column} {row row' : Row} {x : Record}
    (h : row.Stands columns x) (hreshape : row.reshape columns' = .ok row') :
    row'.Stands columns' x.bare := by
  obtain ⟨-, rfl⟩ := h
  obtain ⟨hcols, hvalues, htid⟩ := Row.make_eq_ok hreshape
  exact ⟨hcols, by simp [Row.record, Record.bare, hvalues, htid]⟩

namespace Opened

variable {columns columns' : List Column} {U : List Record}

/-- Checking a filter shows the records that meet the condition which it admits. -/
theorem shows_admitted {Ψ : List (Option Value) → Bool}
    (h : (opened.scan ()).Shows (Row.Stands columns) U)
    (hf : ∀ x ∈ U, f.Admits columns scope.env x.cells (Ψ x.cells)) :
    ((opened.filter scope f).scan ()).Shows (Row.Stands columns) (U.filter fun x => Ψ x.cells) := by
  cases f with
  | none =>
    have hall : (U.filter fun x => Ψ x.cells) = U :=
      List.filter_eq_self.2 fun x hx => (hf x hx).sound Filter.passes_none
    rw [hall]
    exact h
  | some e =>
    have hfilter := h.mem.filter (p := fun row => e.holds scope row)
      (q := fun x => Ψ x.cells = true)
      fun row x ⟨hrow, hx⟩ b hb => ?_
    · simp only [Bool.decide_eq_true] at hfilter
      exact hfilter.mono fun _ _ h => h.1
    · have hadm := hf x hx
      obtain ⟨rfl, rfl⟩ := hrow
      exact hadm.decides hb

theorem shows_reshape (h : (opened.scan ()).Shows (Row.Stands columns) U) :
    ((opened.reshape columns').scan ()).Shows (Row.Stands columns') (U.map Record.bare) :=
  h.map fun _ _ hrow _ hreshape => hrow.reshape hreshape

/-- The scan shows some of the records `X`, and of the condition `Φ` on them it leaves the condition
`Ψ` over, which the filter `left` admits. -/
structure Share (opened : Opened) (columns : List Column) (scope : Scope) (left : Filter)
    (X : List Record) (Φ Ψ : List (Option Value) → Bool) (U : List Record) : Prop where
  sub : U ⊆ X
  shows : (opened.scan ()).Shows (Row.Stands columns) U
  residual : ∀ x ∈ U, left.Admits columns scope.env x.cells (Ψ x.cells)
  perm : (U.filter fun x => Ψ x.cells).Perm (X.filter fun x => Φ x.cells)

variable {left : Filter} {X : List Record} {Φ Ψ : List (Option Value) → Bool}

/-- Checking what is left over shows the records that meet the condition. -/
theorem Share.checked (h : opened.Share columns scope left X Φ Ψ U) :
    ((opened.filter scope left).scan ()).Shows (Row.Stands columns) (U.filter fun x => Ψ x.cells) :=
  shows_admitted h.shows h.residual

theorem Share.perm_of_none (h : opened.Share columns scope none X Φ Ψ U) :
    U.Perm (X.filter fun x => Φ x.cells) := by
  have hall : U.filter (fun x => Ψ x.cells) = U := List.filter_eq_self.2 fun x hx =>
    (h.residual x hx).sound Filter.passes_none
  exact hall ▸ h.perm

theorem Share.checked_sub (h : opened.Share columns scope left X Φ Ψ U) :
    (U.filter fun x => Ψ x.cells) ⊆ X := List.Subset.trans (List.filter_subset_self _) h.sub

end Opened

namespace Plan

/-- The order that a sort was built with. -/
def ownOrder : Plan → SortOrder
  | stage _ (.sort order _ _) _ => order
  | _ => .empty

variable {exact : Prop}

/-- The share of a plan's records that an opened scan of it shows, in the order wanted if the data
are exact. -/
structure Delivery (exact : Prop) (p : Plan) (o : Option SortOrder) (q : Plan) (scope : Scope)
    (opened : Opened) (Φ Ψ : List (Option Value) → Bool) (U : List Record) : Prop
    extends opened.Share p.columns scope q.residual p.records Φ Ψ U where
  own : exact → p.ownOrder.Sorted (U.map (Record.env p.columns scope.env))
  sorted : exact → q.unmet = none → ∀ o' ∈ o, o'.Sorted (U.map (Record.env p.columns scope.env))

/-- Whatever condition is admitted by what the plan was handed is delivered.  Where the data are
said to be `exact`, they are in the records and have to be in the scope. -/
structure Delivers (exact : Prop) (p : Plan) (f : Filter) (o : Option SortOrder) (q : Plan) :
    Prop where
  fits : exact → ∀ x ∈ p.records, x.Fits p.columns
  delivery : ∀ {scope : Scope} {opened : Opened}, (exact → scope.IsExact) →
    (q.scan scope).result = .ok opened → ∀ Φ : List (Option Value) → Bool,
      (∀ x ∈ p.records, f.Admits p.columns scope.env x.cells (Φ x.cells)) →
        ∃ Ψ U, Delivery exact p o q scope opened Φ Ψ U

theorem filter_map_bare (P : List (Option Value) → Bool) (xs : List Record) :
    ((xs.map Record.bare).filter fun x => P x.cells) =
      (xs.filter fun x => P x.cells).map Record.bare := by
  rw [List.filter_map]
  rfl

theorem mem_of_mem_taken {o' : SortOrder} (h : o' ∈ SortOrder.taken o) : o' ∈ o := by
  obtain ⟨o₁, rfl, htaken⟩ := Option.bind_eq_some_iff.1 h
  rw [SortOrder.request] at htaken
  split at htaken <;> cases htaken
  rfl

theorem sorted_of_taken {envs : List Env} (h : ∀ o' ∈ SortOrder.taken o, o'.Sorted envs) :
    ∀ o' ∈ o, o'.Sorted envs := by
  rintro o' rfl
  by_cases hempty : o'.isEmpty
  · exact .of_isEmpty hempty envs
  · exact h o' (by simp [SortOrder.request, hempty])

theorem sorted_of_taken_eq_none (h : SortOrder.taken o = none) (envs : List Env) :
    ∀ o' ∈ o, o'.Sorted envs :=
  sorted_of_taken fun o' ho' => by simp [h] at ho'

/-- An order that is not left unmet is subsumed by the one that is guaranteed. -/
theorem sorted_of_unmet_eq_none {guaranteed : SortOrder} {envs : List Env}
    (h : SortOrder.unmet o guaranteed = none) (hs : guaranteed.Sorted envs) :
    ∀ o' ∈ o, o'.Sorted envs := by
  rintro o' rfl
  by_cases hempty : o'.isEmpty
  · exact .of_isEmpty hempty envs
  · have hsub : guaranteed.subsumes o' := by
      simpa [SortOrder.unmet, hempty] using h
    exact hs.of_subsumes hsub

end Plan

end RelPlan

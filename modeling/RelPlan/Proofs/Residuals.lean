import RelPlan.Proofs.HandingOn
import RelPlan.Proofs.Settling

/-!
# What is left over

What a settled plan leaves over is made of what it was handed: its references are references that
were handed down, or full names of the columns that these mean (`Settles.refsIn_residual`).  This is
why what comes up through a renaming means under the old names again what it meant when it was
handed down (`Returns`).
-/

namespace RelPlan

variable {columns source target : List Column} {e : Expr} {f g k : Filter} {r : ColumnRef}
  {G : ColumnRef → Prop}

/-- The condition holds of the full name of whatever column it holds a name of. -/
def Qualified (columns : List Column) (G : ColumnRef → Prop) : Prop :=
  ∀ r i c, G r → resolve columns r = .ok (some i) → columns[i]? = some c → G c.ref

/-- If the reference can be renamed, then faithfully and to what satisfies the condition. -/
def Returns (G : ColumnRef → Prop) (source target : List Column) (r : ColumnRef) : Prop :=
  ∀ e, renameRef source target r = .ok e → Faithful source target r ∧ e.RefsIn G

theorem Qualified.renameRef (hG : Qualified columns G) (hr : G r)
    (he : renameRef columns columns r = .ok e) : e.RefsIn G := by
  intro r' hr'
  rcases renameRef_eq_ok.1 he with ⟨i, c, hi, hc, rfl⟩ | ⟨i, hi, -, rfl⟩ | ⟨hi, rfl⟩
  · obtain rfl : r' = c.ref := by simpa [Expr.refs] using hr'
    exact hG r i c hr hi hc
  · obtain rfl : r' = r := by simpa [Expr.refs] using hr'
    exact hr
  · obtain rfl : r' = r := by simpa [Expr.refs] using hr'
    exact hr

theorem qualified_returns : Qualified source (Returns G source target) := by
  intro r i c hr hi hc e he
  have hsame : RelPlan.renameRef source target r = .ok e ∨ target[i]? = none := by
    cases ht : target[i]? with
    | none => exact .inr rfl
    | some d =>
      left
      rw [← he]
      simp [RelPlan.renameRef, hi, ht, resolve_ref hi hc]
  rcases hsame with hsame | hnone
  · obtain ⟨hf, hG⟩ := hr e hsame
    exact ⟨hf.ref hi hc, hG⟩
  · have hself : RelPlan.renameRef source target r = .ok (.ref r) := by
      simp [RelPlan.renameRef, hi, hnone]
    obtain ⟨⟨j, d, hj, hd, -⟩ | ⟨hnot, -⟩, -⟩ := hr _ hself
    · obtain rfl : i = j := by simpa [hi] using hj
      simp [hnone] at hd
    · simp [hi] at hnot

/-- What is handed down under new names returns under the old ones. -/
theorem returns_of_renameRef (hG : Qualified source G) (hlen : source.length = target.length)
    (hr : G r) (hm : (∃ i, resolve source r = .ok (some i)) ∨
      (resolve source r = .ok none ∧ resolve target r = .ok none))
    (he : renameRef source target r = .ok e) : e.RefsIn (Returns G target source) := by
  intro r' hr' e' he'
  rcases hm with ⟨i, hi⟩ | ⟨hs, ht⟩
  · obtain ⟨d, hd, -⟩ := exists_of_resolve hi
    obtain ⟨c, hc⟩ : ∃ c, target[i]? = some c :=
      ⟨_, List.getElem?_eq_getElem (hlen ▸ lt_of_resolve hi)⟩
    have he : Expr.ref c.ref = e := by simpa [RelPlan.renameRef, hi, hc] using he
    obtain rfl : r' = c.ref := by simpa [← he, Expr.refs] using hr'
    obtain ⟨o, ho, -⟩ := Result.bind_eq_ok.1 he'
    cases o with
    | none => exact absurd ho (resolve_ref_ne_none hc)
    | some j =>
      obtain rfl := eq_of_resolve_ref ho hc
      have he' : Expr.ref d.ref = e' := by simpa [RelPlan.renameRef, ho, hd] using he'
      refine ⟨.inl ⟨j, d, ho, hd, resolve_ref hi hd⟩, fun r₀ hr₀ => ?_⟩
      obtain rfl : r₀ = d.ref := by simpa [← he', Expr.refs] using hr₀
      exact hG r j d hr hi hd
  · have he : Expr.ref r = e := by simpa [RelPlan.renameRef, hs] using he
    obtain rfl : r' = r := by simpa [← he, Expr.refs] using hr'
    have he' : Expr.ref r' = e' := by simpa [RelPlan.renameRef, ht] using he'
    refine ⟨.inr ⟨ht, hs⟩, fun r₀ hr₀ => ?_⟩
    obtain rfl : r₀ = r' := by simpa [← he', Expr.refs] using hr₀
    exact hr

theorem Filter.refsIn_returns (hG : Qualified source G) (hlen : source.length = target.length)
    (hf : f.RefsIn G) (hm : ∀ e ∈ f, e.Movable source target)
    (h : f.rename source target = .ok g) : g.RefsIn (Returns G target source) :=
  refsIn_rename (G := fun r => G r ∧ ((∃ i, resolve source r = .ok (some i)) ∨
      (resolve source r = .ok none ∧ resolve target r = .ok none)))
    (fun _ hr _ he => returns_of_renameRef hG hlen hr.1 hr.2 he)
    (fun e he r hr => ⟨hf e he r hr, hm e he r hr⟩) h

theorem Filter.refsIn_of_returns (hf : f.RefsIn (Returns G source target))
    (h : f.rename source target = .ok g) : g.RefsIn G :=
  refsIn_rename (fun _ hr e he => (hr e he).2) hf h

namespace Plan.Settles

variable {p q : Plan} {o : Option SortOrder}

/-- What holds of all names that are handed down holds of all that are left over. -/
theorem refsIn_residual (h : Settles p f o q) (hG : Qualified p.columns G) (hf : f.RefsIn G) :
    q.residual.RefsIn G := by
  induction h generalizing G with
  | table _ hq =>
    have hf' := Filter.refsIn_rename (fun r hr e he => hG.renameRef hr he) hf hq
    exact hf'.taken.fold.diff
  | rows | filter | join => exact Filter.refsIn_none
  | sort _ _ ih => exact ih hG hf
  | project _ hsplit =>
    obtain ⟨ms, ss, -, rfl, hmem, -⟩ := Stage.splitProjected_spec hsplit
    exact Filter.refsIn_ofList.2 fun c hc => hf.taken.conjuncts c ((hmem c).2 (.inr hc))
  | cut => exact hf.taken
  | @rename name own input input' _ _ _ _ left _ _ _ hown hsplit hren _ _ hleft _ ih =>
    obtain ⟨ms, ss, rfl, rfl, hmem, hmov⟩ := Filter.split_spec hsplit
    have hmoving := Filter.refsIn_ofList.2 fun c hc => hf.conjuncts c ((hmem c).2 (.inl hc))
    have hstaying := Filter.refsIn_ofList.2 fun c hc => hf.conjuncts c ((hmem c).2 (.inr hc))
    have hcol : (input.rename name).columns = own := hown.symm
    rw [hcol] at hG
    have hdown := Filter.refsIn_returns hG (by simp [hown]) hmoving
      (Filter.movable_ofList hmov) hren
    have hup := Filter.refsIn_of_returns (ih qualified_returns hdown) hleft
    exact hstaying.taken.union hup
  | @union distinct left right left' right' f l r o d hd _ _ hleft hright ihl ihr =>
    obtain ⟨hlen, ms, ss, hkept, hfl, hfr, hmem, hmov⟩ := Union.decide_spec hd
    have hmoving := Filter.refsIn_ofList.2 fun c hc =>
      hf.taken.fold.conjuncts c ((hmem c).2 (.inl hc))
    have hstaying := Filter.refsIn_ofList.2 fun c hc =>
      hf.taken.fold.conjuncts c ((hmem c).2 (.inr hc))
    have hdown := Filter.refsIn_returns hG rfl hmoving
      (Filter.movable_ofList fun c hc => (hmov c hc).1) hfl
    have hup := Filter.refsIn_of_returns (ihl qualified_returns hdown) hleft
    exact hup.inter.union (hkept ▸ hstaying)

/-- What is left over of a filter that was handed down under other names goes back to them. -/
theorem faithful_residual (h : Settles p f o q) (hlen : source.length = p.columns.length)
    (hm : ∀ e ∈ g, e.Movable source p.columns) (hdown : g.rename source p.columns = .ok f)
    (hup : q.residual.rename p.columns source = .ok k) :
    q.residual.RefsIn (Faithful p.columns source) := by
  have hreturns := h.refsIn_residual (G := Returns (fun _ => True) p.columns source)
    qualified_returns (Filter.refsIn_returns (fun _ _ _ _ _ _ => trivial) hlen
      (fun _ _ _ _ => trivial) hm hdown)
  intro e he r hr
  rcases Result.optionMapM_eq_ok.1 hup with ⟨hnone, -⟩ | ⟨e₁, _, hsome, -, he₁⟩
  · rw [hnone] at he
    cases he
  · obtain rfl : e₁ = e := Option.some.inj (hsome.symm.trans he)
    obtain ⟨e₀, he₀⟩ := Expr.exists_of_subst he₁ hr
    exact (hreturns e₁ he r hr e₀ he₀).1

theorem movable_residual (h : Settles p f o q) (hlen : source.length = p.columns.length)
    (hm : ∀ e ∈ g, e.Movable source p.columns) (hdown : g.rename source p.columns = .ok f)
    (hup : q.residual.rename p.columns source = .ok k) :
    ∀ e ∈ q.residual, e.Movable p.columns source := by
  have houter := h.refsIn_residual
    (G := fun r => resolve p.columns r = .ok none → resolve source r = .ok none)
    (fun r i c _ hi hc hnone => by simp [resolve_ref hi hc] at hnone)
    (Filter.refsIn_rename (fun r hr e he r' hr' hnone => ?_) hm hdown)
  · intro e he r hr
    obtain ⟨_ | i, hi⟩ := Filter.clear_of_rename hup e he r hr
    · exact .inr ⟨hi, houter e he r hr hi⟩
    · exact .inl ⟨i, hi⟩
  · rcases renameRef_eq_ok.1 he with ⟨i, c, -, hc, rfl⟩ | ⟨i, hi, hi', rfl⟩ | ⟨hi, rfl⟩
    · obtain rfl : r' = c.ref := by simpa [Expr.refs] using hr'
      exact absurd hnone (resolve_ref_ne_none hc)
    · have := List.getElem?_eq_none_iff.1 hi'
      have := lt_of_resolve hi
      omega
    · obtain rfl : r' = r := by simpa [Expr.refs] using hr'
      exact hi

theorem residual_eq_none (h : Settles p f o q) (hf : f = none) : q.residual = none := by
  induction h with
  | table _ hq =>
    subst hf
    cases hq
    rfl
  | rows | filter | join => rfl
  | sort _ _ ih => exact ih hf
  | project _ hsplit =>
    subst hf
    cases hsplit
    rfl
  | cut =>
    subst hf
    rfl
  | rename _ hsplit hren _ _ hleft _ ih =>
    subst hf
    cases hsplit
    cases hren
    rw [ih rfl] at hleft
    cases hleft
    rfl
  | union hd _ _ hleft _ ihl =>
    subst hf
    obtain rfl := Union.decide_eq_of_none rfl hd
    rw [ihl rfl] at hleft
    cases hleft
    rfl

end Plan.Settles

end RelPlan

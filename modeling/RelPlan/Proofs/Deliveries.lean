import RelPlan.Proofs.JoinDeliveries
import RelPlan.Proofs.SourceDeliveries
import RelPlan.Proofs.StageDeliveries
import RelPlan.Proofs.UnionDeliveries

/-!
# Settled plans deliver

By induction on how a plan settles: whatever condition the filter handed to it admits is delivered,
node by node (`Settles.delivers`).
-/

namespace RelPlan

variable {f : Filter} {o : Option SortOrder}

theorem Stage.isExact_mapM_unproject {outputs : List Output} {g : Filter}
    (ho : ∀ out ∈ outputs, out.expr.isExact) (hf : f.IsExact)
    (h : f.mapM (unproject outputs) = .ok g) : g.IsExact := by
  rcases Result.optionMapM_eq_ok.1 h with ⟨-, rfl⟩ | ⟨e, e', rfl, rfl, he⟩
  · exact Filter.isExact_none
  · exact Filter.isExact_some.2 (isExact_unproject ho (Filter.isExact_some.1 hf) he)

namespace Plan

variable {p q : Plan} {strategy : JoinStrategy}

theorem isExact_arrangeLeft (h : ∀ k ∈ strategy.pairs, k.left.isExact) (hp : p.IsExact) :
    (Join.arrangeLeft strategy p).IsExact := by
  cases strategy with
  | merge pairs => exact ⟨List.forall_mem_map.2 (List.forall_mem_map.2 h), hp⟩
  | nestedLoop | hash => exact hp

theorem isExact_arrangeRight (h : ∀ k ∈ strategy.pairs, k.right.isExact) (hp : p.IsExact) :
    (Join.arrangeRight strategy p).IsExact := by
  cases strategy with
  | merge pairs => exact ⟨List.forall_mem_map.2 (List.forall_mem_map.2 h), hp⟩
  | nestedLoop | hash => exact hp

/-- Over exact data every plan delivers, in the order wanted. -/
theorem Settles.delivers (h : Settles p f o q) (hp : p.Built) (hx : p.IsExact) (hf : f.IsExact)
    (ho : ∀ o' ∈ o, o'.IsExact ∧ o'.Bound p.columns) : p.Delivers True f o q := by
  induction h with
  | table hcol hq hqo hpath =>
    cases hp with | read _ ht =>
    have hpushed := Filter.isExact_fold (Filter.isExact_taken (Filter.isExact_rename hf hq))
    exact delivers_table hcol (fun _ => ht.sound.exact) hq hqo fun hscope hscan =>
      AccessPath.serves_of_selected ht.sound hpushed (AccessPath.selected_of_select hpath)
        (hscope trivial) hscan
  | rows hcol hq => exact delivers_rows hcol hq fun _ => hx
  | @filter e e' _ _ _ _ he _ ih =>
    cases hp with | filter _ hp =>
    have hexact := (Expr.bindTo_spec he).2.2.1 hx.1
    exact delivers_filter he (ih hp hx.2 (Filter.isExact_fold
      ((Filter.isExact_some.2 hexact).union (Filter.isExact_taken hf))) ho)
  | @sort order order' _ _ _ _ _ hb _ ih =>
    cases hp with | sort _ _ hp =>
    obtain ⟨hbound, hexact⟩ := SortOrder.bindTo_spec hb
    refine delivers_sort hb (fun _ => hx.1) (ih hp hx.2 hf fun o' ho' => ?_)
    obtain rfl := Option.some.inj (mem_of_mem_taken (o := some order') ho')
    exact ⟨hexact hx.1, hbound⟩
  | @project outputs outputs' input _ _ _ _ _ _ hout hsplit hmap _ ih =>
    cases hp with | project _ hp =>
    obtain ⟨ms, ss, hms, -, hmem, hmov⟩ := Stage.splitProjected_spec hsplit
    have hbound := Stage.bound_of_bindOutputs hout
    have hexact := Stage.isExact_bindOutputs hx.1 hout
    have hmoving := Stage.isExact_mapM_unproject hexact (Filter.isExact_ofList.2 fun c hc =>
      (Filter.isExact_taken hf).conjuncts c ((hmem c).2 (.inl hc))) hms
    refine delivers_project hout hsplit hmap (fun _ => hx.1) (fun _ o' ho' => (ho o' ho').2)
      (ih hp hx.2 hmoving fun o₂ ho₂ => ?_)
    rcases Result.optionMapM_eq_ok.1 hmap with ⟨-, rfl⟩ | ⟨o₁, _, htaken, rfl, ho₁⟩
    · cases ho₂
    · cases ho₂
      obtain ⟨hxo, hb⟩ := ho o₁ (mem_of_mem_taken htaken)
      have hb : o₁.Bound (outputs'.map Output.column) := columns_bindOutputs hout ▸ hb
      exact ⟨hxo.mapM ho₁ fun e e' he h => Stage.isExact_unproject hexact he h,
        hb.unproject hbound ho₁⟩
  | cut hinput hi ih =>
    cases hp with | cut _ hp =>
    exact delivers_cut hinput hi fun _ => ih hp hx.2 Filter.isExact_none (by simp)
  | @rename name own input _ _ _ _ _ _ _ _ _ hown hsplit hdown hmap hi hup hunmet ih =>
    cases hp with | rename _ hp =>
    obtain ⟨ms, ss, rfl, rfl, hmem, hmov⟩ := Filter.split_spec hsplit
    have hcol : (input.rename name).columns = own := hown.symm
    rw [hcol] at ho
    have hmoving := Filter.isExact_rename (Filter.isExact_ofList.2 fun c hc =>
      hf.conjuncts c ((hmem c).2 (.inl hc))) hdown
    refine delivers_rename hown hsplit hdown hmap hi hup hunmet (fun _ o' ho' => (ho o' ho').2)
      (ih hp hx.2 hmoving fun o₂ ho₂ => ?_)
    rcases Result.optionMapM_eq_ok.1 hmap with ⟨-, rfl⟩ | ⟨o₁, _, rfl, rfl, ho₁⟩
    · cases ho₂
    · cases ho₂
      obtain ⟨hxo, hb⟩ := ho o₁ rfl
      subst hown
      exact ⟨hxo.rename ho₁, hb.rename ho₁⟩
  | @join _ condition' _ left right left' right' _ _ _ _ _ d hcond hd hplaces hl hr ihl ihr =>
    cases hp with | join _ _ hpl hpr =>
    obtain ⟨pushed, parts, hq, hdec⟩ := Join.decide_spec hd
    have hpushed := Filter.isExact_rename (Filter.isExact_taken hf) hq
    have hcondition := (Filter.bindTo_spec hcond).2.1 hx.1
    obtain ⟨hfl, hfr, hpairs⟩ :=
      hdec.isExact (Filter.isExact_fold (hcondition.union hpushed)).conjuncts
    have hlx := isExact_arrangeLeft (fun k hk => (hpairs k hk).1) hx.2.1
    have hrx := isExact_arrangeRight (fun k hk => (hpairs k hk).2) hx.2.2
    refine delivers_join hcond hd hplaces (hl.columns.trans (columns_arrangeLeft _ _))
      (hr.columns.trans (columns_arrangeRight _ _)) hx.1 hf
      (ihl hpl.arrangeLeft hlx hfl fun o₂ ho₂ => ?_) (ihr hpr.arrangeRight hrx hfr (by simp))
    generalize htaken : SortOrder.taken _ = requested at hplaces
    rw [columns_arrangeLeft]
    cases hplaces with
    | none | merge | stays => cases ho₂
    | @left o₁ _ _ hqo hres =>
      cases ho₂
      exact ⟨(ho o₁ (mem_of_mem_taken htaken)).1.rename hqo, SortOrder.bound_of_resolvesWithin hres⟩
  | union hd hl hr hleft hright ihl ihr =>
    cases hp with | union _ hpl hpr =>
    obtain ⟨hfl, hfr⟩ := Union.isExact_decide (Filter.isExact_taken hf) hd
    exact delivers_union hd hl hr hleft hright (fun _ => trivial) (ihl hpl hx.1 hfl (by simp))
      (ihr hpr hx.2 hfr (by simp))

end Plan

end RelPlan

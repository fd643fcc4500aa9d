import RelPlan.Filter
import RelPlan.Proofs.Worth

/-!
# Filters as sets of conjuncts

A filter passes if all its conjuncts do.  Dropping a conjunct that has an equivalent elsewhere does
not change what passes, so neither do union, difference and the other operations on sets, and
folding keeps what passes because it keeps the worth.
-/

namespace RelPlan

variable {env : Env} {c d e : Expr} {cs es : List Expr} {f g : Filter}

namespace Expr

theorem conjuncts_eq_singleton (h : c ∈ e.conjuncts) : c.conjuncts = [c] := by
  fun_induction conjuncts e with
  | case1 l r ihl ihr =>
    rcases List.mem_append.1 h with h | h
    exacts [ihl h, ihr h]
  | case2 e hne =>
    obtain rfl := List.mem_singleton.1 h
    unfold conjuncts
    split
    · exact absurd rfl (hne _ _)
    · rfl

theorem isExact_iff_conjuncts : e.isExact ↔ ∀ c ∈ e.conjuncts, c.isExact := by
  fun_induction conjuncts e with
  | case1 l r ihl ihr => simp [isExact, ihl, ihr, or_imp, forall_and]
  | case2 e hne => simp

theorem passes_iff_conjuncts : e.Passes env ↔ ∀ c ∈ e.conjuncts, c.Passes env := by
  fun_induction conjuncts e with
  | case1 l r ihl ihr =>
    simp only [Passes, worth] at ihl ihr ⊢
    simp [worthAnd_eq_true, ihl, ihr, or_imp, forall_and]
  | case2 e hne => simp

theorem passes_iff_of_equiv (h : e.equiv d) : e.Passes env ↔ d.Passes env := by
  rw [Passes, worth_eq_of_equiv env h, Passes]

theorem mem_refs_iff_conjuncts {r : ColumnRef} :
    r ∈ e.refs ↔ ∃ c ∈ e.conjuncts, r ∈ c.refs := by
  fun_induction conjuncts e with
  | case1 l r ihl ihr => simp [refs, ihl, ihr, or_and_right, exists_or]
  | case2 e hne => simp

theorem mem_refs_of_equiv {r : ColumnRef} (h : e.equiv d) : r ∈ e.refs ↔ r ∈ d.refs := by
  induction e generalizing d with
  | const => obtain rfl := const_equiv.1 h; rfl
  | ref => obtain rfl := ref_equiv.1 h; rfl
  | unary op a ih =>
    obtain ⟨b, rfl, hb⟩ := unary_equiv.1 h
    simp only [refs, ih hb]
  | binary op a b iha ihb =>
    rcases binary_equiv.1 h with ⟨a', b', rfl, ha, hb⟩ | ⟨op', a', b', rfl, -, ha, hb⟩
    · simp only [refs, List.mem_append, iha ha, ihb hb]
    · simp only [refs, List.mem_append, iha ha, ihb hb, or_comm]

/-- Every reference in the expression satisfies the condition. -/
def RefsIn (G : ColumnRef → Prop) (e : Expr) : Prop := ∀ r ∈ e.refs, G r

theorem refsIn_iff_conjuncts {G : ColumnRef → Prop} :
    e.RefsIn G ↔ ∀ c ∈ e.conjuncts, c.RefsIn G := by
  constructor
  · exact fun h c hc r hr => h r (mem_refs_iff_conjuncts.2 ⟨c, hc, hr⟩)
  · intro h r hr
    obtain ⟨c, hc, hr⟩ := mem_refs_iff_conjuncts.1 hr
    exact h c hc r hr

theorem refs_foldConst (e : Expr) : e.foldConst.refs ⊆ e.refs := by
  unfold foldConst
  split
  · simp [refs]
  · exact fun _ h => h

theorem refs_fold (e : Expr) : e.fold.refs ⊆ e.refs := by
  induction e with
  | const | ref => exact fun _ h => h
  | unary op e ih =>
    rw [fold, foldUnary]
    split
    · exact List.Subset.trans (refs_foldConst _) ih
    · exact ih
  | binary op l r ihl ihr =>
    have hboth : (binary op l.fold r.fold).refs ⊆ (binary op l r).refs := by
      simp only [refs]
      exact List.append_subset.2 ⟨List.subset_append_of_subset_left _ ihl,
        List.subset_append_of_subset_right _ ihr⟩
    have hl : l.fold.refs ⊆ (binary op l r).refs := List.subset_append_of_subset_left _ ihl
    have hr : r.fold.refs ⊆ (binary op l r).refs := List.subset_append_of_subset_right _ ihr
    have hc := List.Subset.trans (refs_foldConst (binary op l.fold r.fold)) hboth
    rw [fold]
    cases op <;> simp only [foldBinary] <;> grind [refs]

end Expr

namespace Filter

/-- No constant of the filter is a binary64 datum. -/
def IsExact (f : Filter) : Prop := ∀ e ∈ f, e.isExact

/-- Every predicate there is is worth truth. -/
def Passes (env : Env) (f : Filter) : Prop := ∀ e ∈ f, e.Passes env

instance (env : Env) (f : Filter) : Decidable (f.Passes env) :=
  match f with
  | none => .isTrue (by simp [Passes])
  | some e => decidable_of_iff (e.Passes env) (by simp [Passes])

@[simp] theorem passes_none : Passes env none := by simp [Passes]

@[simp] theorem passes_some : Passes env (some e) ↔ e.Passes env := by simp [Passes]

@[simp] theorem isExact_none : IsExact none := by simp [IsExact]

@[simp] theorem isExact_some : IsExact (some e) ↔ e.isExact := by simp [IsExact]

theorem contains_iff : contains cs e ↔ ∃ d ∈ cs, d.equiv e := by simp [contains]

theorem insertAll_append (cs ds es : List Expr) :
    insertAll cs (ds ++ es) = insertAll (insertAll cs ds) es := by
  induction ds generalizing cs with
  | nil => rfl
  | cons d ds ih => exact ih _

theorem mem_of_mem_insertAll (h : c ∈ insertAll cs es) : c ∈ cs ∨ c ∈ es := by
  induction es generalizing cs with
  | nil => exact .inl h
  | cons e es ih =>
    rcases ih h with h | h
    · split at h
      · exact .inl h
      · rcases List.mem_append.1 h with h | h
        · exact .inl h
        · exact .inr (by simp_all)
    · exact .inr (List.mem_cons_of_mem _ h)

theorem subset_insertAll (cs es : List Expr) : cs ⊆ insertAll cs es := by
  induction es generalizing cs with
  | nil => exact fun _ h => h
  | cons e es ih =>
    refine List.Subset.trans ?_ (ih _)
    split
    · exact fun _ h => h
    · exact List.subset_append_left cs [e]

theorem exists_equiv_insertAll (cs : List Expr) (h : e ∈ es) :
    ∃ d ∈ insertAll cs es, d.equiv e := by
  induction es generalizing cs with
  | nil => cases h
  | cons e' es ih =>
    rw [insertAll]
    rcases List.mem_cons.1 h with rfl | h
    · split
      · next hc =>
        obtain ⟨d, hd, hde⟩ := contains_iff.1 hc
        exact ⟨d, subset_insertAll _ _ hd, hde⟩
      · exact ⟨e, subset_insertAll _ _ (by simp), e.equiv_refl⟩
    · exact ih _ h

/-- A property that equivalent expressions share holds of a set if it holds of all that was put
in. -/
theorem forall_insertAll {P : Expr → Prop}
    (hP : ∀ d, (d ∈ cs ∨ d ∈ es) → ∀ e ∈ es, d.equiv e → P d → P e) :
    (∀ c ∈ insertAll cs es, P c) ↔ (∀ c ∈ cs, P c) ∧ ∀ c ∈ es, P c := by
  constructor
  · refine fun h => ⟨fun c hc => h c (subset_insertAll cs es hc), fun e he => ?_⟩
    obtain ⟨d, hd, hde⟩ := exists_equiv_insertAll cs he
    exact hP d (mem_of_mem_insertAll hd) e he hde (h d hd)
  · rintro ⟨hcs, hes⟩ c hc
    rcases mem_of_mem_insertAll hc with hc | hc
    exacts [hcs c hc, hes c hc]

theorem forall_passes_insertAll : (∀ c ∈ insertAll cs es, c.Passes env) ↔
    (∀ c ∈ cs, c.Passes env) ∧ ∀ c ∈ es, c.Passes env :=
  forall_insertAll fun _ _ _ _ hde => (Expr.passes_iff_of_equiv hde).1

/-! ### Conjuncts of a filter -/

theorem mem_conjuncts_some (h : c ∈ conjuncts (some e)) : c ∈ e.conjuncts :=
  (mem_of_mem_insertAll h).resolve_left (by simp)

theorem mem_conjuncts (h : c ∈ conjuncts f) : ∃ e ∈ f, c ∈ e.conjuncts := by
  cases f with
  | none => cases h
  | some e => exact ⟨e, rfl, mem_conjuncts_some h⟩

theorem IsExact.conjuncts (h : f.IsExact) : ∀ c ∈ f.conjuncts, c.isExact := by
  intro c hc
  obtain ⟨e, he, hc⟩ := mem_conjuncts hc
  exact Expr.isExact_iff_conjuncts.1 (h e he) c hc

theorem passes_iff_conjuncts : f.Passes env ↔ ∀ c ∈ f.conjuncts, c.Passes env := by
  cases f with
  | none => simp [conjuncts]
  | some e =>
    rw [passes_some, Expr.passes_iff_conjuncts, conjuncts, forall_passes_insertAll]
    simp

theorem conjuncts_foldl_and (e : Expr) (es : List Expr) :
    (es.foldl Expr.and e).conjuncts = e.conjuncts ++ es.flatMap Expr.conjuncts := by
  induction es generalizing e with
  | nil => simp
  | cons d ds ih => simp [ih, Expr.and, Expr.conjuncts]

theorem conjuncts_of_mem_ofList (h : e ∈ ofList cs) (hcs : ∀ c ∈ cs, c.conjuncts = [c]) :
    e.conjuncts = cs := by
  cases cs with
  | nil => cases h
  | cons c cs =>
    obtain rfl := Option.some.inj h
    obtain ⟨hc, hcs⟩ := List.forall_mem_cons.1 hcs
    have hself (ds : List Expr) (hds : ∀ d ∈ ds, d.conjuncts = [d]) :
        ds.flatMap Expr.conjuncts = ds := by
      induction ds with
      | nil => rfl
      | cons d ds ih =>
        obtain ⟨hd, hds⟩ := List.forall_mem_cons.1 hds
        rw [List.flatMap_cons, hd, ih hds]
        rfl
    rw [conjuncts_foldl_and, hc, hself cs hcs]
    rfl

/-- What holds of a conjunction if it holds of its conjuncts holds of a filter if it holds of the
list it is made of. -/
theorem forall_ofList {P : Expr → Prop} (hP : ∀ e, P e ↔ ∀ c ∈ e.conjuncts, P c) :
    (∀ e ∈ ofList cs, P e) ↔ ∀ c ∈ cs, P c := by
  cases cs with
  | nil => simp [ofList]
  | cons c cs =>
    simp only [ofList, Option.mem_def, Option.some.injEq, forall_eq']
    rw [hP, conjuncts_foldl_and]
    simp only [List.mem_append, List.mem_flatMap, or_imp, forall_and, List.forall_mem_cons]
    rw [← hP]
    refine and_congr_right fun _ => ⟨fun h d hd => ?_, fun h d ⟨d', hd', hd⟩ => ?_⟩
    · exact (hP d).2 fun x hx => h x ⟨d, hd, hx⟩
    · exact (hP d').1 (h d' hd') d hd

theorem passes_ofList : (ofList cs).Passes env ↔ ∀ c ∈ cs, c.Passes env :=
  forall_ofList fun _ => Expr.passes_iff_conjuncts

theorem isExact_ofList : (ofList cs).IsExact ↔ ∀ c ∈ cs, c.isExact :=
  forall_ofList fun _ => Expr.isExact_iff_conjuncts

/-- Every reference in the filter satisfies the condition. -/
def RefsIn (G : ColumnRef → Prop) (f : Filter) : Prop := ∀ e ∈ f, e.RefsIn G

section
variable {G : ColumnRef → Prop}

@[simp] theorem refsIn_none : RefsIn G none := by simp [RefsIn]

@[simp] theorem refsIn_some : RefsIn G (some e) ↔ e.RefsIn G := by simp [RefsIn]

theorem refsIn_ofList : (ofList cs).RefsIn G ↔ ∀ c ∈ cs, c.RefsIn G :=
  forall_ofList fun _ => Expr.refsIn_iff_conjuncts

theorem RefsIn.conjuncts (h : f.RefsIn G) : ∀ c ∈ f.conjuncts, c.RefsIn G := by
  intro c hc
  obtain ⟨e, he, hc⟩ := mem_conjuncts hc
  exact Expr.refsIn_iff_conjuncts.1 (h e he) c hc

theorem RefsIn.fold (h : f.RefsIn G) : (fold f).RefsIn G := by
  cases f with
  | none => exact h
  | some e =>
    have hfold : e.fold.RefsIn G := fun r hr => h e rfl r (Expr.refs_fold e hr)
    unfold Filter.fold
    split
    · exact refsIn_none
    · intro d hd
      cases hd
      exact hfold

theorem RefsIn.imp {G' : ColumnRef → Prop} (h : f.RefsIn G) (hG : ∀ r, G r → G' r) : f.RefsIn G' :=
  fun e he r hr => hG r (h e he r hr)

theorem RefsIn.diff (h : f.RefsIn G) : (f.diff g).RefsIn G :=
  refsIn_ofList.2 fun c hc => h.conjuncts c (List.mem_of_mem_filter hc)

theorem RefsIn.inter (h : f.RefsIn G) : (f.inter g).RefsIn G :=
  refsIn_ofList.2 fun c hc => h.conjuncts c (List.mem_of_mem_filter hc)

end

/-! ### Sets -/

/-- What holds of a conjunction if it holds of its conjuncts holds of a union if it holds of what
is united. -/
theorem forall_union {P : Expr → Prop} (hP : ∀ e, P e ↔ ∀ c ∈ e.conjuncts, P c) {fs : List Filter}
    (h : ∀ f ∈ fs, ∀ e ∈ f, P e) : ∀ e ∈ union fs, P e := by
  refine (forall_ofList hP).2 fun c hc => ?_
  obtain ⟨f, hf, hc⟩ := List.mem_flatMap.1 ((mem_of_mem_insertAll hc).resolve_left (by simp))
  match f, hf, hc with
  | some d, hf, hc => exact (hP d).1 (h _ hf d rfl) c hc

theorem isExact_union {fs : List Filter} (h : ∀ f ∈ fs, f.IsExact) : (union fs).IsExact :=
  forall_union (fun _ => Expr.isExact_iff_conjuncts) h

theorem IsExact.union (hf : f.IsExact) (hg : g.IsExact) : (Filter.union [f, g]).IsExact :=
  isExact_union (by simp [hf, hg])

theorem refsIn_union {G : ColumnRef → Prop} {fs : List Filter} (h : ∀ f ∈ fs, f.RefsIn G) :
    (union fs).RefsIn G := forall_union (fun _ => Expr.refsIn_iff_conjuncts) h

theorem RefsIn.union {G : ColumnRef → Prop} (hf : f.RefsIn G) (hg : g.RefsIn G) :
    (Filter.union [f, g]).RefsIn G := refsIn_union (by simp [hf, hg])

theorem mem_conjuncts_union {fs : List Filter} (h : c ∈ (union fs).conjuncts) :
    ∃ f ∈ fs, ∃ e ∈ f, c ∈ e.conjuncts := by
  obtain ⟨e, he, hc⟩ := mem_conjuncts h
  refine forall_union (P := fun e => ∀ d ∈ e.conjuncts, ∃ f ∈ fs, ∃ e ∈ f, d ∈ e.conjuncts)
    (fun e => ⟨fun h c hc d hd => ?_, fun h d hd => ?_⟩)
    (fun f hf e he d hd => ⟨f, hf, e, he, hd⟩) e he c hc
  · rw [Expr.conjuncts_eq_singleton hc, List.mem_singleton] at hd
    exact hd ▸ h c hc
  · exact h d hd d (by simp [Expr.conjuncts_eq_singleton hd])

theorem passes_union {fs : List Filter} : (union fs).Passes env ↔ ∀ f ∈ fs, f.Passes env := by
  rw [union, passes_ofList, forall_passes_insertAll]
  simp only [List.not_mem_nil, false_imp_iff, implies_true, true_and, List.mem_flatMap]
  constructor
  · intro hall f hf
    cases f with
    | none => exact passes_none
    | some d =>
      exact passes_some.2 (Expr.passes_iff_conjuncts.2 fun c hc => hall c ⟨some d, hf, hc⟩)
  · rintro hall c ⟨f, hf, hc⟩
    match f, hf, hc with
    | some d, hf, hc => exact Expr.passes_iff_conjuncts.1 (passes_some.1 (hall _ hf)) c hc

/-- What is in the one filter only and what is in both make up the filter. -/
theorem passes_inter_and_diff :
    f.Passes env ↔ (f.inter g).Passes env ∧ (f.diff g).Passes env := by
  rw [passes_iff_conjuncts, inter, diff, passes_ofList, passes_ofList]
  simp only [List.mem_filter, Bool.not_eq_true', and_imp]
  constructor
  · exact fun h => ⟨fun c hc _ => h c hc, fun c hc _ => h c hc⟩
  · intro h c hc
    cases hg : contains g.conjuncts c
    exacts [h.2 c hc hg, h.1 c hc hg]

/-- A filter that passes takes the conjuncts of the other one that it contains with it. -/
theorem passes_inter_of_passes (h : g.Passes env) : (f.inter g).Passes env := by
  refine passes_ofList.2 fun c hc => ?_
  obtain ⟨-, hcont⟩ := List.mem_filter.1 hc
  obtain ⟨d, hd, hdc⟩ := contains_iff.1 hcont
  exact (Expr.passes_iff_of_equiv hdc).1 (passes_iff_conjuncts.1 h d hd)

theorem passes_of_diff (h : g.Passes env) (hd : (f.diff g).Passes env) : f.Passes env :=
  passes_inter_and_diff.2 ⟨passes_inter_of_passes h, hd⟩

theorem passes_iff_diff (hpart : f.Passes env → g.Passes env) :
    f.Passes env ↔ g.Passes env ∧ (f.diff g).Passes env :=
  ⟨fun h => ⟨hpart h, (passes_inter_and_diff.1 h).2⟩, fun h => passes_of_diff h.1 h.2⟩

theorem passes_fold : (fold f).Passes env ↔ f.Passes env := by
  cases f with
  | none => rfl
  | some e =>
    have hworth : e.fold.Passes env ↔ e.Passes env := by
      rw [Expr.Passes, Expr.worth_fold, Expr.Passes]
    simp only [fold, Option.map_some]
    split
    · next h =>
      rw [Option.some.inj h] at hworth
      simpa [Expr.Passes, Expr.worth] using hworth
    · rw [passes_some, passes_some, hworth]

theorem isExact_fold (hf : f.IsExact) : (fold f).IsExact := by
  cases f with
  | none => exact isExact_none
  | some e =>
    have := Expr.isExact_fold (isExact_some.1 hf)
    unfold fold
    split
    · exact isExact_none
    · exact isExact_some.2 this

end Filter

end RelPlan

import RelPlan.Proofs.HandedOrders
import RelPlan.Proofs.SettledScans

/-!
# Scans in different scopes

What a settled plan evaluates on its rows reads its own columns and what was handed down to it.  Two
scopes in which the names handed down from further out have the same values therefore give the same
scan (`Settles.scan_congr`), and a plan that was handed nothing gives the same scan in every scope
(`Settles.scan_eq`).
-/

namespace RelPlan

variable {columns left right : List Column} {scope scope' : Scope} {row : Row} {e : Expr}
  {es : List Expr} {f g : Filter} {o : Option SortOrder}

/-- A name that means none of the columns is looked up alike in both scopes. -/
def Agree (scope scope' : Scope) (columns : List Column) (r : ColumnRef) : Prop :=
  resolve columns r = .ok none → scope.lookup r = scope'.lookup r

theorem qualified_agree : Qualified columns (Agree scope scope' columns) := by
  intro r i c _ hi hc hnone
  rw [resolve_ref hi hc] at hnone
  cases hnone

theorem Expr.Bound.agree (h : e.Bound columns) : e.RefsIn (Agree scope scope' columns) := by
  intro r hr hnone
  obtain ⟨i, hi⟩ := h r hr
  rw [hi] at hnone
  cases hnone

/-- Behind a row of the left columns, what means nothing among the right ones is looked up in it. -/
theorem agree_of_append {r : ColumnRef} (h : Agree scope scope' (left ++ right) r)
    (hr : resolve right r = .ok none) : Agree scope scope' left r :=
  fun hl => h (resolve_append_eq_none.2 ⟨hl, hr⟩)

theorem agree_renameRef {r : ColumnRef} (hlen : left.length = right.length)
    (hr : Agree scope scope' left r) (he : renameRef left right r = .ok e) :
    e.RefsIn (Agree scope scope' right) := by
  intro r' hr' hnone
  rcases renameRef_eq_ok.1 he with ⟨i, c, -, hc, rfl⟩ | ⟨i, hi, hc, -⟩ | ⟨hi, rfl⟩
  · obtain rfl : r' = c.ref := by simpa [Expr.refs] using hr'
    exact absurd hnone (resolve_ref_ne_none hc)
  · rw [List.getElem?_eq_none_iff, ← hlen] at hc
    exact absurd (lt_of_resolve hi) (by omega)
  · obtain rfl : r' = r := by simpa [Expr.refs] using hr'
    exact hr hi

theorem Filter.agree_rename (hlen : left.length = right.length)
    (hf : f.RefsIn (Agree scope scope' left)) (h : f.rename left right = .ok g) :
    g.RefsIn (Agree scope scope' right) :=
  refsIn_rename (fun _ hr _ he => agree_renameRef hlen hr he) hf h

theorem Stage.agree_unproject {outputs : List Output} {e' : Expr}
    (hb : ∀ out ∈ outputs, out.expr.Bound columns)
    (he : e.RefsIn (Agree scope scope' (outputs.map Output.column)))
    (h : unproject outputs e = .ok e') : e'.RefsIn (Agree scope scope' columns) := by
  intro r' hr' hnone
  obtain ⟨r, hr, e₀, he₀, hr'⟩ := Expr.mem_refs_of_subst h hr'
  rcases outputExpr_eq_ok he₀ with ⟨i, out, -, hout, rfl⟩ | ⟨hout, rfl⟩
  · exact (hb out (List.mem_of_getElem? hout)).agree r' hr' hnone
  · obtain rfl : r' = r := by simpa [Expr.refs] using hr'
    exact he r' hr hout

theorem Scope.lookup_push_congr {r : ColumnRef} (h : Agree scope scope' row.columns r) :
    (scope.push row).lookup r = (scope'.push row).lookup r := by
  rcases hres : resolve row.columns r with cause | (_ | i)
  · rw [lookup_push_of_error hres, lookup_push_of_error hres]
  · rw [lookup_push_of_none hres, lookup_push_of_none hres, h hres]
  · obtain ⟨v, hv⟩ := Row.exists_value hres
    rw [lookup_push_of_some hres hv, lookup_push_of_some hres hv]

theorem Expr.evalRow_congr (h : e.RefsIn (Agree scope scope' row.columns)) :
    e.evalRow scope row = e.evalRow scope' row :=
  evalWith_congr fun r hr => Scope.lookup_push_congr (h r hr)

theorem Expr.holds_congr (h : e.RefsIn (Agree scope scope' row.columns)) :
    e.holds scope row = e.holds scope' row := by
  rw [holds, holds, evalRow_congr h]

theorem Expr.evalAll_congr (h : ∀ e ∈ es, e.RefsIn (Agree scope scope' row.columns)) :
    evalAll scope row es = evalAll scope' row es :=
  Result.mapM_congr fun e he => evalRow_congr (h e he)

theorem joinKey_congr (h : ∀ e ∈ es, e.RefsIn (Agree scope scope' row.columns)) :
    joinKey scope row es = joinKey scope' row es := by
  induction es with
  | nil => rfl
  | cons e es ih =>
    obtain ⟨he, hes⟩ := List.forall_mem_cons.1 h
    rw [joinKey, joinKey, Expr.evalRow_congr he, ih hes]

theorem Expr.eval_congr (h : ∀ r ∈ e.refs, scope.lookup r = scope'.lookup r) :
    e.eval scope = e.eval scope' := evalWith_congr h

theorem Limit.tightestFrom_congr {type : DataType} {tighter : Ordering} {best : Option Limit}
    {bs : List Bound} (h : ∀ b ∈ bs, b.expr.eval scope = b.expr.eval scope') :
    tightestFrom scope type tighter best bs = tightestFrom scope' type tighter best bs := by
  induction bs generalizing best with
  | nil => rfl
  | cons b bs ih =>
    obtain ⟨hb, hbs⟩ := List.forall_mem_cons.1 h
    simp only [tightestFrom, hb, ih hbs]

theorem Limits.ofRanges_congr {types : List DataType} {rs : List ColumnRange}
    (h : ∀ r ∈ rs, ∀ b ∈ r.lower ++ r.upper, b.expr.eval scope = b.expr.eval scope') :
    ofRanges scope types rs = ofRanges scope' types rs := by
  induction rs generalizing types with
  | nil => rw [ofRanges, ofRanges]
  | cons r rs ih =>
    obtain ⟨hr, hrs⟩ := List.forall_mem_cons.1 h
    have hlower : ∀ b ∈ r.lower, b.expr.eval scope = b.expr.eval scope' := fun b hb =>
      hr b (List.mem_append_left _ hb)
    have hupper : ∀ b ∈ r.upper, b.expr.eval scope = b.expr.eval scope' := fun b hb =>
      hr b (List.mem_append_right _ hb)
    rw [ofRanges, ofRanges, Limit.tightestFrom_congr hlower, Limit.tightestFrom_congr hupper,
      ih hrs]

theorem Index.scan_congr {i : Index} {probe : Probe}
    (h : ∀ e ∈ probe.exprs, e.eval scope = e.eval scope') :
    i.scan probe scope = i.scan probe scope' := by
  obtain ⟨cond, base⟩ := i
  cases base with
  | ordered i =>
    cases probe with
    | range r =>
      have hlimits : Limits.ofRanges scope i.checkedTypes r.columns =
          Limits.ofRanges scope' i.checkedTypes r.columns :=
        Limits.ofRanges_congr fun c hc b hb =>
          h b.expr (List.mem_flatMap.2 ⟨c, hc, List.mem_map_of_mem hb⟩)
      show i.scan r scope = i.scan r scope'
      rw [OrderedIndex.scan, OrderedIndex.scan, hlimits]
    | key => rfl
  | hashed i =>
    cases probe with
    | range => rfl
    | key e =>
      show i.scan e scope = i.scan e scope'
      rw [HashedIndex.scan, HashedIndex.scan, h e (List.mem_singleton_self e)]

namespace AccessPath

variable {t : Table} {requested : Option SortOrder} {p : AccessPath}

theorem scan_congr (hf : f.RefsIn (Agree scope scope' t.columns))
    (h : Selected t f requested p) : p.scan scope = p.scan scope' := by
  cases h with
  | full => rfl
  | index _ _ hc =>
    show (_ >>= _ : Result _) = (_ >>= _)
    rw [Index.scan_congr fun d hd => Expr.eval_congr fun r hr => ?_]
    obtain ⟨hagree, hnone⟩ := refsIn_probe hf.conjuncts hc d hd r hr
    exact hagree hnone

end AccessPath

/-! ### Scans -/

theorem Logged.bind_congr {α β : Type} {x : Logged α} {k k' : α → Logged β}
    (h : ∀ a, x.result = .ok a → k a = k' a) : x >>= k = x >>= k' := by
  show x.bind k = x.bind k'
  unfold bind
  split
  · next a ha => rw [h a ha]
  · rfl

section
variable {opened : Opened} (hall : (opened.scan ()).All (·.columns = columns))
include hall

theorem Opened.filter_congr (hf : f.RefsIn (Agree scope scope' columns)) :
    opened.filter scope f = opened.filter scope' f := by
  cases f with
  | none => rfl
  | some e =>
    have hscan : ((opened.scan ()).filter fun row => e.holds scope row) =
        (opened.scan ()).filter fun row => e.holds scope' row :=
      hall.filter_congr fun row hrow => Expr.holds_congr (hrow ▸ hf e rfl)
    rw [filter, filter, hscan]

theorem Opened.compute_congr {outputs : List Output}
    (hout : ∀ out ∈ outputs, out.expr.Bound columns) :
    opened.map (Output.compute scope outputs) = opened.map (Output.compute scope' outputs) := by
  have hscan : (opened.scan ()).map (Output.compute scope outputs) =
      (opened.scan ()).map (Output.compute scope' outputs) := by
    refine hall.map_congr fun row hrow => ?_
    rw [Output.compute, Output.compute, Expr.evalAll_congr (List.forall_mem_map.2 fun out h =>
      (hrow ▸ hout out h).agree)]
  rw [map, map, hscan]

theorem SortOrder.gather_congr {order : SortOrder} (ho : order.Bound columns) :
    order.gather scope opened.scan = order.gather scope' opened.scan := by
  unfold gather
  refine congrArg _ (hall.map_congr fun row hrow => ?_)
  rw [keyOf, keyOf, Expr.evalAll_congr (List.forall_mem_map.2 fun k hk => (hrow ▸ ho k hk).agree)]

end

theorem Join.Decides.agree {parts : JoinParts} {d : Join.Decision}
    (h : Join.Decides left right es parts d)
    (hes : ∀ e ∈ es, e.RefsIn (Agree scope scope' (left ++ right))) :
    d.forLeft.RefsIn (Agree scope scope' left) ∧
      (d.strategy = .nestedLoop → ∀ row : Row, row.columns = left →
        d.forRight.RefsIn (Agree (scope.push row) (scope'.push row) right)) ∧
      (d.strategy ≠ .nestedLoop → d.forRight.RefsIn (Agree scope scope' right)) := by
  obtain ⟨hleft, hnested, hkeyed⟩ := h.refsIn hes
  refine ⟨hleft.imp fun r hr => agree_of_append hr.1 hr.2, fun hs row hrow => ?_, fun hs => ?_⟩
  · refine (hnested hs).imp fun r hr hnone => Scope.lookup_push_congr ?_
    exact hrow ▸ agree_of_append hr hnone
  · exact (hkeyed hs).imp fun r hr hnone => hr.1 (resolve_append_eq_none.2 ⟨hr.2, hnone⟩)

theorem joinKey_congr_bound {keys : List Expr} (hb : ∀ e ∈ keys, e.Bound columns) :
    ∀ row : Row, row.columns = columns → joinKey scope row keys = joinKey scope' row keys :=
  fun _ hrow => joinKey_congr fun e he => hrow ▸ (hb e he).agree

namespace Plan

variable {p q input : Plan} {opened : Opened}

/-- Rows of these columns are read from the plan, the same in both scopes, and what it leaves over
holds of the same ones. -/
structure ReadsAlike (scope scope' : Scope) (columns : List Column) (q : Plan) : Prop where
  scan : q.scan scope = q.scan scope'
  all : ∀ o, (q.scan scope').result = .ok o → (o.scan ()).All (·.columns = columns)
  checked : ∀ o, (q.scan scope').result = .ok o →
    o.filter scope q.residual = o.filter scope' q.residual

theorem ReadsAlike.all_checked (h : q.ReadsAlike scope scope' columns)
    (hopen : (q.scan scope').result = .ok opened) :
    ((opened.filter scope' q.residual).scan ()).All (·.columns = columns) :=
  Opened.all_filter (h.all opened hopen) _

section
variable {pushed kept : Filter} {wanted : Option SortOrder} {j : Join} {pairs : List KeyPair}

theorem scan_filter_congr (hi : input.ReadsAlike scope scope' columns) :
    (stage .settled (.filter e pushed) input).scan scope =
      (stage .settled (.filter e pushed) input).scan scope' := by
  rw [scan_stage, scan_stage, hi.scan]
  exact Logged.bind_congr fun opened hopen => congrArg pure (hi.checked opened hopen)

theorem scan_sort_congr {order : SortOrder} {buffered : Bool}
    (hi : input.ReadsAlike scope scope' columns) (ho : order.Bound columns) :
    (stage .settled (.sort order buffered wanted) input).scan scope =
      (stage .settled (.sort order buffered wanted) input).scan scope' := by
  rw [scan_stage, scan_stage, hi.scan]
  refine Logged.bind_congr fun opened hopen => ?_
  show scanSorted _ _ _ _ _ _ = scanSorted _ _ _ _ _ _
  rw [scanSorted, scanSorted, SortOrder.gather_congr (hi.all opened hopen) ho]

theorem scan_project_congr {outputs : List Output} (hi : input.ReadsAlike scope scope' columns)
    (hb : ∀ out ∈ outputs, out.expr.Bound columns) :
    (stage .settled (.project outputs pushed wanted kept) input).scan scope =
      (stage .settled (.project outputs pushed wanted kept) input).scan scope' := by
  rw [scan_stage, scan_stage, hi.scan]
  refine Logged.bind_congr fun opened hopen => ?_
  show pure ((opened.filter scope input.residual).map _) =
    pure ((opened.filter scope' input.residual).map _)
  rw [hi.checked opened hopen, Opened.compute_congr (hi.all_checked hopen) hb]

theorem scan_cut_congr {c : Cut} (hi : input.ReadsAlike scope scope' columns) :
    (stage .settled (.cut c pushed wanted) input).scan scope =
      (stage .settled (.cut c pushed wanted) input).scan scope' := by
  rw [scan_stage, scan_stage, hi.scan]
  refine Logged.bind_congr fun opened hopen => ?_
  show pure (Opened.once fun _ => c.apply (opened.filter scope input.residual).scan) =
    pure (Opened.once fun _ => c.apply (opened.filter scope' input.residual).scan)
  rw [hi.checked opened hopen]

theorem scan_nestedLoop_congr (hj : j.strategy = some .nestedLoop)
    (hl : p.ReadsAlike scope scope' left)
    (hr : ∀ row : Row, row.columns = left →
      q.ReadsAlike (scope.push row) (scope'.push row) right) :
    (pair .settled (.join j) p q).scan scope = (pair .settled (.join j) p q).scan scope' := by
  rw [scan_nestedLoop hj, scan_nestedLoop hj, hl.scan]
  refine Logged.bind_congr fun lo hlopen => ?_
  rw [hl.checked lo hlopen]
  refine congrArg pure (congrArg Opened.once (funext fun _ => ?_))
  refine nestedLoop_congr (hl.all_checked hlopen) fun row hrow => ?_
  rw [(hr row hrow).scan]
  refine Logged.bind_congr fun ro hropen => ?_
  rw [(hr row hrow).checked ro hropen]

section
variable (hl : p.ReadsAlike scope scope' left) (hr : q.ReadsAlike scope scope' right)
  (hpairs : ∀ k ∈ pairs, k.left.Bound left ∧ k.right.Bound right)
include hl hr hpairs

theorem scan_hash_congr (hj : j.strategy = some (.hash pairs)) :
    (pair .settled (.join j) p q).scan scope = (pair .settled (.join j) p q).scan scope' := by
  rw [scan_hash hj, scan_hash hj, hl.scan, hr.scan]
  refine Logged.bind_congr fun lo hlopen => Logged.bind_congr fun ro hropen => ?_
  rw [hl.checked lo hlopen, hr.checked ro hropen]
  refine congrArg pure (congrArg Opened.once (funext fun _ => ?_))
  exact hashJoin_congr (hl.all_checked hlopen) (hr.all_checked hropen)
    (joinKey_congr_bound (List.forall_mem_map.2 fun k hk => (hpairs k hk).1))
    (joinKey_congr_bound (List.forall_mem_map.2 fun k hk => (hpairs k hk).2))

theorem scan_merge_congr (hj : j.strategy = some (.merge pairs)) :
    (pair .settled (.join j) p q).scan scope = (pair .settled (.join j) p q).scan scope' := by
  rw [scan_merge hj, scan_merge hj, hl.scan, hr.scan]
  refine Logged.bind_congr fun lo hlopen => Logged.bind_congr fun ro hropen => ?_
  rw [hl.checked lo hlopen, hr.checked ro hropen]
  refine congrArg pure (congrArg Opened.once (funext fun _ => ?_))
  exact mergeJoin_congr (hl.all_checked hlopen) (hr.all_checked hropen)
    (joinKey_congr_bound (List.forall_mem_map.2 fun k hk => (hpairs k hk).1))
    (joinKey_congr_bound (List.forall_mem_map.2 fun k hk => (hpairs k hk).2))

end

theorem scan_union_congr {u : Union} (hl : p.scan scope = p.scan scope')
    (hr : q.scan scope = q.scan scope') (hfl : u.leftLocal.RefsIn (Agree scope scope' p.columns))
    (hfr : u.rightLocal.RefsIn (Agree scope scope' p.columns)) :
    (pair .settled (.union u) p q).scan scope = (pair .settled (.union u) p q).scan scope' := by
  rw [scan_union, scan_union, hl, hr]
  refine Logged.bind_congr fun lo _ => Logged.bind_congr fun ro _ => ?_
  have hall {o : Opened} : ((o.reshape p.columns).scan ()).All (·.columns = p.columns) :=
    Opened.all_reshape
  rw [Opened.filter_congr hall hfl, Opened.filter_congr hall hfr]

end

/-! ### Settled plans -/

namespace Settles

theorem readsAlike (h : Settles p f o q) (hf : f.RefsIn (Agree scope scope' p.columns))
    (hscan : q.scan scope = q.scan scope') : q.ReadsAlike scope scope' p.columns where
  scan := hscan
  all _ hopen := h.all_columns hopen
  checked _ hopen :=
    Opened.filter_congr (h.all_columns hopen) (h.refsIn_residual qualified_agree hf)

/-- A settled plan is scanned alike in scopes that agree on what was handed down to it. -/
theorem scan_congr (h : Settles p f o q) (hf : f.RefsIn (Agree scope scope' p.columns)) :
    q.scan scope = q.scan scope' := by
  induction h generalizing scope scope' with
  | @table t _ f f' _ _ path _ hq _ hpath =>
    have hf' : f'.RefsIn (Agree scope scope' t.columns) := Filter.agree_rename rfl hf hq
    rw [scan_source, scan_source]
    refine congrArg _ ?_
    show (Opened.once <$> path.scan scope : Result Opened) = Opened.once <$> path.scan scope'
    rw [AccessPath.scan_congr hf'.taken.fold (AccessPath.selected_of_select hpath)]
  | @rows columns rows f f' _ hcol hq =>
    rw [scan_source, scan_source]
    refine congrArg _ ?_
    cases f' with
    | none => rfl
    | some e =>
      have he : Filter.RefsIn (Agree scope scope' columns) (some e) :=
        Filter.agree_rename rfl hf.taken.fold hq
      have hrows : (rows.filterM fun row => e.holds scope row) =
          rows.filterM fun row => e.holds scope' row :=
        Result.filterM_congr fun row hrow => Expr.holds_congr (hcol row hrow ▸ he e rfl)
      show (Opened.ofRows <$> _ : Result Opened) = Opened.ofRows <$> _
      rw [hrows]
  | @filter e e' input _ f _ he hi ih =>
    have hf' : (Filter.fold (.union [some e', f.taken])).RefsIn
        (Agree scope scope' input.columns) :=
      ((Filter.refsIn_some.2 (Expr.bindTo_spec he).2.1.agree).union hf.taken).fold
    exact scan_filter_congr (hi.readsAlike hf' (ih hf'))
  | sort ho hi ih =>
    exact scan_sort_congr (hi.readsAlike hf (ih hf)) (SortOrder.bindTo_spec ho).1
  | @project outputs outputs' input input' f moving kept _ _ hout hsplit _ hi ih =>
    obtain ⟨ms, ss, hm, -, hmem, -⟩ := Stage.splitProjected_spec hsplit
    have hb := Stage.bound_of_bindOutputs hout
    have hf : f.RefsIn (Agree scope scope' (outputs'.map Output.column)) := by
      rw [columns_bindOutputs hout]
      exact hf
    have hf' : moving.RefsIn (Agree scope scope' input.columns) := by
      rcases Result.optionMapM_eq_ok.1 hm with ⟨-, rfl⟩ | ⟨e, e', he, rfl, he'⟩
      · exact Filter.refsIn_none
      · have hms := Filter.refsIn_ofList.2 fun c hc => hf.taken.conjuncts c ((hmem c).2 (.inl hc))
        intro d hd
        cases hd
        exact Stage.agree_unproject hb (hms e he) he'
    exact scan_project_congr (hi.readsAlike hf' (ih hf')) hb
  | cut _ hi ih => exact scan_cut_congr (hi.readsAlike Filter.refsIn_none (ih Filter.refsIn_none))
  | rename hown hsplit hren _ _ _ _ ih =>
    subst hown
    obtain ⟨ms, ss, rfl, rfl, hmem, -⟩ := Filter.split_spec hsplit
    have hmoving := Filter.refsIn_ofList.2 fun c hc => hf.conjuncts c ((hmem c).2 (.inl hc))
    rw [scan_stage, scan_stage, ih (Filter.agree_rename (List.length_map _) hmoving hren)]
    rfl
  | @join _ condition' _ left right left' right' f _ _ _ _ d hcond hd _ hl hr ihl ihr =>
    obtain ⟨pushed, parts, hq, hdec⟩ := Join.decide_spec hd
    have hcs : ∀ c ∈ (Filter.fold (.union [condition', pushed])).conjuncts,
        c.RefsIn (Agree scope scope' (left.columns ++ right.columns)) :=
      (Filter.RefsIn.union (fun e he => ((Filter.bindTo_spec hcond).1 e he).agree)
        (Filter.agree_rename rfl hf.taken hq)).fold.conjuncts
    obtain ⟨hleft, hnested, hkeyed⟩ := hdec.agree hcs
    have hcol := columns_arrangeLeft d.strategy left
    have hcol' := columns_arrangeRight d.strategy right
    have hpairs := hdec.bound_pairs
    rw [← hcol] at hleft hnested
    rw [← hcol'] at hnested hkeyed
    rw [← hcol, ← hcol'] at hpairs
    have hlreads := hl.readsAlike hleft (ihl hleft)
    have hrreads {scope scope' : Scope} (hright : d.forRight.RefsIn (Agree scope scope' _)) :=
      hr.readsAlike hright (ihr hright)
    cases hs : d.strategy with
    | nestedLoop =>
      exact scan_nestedLoop_congr rfl hlreads fun row hrow => hrreads (hnested hs row hrow)
    | hash pairs =>
      exact scan_hash_congr hlreads (hrreads (hkeyed (by simp [hs])))
        (fun k hk => hpairs k (by rwa [hs])) rfl
    | merge pairs =>
      exact scan_merge_congr hlreads (hrreads (hkeyed (by simp [hs])))
        (fun k hk => hpairs k (by rwa [hs])) rfl
  | @union distinct left right _ _ f l r _ d hd hl hr hleft hright ihl ihr =>
    obtain ⟨hlen, ms, ss, hkept, hfl, hfr, hmem, -⟩ := Union.decide_spec hd
    have hmoving := Filter.refsIn_ofList.2 fun c hc =>
      hf.taken.fold.conjuncts c ((hmem c).2 (.inl hc))
    have hfl := Filter.agree_rename rfl hmoving hfl
    have hfr := Filter.agree_rename hlen hmoving hfr
    have hlr := Filter.agree_rename rfl (hl.refsIn_residual qualified_agree hfl) hleft
    have hrr := Filter.agree_rename hlen.symm (hr.refsIn_residual qualified_agree hfr) hright
    rw [← hl.columns] at hlr hrr
    exact scan_union_congr (ihl hfl) (ihr hfr) hlr.diff hrr.diff

/-- A plan that was handed nothing is scanned alike everywhere. -/
theorem scan_eq (h : Settles p none o q) (scope scope' : Scope) : q.scan scope = q.scan scope' :=
  h.scan_congr Filter.refsIn_none

end Settles

end Plan

end RelPlan

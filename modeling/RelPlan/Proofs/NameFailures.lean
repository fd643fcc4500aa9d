import Mathlib
import RelPlan.Proofs.Drains
import RelPlan.Proofs.Failures

/-!
# Names while a plan is read

Optimization looks names up before any row is read, but not always those that a union gives to a
filter for its right input.  A plan that was optimized meets no unknown name while it is read, and
no ambiguous one if the columns of the right inputs of its unions are told apart by their full names
(`Assembled.drain_names`); if they are not, it may (`ambiguous_below_union`).
-/

namespace RelPlan

open Result

/-- The error is not about a name. -/
def QueryError.OtherThanName : QueryError → Prop
  | unknownColumn _ | ambiguousColumn _ => False
  | _ => True

theorem QueryError.OfValues.otherThanName {cause : QueryError} (h : cause.OfValues) :
    cause.OtherThanName := by
  cases cause <;> trivial

/-- Looking the name up in the columns, and behind them in the scope, fails for no other cause. -/
structure Known (C : QueryError → Prop) (scope : Scope) (columns : List Column) (r : ColumnRef) :
    Prop where
  found : FailsIn C (resolve columns r)
  outer : resolve columns r = .ok none → FailsIn C (scope.lookup r)

variable {C : QueryError → Prop} {scope : Scope} {row : Row} {columns left right : List Column}
  {e : Expr} {es : List Expr} {f g : Filter} {r : ColumnRef}

theorem resolve_append_eq_error {cause : QueryError}
    (h : resolve left r = .error cause ∨ resolve right r = .error cause) :
    resolve (left ++ right) r = .error cause := by
  have hcause : cause = .ambiguousColumn r := h.elim resolve_eq_error resolve_eq_error
  rcases hboth : resolve (left ++ right) r with cause' | (_ | i)
  · rw [hcause, resolve_eq_error hboth]
  · obtain ⟨hl, hr⟩ := resolve_append_eq_none.1 hboth
    simp [hl, hr] at h
  · rcases resolve_append_eq_some hboth with ⟨hl, hr⟩ | ⟨j, -, hl, hr⟩ <;> simp [hl, hr] at h

namespace Known

theorem of_resolve {i : Nat} (h : resolve columns r = .ok (some i)) : Known C scope columns r where
  found := h ▸ failsIn_ok _
  outer hnone := by simp [h] at hnone

theorem ref {c : Column} {i : Nat} (hC : ∀ r, C (.ambiguousColumn r)) (hc : columns[i]? = some c) :
    Known C scope columns c.ref where
  found _ hcause := resolve_eq_error hcause ▸ hC _
  outer hnone := absurd hnone (resolve_ref_ne_none hc)

theorem lookup (h : Known C scope row.columns r) : FailsIn C ((scope.push row).lookup r) := by
  rcases hres : resolve row.columns r with cause | (_ | i)
  · rw [Scope.lookup_push_of_error hres]
    rintro _ ⟨⟩
    exact h.found cause hres
  · rw [Scope.lookup_push_of_none hres]
    exact h.outer hres
  · obtain ⟨v, hv⟩ := Row.exists_value hres
    rw [Scope.lookup_push_of_some hres hv]
    exact failsIn_ok v

theorem of_append_left (h : Known C scope (left ++ right) r) (hr : resolve right r = .ok none) :
    Known C scope left r where
  found _ hcause := h.found _ (resolve_append_eq_error (.inl hcause))
  outer hl := h.outer (resolve_append_eq_none.2 ⟨hl, hr⟩)

theorem of_append_right (h : Known C scope (left ++ right) r) (hl : resolve left r = .ok none) :
    Known C scope right r where
  found _ hcause := h.found _ (resolve_append_eq_error (.inr hcause))
  outer hr := h.outer (resolve_append_eq_none.2 ⟨hl, hr⟩)

theorem push (h : Known C scope (row.columns ++ right) r) : Known C (scope.push row) right r where
  found _ hcause := h.found _ (resolve_append_eq_error (.inr hcause))
  outer hr := (h.of_append_left hr).lookup

end Known

theorem qualified_known : Qualified columns (Known C scope columns) :=
  fun _ _ _ _ hi hc => .of_resolve (resolve_ref hi hc)

theorem Expr.Bound.known (h : e.Bound columns) : e.RefsIn (Known C scope columns) := by
  intro r hr
  obtain ⟨i, hi⟩ := h r hr
  exact .of_resolve hi

/-- Renamed names are known where the full names of the columns are that they are given. -/
theorem Filter.known_rename {source target : List Column} (hlen : source.length = target.length)
    (hf : f.RefsIn (Known C scope source)) (hm : ∀ e ∈ f, e.Movable source target)
    (hnamed : ∀ r i c, resolve source r = .ok (some i) → target[i]? = some c →
      Known C scope target c.ref)
    (h : f.rename source target = .ok g) : g.RefsIn (Known C scope target) := by
  refine refsIn_rename (G := fun r => Known C scope source r ∧
      ((∃ i, resolve source r = .ok (some i)) ∨
        (resolve source r = .ok none ∧ resolve target r = .ok none))) ?_
    (fun e he r hr => ⟨hf e he r hr, hm e he r hr⟩) h
  rintro r ⟨hknown, hmov⟩ e he r' hr'
  rcases renameRef_eq_ok.1 he with ⟨i, c, hi, hc, rfl⟩ | ⟨i, hi, hc, -⟩ | ⟨hs, rfl⟩
  · obtain rfl : r' = c.ref := by simpa [Expr.refs] using hr'
    exact hnamed r i c hi hc
  · have hlt := lt_of_resolve hi
    rw [List.getElem?_eq_none_iff] at hc
    omega
  · obtain rfl : r' = r := by simpa [Expr.refs] using hr'
    rcases hmov with ⟨i, hi⟩ | ⟨-, ht⟩
    · simp [hs] at hi
    · exact ⟨ht ▸ failsIn_ok _, fun _ => hknown.outer hs⟩

theorem Filter.known_qualify (hf : f.RefsIn (Known C scope columns))
    (h : f.qualify columns = .ok g) : g.RefsIn (Known C scope columns) := by
  refine known_rename rfl hf (fun e he r hr => ?_)
    (fun r i c hi hc => .of_resolve (resolve_ref hi hc)) h
  obtain ⟨_ | i, hi⟩ := Filter.clear_of_rename h e he r hr
  exacts [.inr ⟨hi, hi⟩, .inl ⟨i, hi⟩]

theorem Stage.known_unproject {outputs : List Output} {e' : Expr}
    (hb : ∀ out ∈ outputs, out.expr.Bound columns)
    (hm : e.Movable (outputs.map Output.column) columns)
    (he : e.RefsIn (Known C scope (outputs.map Output.column)))
    (h : unproject outputs e = .ok e') : e'.RefsIn (Known C scope columns) := by
  intro r' hr'
  rcases refsIn_unproject hb hm h r' hr' with ⟨i, hi⟩ | ⟨hr, hout, hin⟩
  · exact .of_resolve hi
  · exact ⟨hin ▸ failsIn_ok _, fun _ => (he r' hr).outer hout⟩

theorem Join.Decides.known {parts : JoinParts} {d : Join.Decision}
    (h : Join.Decides left right es parts d)
    (hes : ∀ e ∈ es, e.RefsIn (Known C scope (left ++ right))) :
    d.forLeft.RefsIn (Known C scope left) ∧
      (d.strategy = .nestedLoop → ∀ row : Row, row.columns = left →
        d.forRight.RefsIn (Known C (scope.push row) right)) ∧
      (d.strategy ≠ .nestedLoop → d.forRight.RefsIn (Known C scope right)) := by
  obtain ⟨hleft, hnested, hkeyed⟩ := h.refsIn hes
  refine ⟨hleft.imp fun r hr => hr.1.of_append_left hr.2, fun hs row hrow => ?_, fun hs => ?_⟩
  · subst hrow
    exact (hnested hs).imp fun r hr => hr.push
  · exact (hkeyed hs).imp fun r hr => hr.1.of_append_right hr.2

section
variable (hC : ∀ cause, cause.OtherThanName → C cause)
include hC

theorem Expr.failsIn_evalRow (h : e.RefsIn (Known C scope row.columns)) :
    FailsIn C (e.evalRow scope row) :=
  failsIn_evalWith (fun cause h => hC cause h.otherThanName) fun r hr => (h r hr).lookup

theorem Expr.failsIn_evalAll (h : ∀ e ∈ es, e.RefsIn (Known C scope row.columns)) :
    FailsIn C (evalAll scope row es) :=
  failsIn_mapM fun e he => failsIn_evalRow hC (h e he)

theorem Filter.failsIn_holds (h : f.RefsIn (Known C scope columns)) :
    ∀ row : Row, row.columns = columns → ∀ e ∈ f, FailsIn C (e.holds scope row) := by
  rintro row rfl e he
  exact Expr.failsIn_holds (fun cause h => hC cause h.otherThanName)
    (Expr.failsIn_evalRow hC (h e he))

theorem failsIn_joinKey_bound {keys : List Expr} (hb : ∀ e ∈ keys, e.Bound columns) :
    ∀ row : Row, row.columns = columns → FailsIn C (joinKey scope row keys) :=
  fun _ hrow => failsIn_joinKey fun e he => Expr.failsIn_evalRow hC (hrow ▸ (hb e he).known)

/-! ### Scans -/

theorem AccessPath.failsIn_scan {t : Table} {requested : Option SortOrder} {p : AccessPath}
    (hf : f.RefsIn (Known C scope t.columns)) (h : Selected t f requested p) :
    Logged.OpensIn C (.ofResult (Opened.once <$> p.scan scope)) := by
  cases h with
  | full => exact Logged.opensIn_pure (o := .once _) (Scan.failsIn_ofList _)
  | @index i c _ _ hc =>
    have hvalues : ∀ cause : QueryError, cause.OfValues → C cause :=
      fun cause h => hC cause h.otherThanName
    have hprobe : FailsIn C (i.scan c.probe scope) := by
      refine Index.failsIn_scan hvalues (fun _ => hC _ trivial) fun d hd =>
        Expr.failsIn_evalWith hvalues fun r hr => ?_
      obtain ⟨hknown, hnone⟩ := refsIn_probe hf.conjuncts hc d hd r hr
      exact hknown.outer hnone
    refine ⟨(hprobe.bind fun _ _ => failsIn_ok _).map _, fun o ho => ?_⟩
    obtain ⟨s, hs, rfl⟩ := Result.map_eq_ok.1 ho
    obtain ⟨tids, -, hs⟩ := Result.bind_eq_ok.1 hs
    cases hs
    exact failsIn_rowsAt fun _ => hC _ trivial

theorem SortOrder.failsIn_gather {order : SortOrder} {s : Unit → Scan Row}
    (ho : order.Bound columns) (h : (s ()).FailsIn C) (hall : (s ()).All (·.columns = columns)) :
    FailsIn C (order.gather scope s).result := by
  refine (h.map hall fun row hrow => ?_).drain
  refine (Expr.failsIn_evalAll hC ?_).bind fun _ _ => failsIn_ok _
  exact List.forall_mem_map.2 fun k hk => (hrow ▸ ho k hk).known

theorem Output.failsIn_compute {outputs : List Output}
    (hb : ∀ out ∈ outputs, out.expr.Bound columns) (hrow : row.columns = columns) :
    FailsIn C (compute scope outputs row) := by
  refine (Expr.failsIn_evalAll hC ?_).bind fun _ _ => Row.failsIn_make fun _ _ => hC _ trivial
  exact List.forall_mem_map.2 fun out hout => (hrow ▸ hb out hout).known

theorem Opened.failsIn_reshape {o : Opened} (h : (o.scan ()).FailsIn C) :
    ((o.reshape columns).scan ()).FailsIn C :=
  h.map (Scan.all_true _) fun _ _ => Row.failsIn_make fun _ _ => hC _ trivial

end

/-! ### Columns that are told apart -/

/-- The full name of each column means it alone. -/
def DistinctNames (columns : List Column) : Prop := ∀ c ∈ columns, (Expr.ref c.ref).Bound columns

instance (columns : List Column) : Decidable (DistinctNames columns) :=
  inferInstanceAs (Decidable (∀ c ∈ columns, (Expr.ref c.ref).Bound columns))

theorem DistinctNames.known {c : Column} {i : Nat} (h : DistinctNames columns)
    (hc : columns[i]? = some c) : Known C scope columns c.ref :=
  (h c (List.mem_of_getElem? hc)).known _ (List.mem_singleton_self _)

namespace Plan

/-- The columns of the right input of each union are told apart by their full names. -/
def ToldApart : Plan → Prop
  | source _ _ => True
  | stage _ _ input => input.ToldApart
  | pair _ (.join _) left right => left.ToldApart ∧ right.ToldApart
  | pair _ (.union _) left right =>
    DistinctNames right.columns ∧ left.ToldApart ∧ right.ToldApart

instance decidableToldApart : (p : Plan) → Decidable p.ToldApart
  | source _ _ => .isTrue trivial
  | stage _ _ input => decidableToldApart input
  | pair _ (.join _) left right =>
    have := decidableToldApart left
    have := decidableToldApart right
    inferInstanceAs (Decidable (_ ∧ _))
  | pair _ (.union _) left right =>
    have := decidableToldApart left
    have := decidableToldApart right
    inferInstanceAs (Decidable (_ ∧ _ ∧ _))

variable {p q input : Plan} {o : Option SortOrder} {opened : Opened}

theorem toldApart_arrangeLeft (strategy : JoinStrategy) :
    (Join.arrangeLeft strategy p).ToldApart ↔ p.ToldApart := by
  cases strategy <;> rfl

theorem toldApart_arrangeRight (strategy : JoinStrategy) :
    (Join.arrangeRight strategy p).ToldApart ↔ p.ToldApart := by
  cases strategy <;> rfl

/-- Rows of these columns are read from the plan, and neither opening and reading it nor checking
what it leaves over fails for another cause. -/
structure ReadsIn (C : QueryError → Prop) (columns : List Column) (scope : Scope) (q : Plan) :
    Prop where
  opens : (q.scan scope).OpensIn C
  all : ∀ o, (q.scan scope).result = .ok o → (o.scan ()).All (·.columns = columns)
  checked : ∀ o, (q.scan scope).result = .ok o → ((o.filter scope q.residual).scan ()).FailsIn C

theorem ReadsIn.all_checked (h : q.ReadsIn C columns scope)
    (hopen : (q.scan scope).result = .ok opened) :
    ((opened.filter scope q.residual).scan ()).All (·.columns = columns) :=
  Opened.all_filter (h.all opened hopen) _

section
variable {pushed kept : Filter} {wanted : Option SortOrder} {j : Join} {u : Union}
  {pairs : List KeyPair}

theorem opensIn_filter (hi : input.ReadsIn C columns scope) :
    ((stage .settled (.filter e pushed) input).scan scope).OpensIn C := by
  rw [scan_stage]
  exact hi.opens.bind fun o ho _ => Logged.opensIn_pure (hi.checked o ho)

theorem opensIn_cut {c : Cut} (hi : input.ReadsIn C columns scope) :
    ((stage .settled (.cut c pushed wanted) input).scan scope).OpensIn C := by
  rw [scan_stage]
  refine hi.opens.bind fun o ho _ => Logged.opensIn_pure ?_
  cases c with
  | limit n =>
    show (if n = 0 then Scan.done else _ : Scan Row).FailsIn _
    split
    · trivial
    · exact (hi.checked o ho).take n
  | offset n => exact (hi.checked o ho).drop n

variable (hC : ∀ cause, cause.OtherThanName → C cause)
include hC

theorem opensIn_sort {order : SortOrder} {buffered : Bool} (hi : input.ReadsIn C columns scope)
    (ho : order.Bound columns) :
    ((stage .settled (.sort order buffered wanted) input).scan scope).OpensIn C := by
  rw [scan_stage]
  refine hi.opens.bind fun opened hopen hfails => ?_
  show (scanSorted .settled order buffered input scope opened).OpensIn C
  unfold scanSorted
  dsimp only
  split
  · exact Logged.opensIn_pure hfails
  · refine ⟨?_, fun o' ho' => ?_⟩
    · rw [Logged.result_bind]
      exact (SortOrder.failsIn_gather hC ho hfails (hi.all opened hopen)).bind
        fun _ _ => failsIn_ok _
    · obtain ⟨rows, -, ho'⟩ := Logged.result_bind_eq_ok.1 ho'
      cases ho'
      exact Scan.failsIn_ofList _

theorem opensIn_project {outputs : List Output} (hi : input.ReadsIn C columns scope)
    (hb : ∀ out ∈ outputs, out.expr.Bound columns) :
    ((stage .settled (.project outputs pushed wanted kept) input).scan scope).OpensIn C := by
  rw [scan_stage]
  exact hi.opens.bind fun o ho _ => Logged.opensIn_pure <|
    (hi.checked o ho).map (hi.all_checked ho) fun _ hrow => Output.failsIn_compute hC hb hrow

theorem opensIn_rename {name : String} {unmet : Option SortOrder}
    (hi : (input.scan scope).OpensIn C) :
    ((stage .settled (.rename name kept pushed unmet) input).scan scope).OpensIn C := by
  rw [scan_stage]
  exact hi.bind fun _ _ hfails => Logged.opensIn_pure (Opened.failsIn_reshape hC hfails)

theorem opensIn_nestedLoop (hj : j.strategy = some .nestedLoop)
    (hl : p.ReadsIn C left scope)
    (hr : ∀ row : Row, row.columns = left → q.ReadsIn C right (scope.push row)) :
    ((pair .settled (.join j) p q).scan scope).OpensIn C := by
  rw [scan_nestedLoop hj]
  refine hl.opens.bind fun lo hlopen _ => Logged.opensIn_pure ?_
  refine failsIn_nestedLoop (fun _ _ => hC _ trivial) (hl.checked lo hlopen)
    (hl.all_checked hlopen) fun row hrow => ?_
  refine Scan.failsIn_ofLogged ?_ fun s hrun => ?_
  · rw [Logged.result_bind]
    exact (hr row hrow).opens.opening.bind fun _ _ => failsIn_ok _
  · obtain ⟨ro, hropen, hrun⟩ := Logged.result_bind_eq_ok.1 hrun
    cases hrun
    exact (hr row hrow).checked ro hropen

section
variable (hl : p.ReadsIn C left scope) (hr : q.ReadsIn C right scope)
  (hpairs : ∀ k ∈ pairs, k.left.Bound left ∧ k.right.Bound right)
include hl hr hpairs

theorem opensIn_hash (hj : j.strategy = some (.hash pairs)) :
    ((pair .settled (.join j) p q).scan scope).OpensIn C := by
  rw [scan_hash hj]
  refine hl.opens.bind fun lo hlopen _ => hr.opens.bind fun ro hropen _ => Logged.opensIn_pure ?_
  exact failsIn_hashJoin (fun _ _ => hC _ trivial) (fun cause h => hC cause h.otherThanName)
    (hl.checked lo hlopen) (hl.all_checked hlopen) (hr.checked ro hropen) (hr.all_checked hropen)
    (failsIn_joinKey_bound hC (List.forall_mem_map.2 fun k hk => (hpairs k hk).1))
    (failsIn_joinKey_bound hC (List.forall_mem_map.2 fun k hk => (hpairs k hk).2))

theorem opensIn_merge (hj : j.strategy = some (.merge pairs)) :
    ((pair .settled (.join j) p q).scan scope).OpensIn C := by
  rw [scan_merge hj]
  refine hl.opens.bind fun lo hlopen _ => hr.opens.bind fun ro hropen _ => Logged.opensIn_pure ?_
  exact failsIn_mergeJoin (fun _ _ => hC _ trivial) (fun _ => hC _ trivial)
    (hl.checked lo hlopen) (hl.all_checked hlopen) (hr.checked ro hropen) (hr.all_checked hropen)
    (failsIn_joinKey_bound hC (List.forall_mem_map.2 fun k hk => (hpairs k hk).1))
    (failsIn_joinKey_bound hC (List.forall_mem_map.2 fun k hk => (hpairs k hk).2))

end

theorem opensIn_union (hl : (p.scan scope).OpensIn C) (hr : (q.scan scope).OpensIn C)
    (hfl : u.leftLocal.RefsIn (Known C scope p.columns))
    (hfr : u.rightLocal.RefsIn (Known C scope p.columns)) :
    ((pair .settled (.union u) p q).scan scope).OpensIn C := by
  have hchecked {o : Opened} {g : Filter} (hfails : (o.scan ()).FailsIn C)
      (hg : g.RefsIn (Known C scope p.columns)) :
      (((o.reshape p.columns).filter scope g).scan ()).FailsIn C :=
    Opened.failsIn_filter (Opened.failsIn_reshape hC hfails) Opened.all_reshape
      (Filter.failsIn_holds hC hg)
  rw [scan_union]
  refine hl.bind fun lo _ hlfails => hr.bind fun ro _ hrfails => Logged.opensIn_pure ?_
  have hboth := (hchecked hlfails hfl).append (hchecked hrfails hfr)
  dsimp only [Opened.once]
  split
  · exact hboth.distinct _ _
  · exact hboth

end

/-! ### Settled plans -/

section
variable (hC : ∀ cause, cause.OtherThanName → C cause)
include hC

theorem Settles.readsIn (h : Settles p f o q) (hf : f.RefsIn (Known C scope p.columns))
    (hopens : (q.scan scope).OpensIn C) : q.ReadsIn C p.columns scope where
  opens := hopens
  all _ hopen := h.all_columns hopen
  checked o hopen := Opened.failsIn_filter (hopens.reading o hopen) (h.all_columns hopen)
    (Filter.failsIn_holds hC (h.refsIn_residual qualified_known hf))

/-- A settled plan that was handed names known among its columns meets no others, unless a union
gives the name of two columns to a filter for its right input. -/
theorem Settles.opensIn (h : Settles p f o q)
    (hp : (∀ r, C (.ambiguousColumn r)) ∨ p.ToldApart) (hf : f.RefsIn (Known C scope p.columns)) :
    (q.scan scope).OpensIn C := by
  -- A nested loop reads its right input with the left row pushed on the scope, so the scope stays
  -- general along the induction.
  induction h generalizing scope with
  | table _ hq _ hpath =>
    rw [scan_source]
    exact AccessPath.failsIn_scan hC (Filter.known_qualify hf hq).taken.fold
      (AccessPath.selected_of_select hpath)
  | @rows columns rows f f' _ hcol hq =>
    rw [scan_source]
    have hf' := Filter.known_qualify hf.taken.fold hq
    cases f' with
    | none => exact Logged.opensIn_pure (o := .ofRows rows) (Scan.failsIn_ofList _)
    | some e =>
      refine ⟨(failsIn_filterM fun row hrow => ?_).map _, fun o ho => ?_⟩
      · exact Filter.failsIn_holds hC hf' row (hcol row hrow) e rfl
      · obtain ⟨rows', -, rfl⟩ := Result.map_eq_ok.1 ho
        exact Scan.failsIn_ofList _
  | @filter e e' input _ f _ he hi ih =>
    have hf' : (Filter.fold (.union [some e', f.taken])).RefsIn (Known C scope input.columns) :=
      ((Filter.refsIn_some.2 (Expr.bindTo_spec he).2.1.known).union hf.taken).fold
    exact opensIn_filter (hi.readsIn hC hf' (ih hp hf'))
  | sort ho hi ih =>
    exact opensIn_sort hC (hi.readsIn hC hf (ih hp hf)) (SortOrder.bindTo_spec ho).1
  | @project outputs outputs' input input' f moving kept _ _ hout hsplit _ hi ih =>
    obtain ⟨ms, ss, hm, -, hmem, hmov⟩ := Stage.splitProjected_spec hsplit
    have hb := Stage.bound_of_bindOutputs hout
    have hf : f.RefsIn (Known C scope (outputs'.map Output.column)) := by
      rw [columns_bindOutputs hout]
      exact hf
    have hf' : moving.RefsIn (Known C scope input.columns) := by
      rcases Result.optionMapM_eq_ok.1 hm with ⟨-, rfl⟩ | ⟨e, e', he, rfl, he'⟩
      · exact Filter.refsIn_none
      · have hms := Filter.refsIn_ofList.2 fun c hc => hf.taken.conjuncts c ((hmem c).2 (.inl hc))
        intro d hd
        cases hd
        exact Stage.known_unproject hb (Filter.movable_ofList hmov e he) (hms e he) he'
    exact opensIn_project hC (hi.readsIn hC hf' (ih hp hf')) hb
  | cut _ hi ih => exact opensIn_cut (hi.readsIn hC Filter.refsIn_none (ih hp Filter.refsIn_none))
  | rename hown hsplit hren _ _ _ _ ih =>
    subst hown
    obtain ⟨ms, ss, rfl, rfl, hmem, hmov⟩ := Filter.split_spec hsplit
    have hmoving := Filter.refsIn_ofList.2 fun c hc => hf.conjuncts c ((hmem c).2 (.inl hc))
    -- A name of the renamed columns is handed on as the full name of the input's column there.
    have hf' := Filter.known_rename (List.length_map _) hmoving (Filter.movable_ofList hmov)
      (fun r i c hi hc => .of_resolve (resolve_ref_of_withRelation hi hc)) hren
    exact opensIn_rename hC (ih hp hf')
  | @join _ condition' _ left right left' right' f _ _ _ _ d hcond hd _ hl hr ihl ihr =>
    obtain ⟨pushed, parts, hq, hdec⟩ := Join.decide_spec hd
    have hcs : ∀ c ∈ (Filter.fold (.union [condition', pushed])).conjuncts,
        c.RefsIn (Known C scope (left.columns ++ right.columns)) :=
      (Filter.RefsIn.union (fun e he => ((Filter.bindTo_spec hcond).1 e he).known)
        (Filter.known_qualify hf.taken hq)).fold.conjuncts
    obtain ⟨hleft, hnested, hkeyed⟩ := hdec.known hcs
    have hcol := columns_arrangeLeft d.strategy left
    have hcol' := columns_arrangeRight d.strategy right
    have hpairs := hdec.bound_pairs
    rw [← hcol] at hleft hnested
    rw [← hcol'] at hnested hkeyed
    rw [← hcol, ← hcol'] at hpairs
    have hlreads := hl.readsIn hC hleft
      (ihl (hp.imp_right fun h => (toldApart_arrangeLeft _).2 h.1) hleft)
    have hrreads {scope : Scope} (hright : d.forRight.RefsIn (Known C scope _)) :=
      hr.readsIn hC hright
        (ihr (hp.imp_right fun h => (toldApart_arrangeRight _).2 h.2) hright)
    cases hs : d.strategy with
    | nestedLoop =>
      exact opensIn_nestedLoop hC rfl hlreads fun row hrow => hrreads (hnested hs row hrow)
    | hash pairs =>
      exact opensIn_hash hC hlreads (hrreads (hkeyed (by simp [hs])))
        (fun k hk => hpairs k (by rwa [hs])) rfl
    | merge pairs =>
      exact opensIn_merge hC hlreads (hrreads (hkeyed (by simp [hs])))
        (fun k hk => hpairs k (by rwa [hs])) rfl
  | @union distinct left right left' right' f l r _ d hd hl hr hleft hright ihl ihr =>
    obtain ⟨hlen, ms, ss, -, hfl, hfr, hmem, hmov⟩ := Union.decide_spec hd
    have hmoving := Filter.refsIn_ofList.2 fun c hc =>
      hf.taken.fold.conjuncts c ((hmem c).2 (.inl hc))
    have hml := Filter.movable_ofList fun c hc => (hmov c hc).1
    have hmr := Filter.movable_ofList fun c hc => (hmov c hc).2
    have hknownl := Filter.known_qualify hmoving hfl
    have hknownr := Filter.known_rename hlen hmoving hmr
      (fun r i c _ hc => hp.elim (fun hamb => .ref hamb hc) fun h => h.1.known hc) hfr
    -- what comes up again is known among the columns of the union
    have hupl := Filter.refsIn_of_returns (hl.refsIn_residual qualified_returns
      (Filter.refsIn_returns qualified_known rfl hmoving hml hfl)) hleft
    have hupr := Filter.refsIn_of_returns (hr.refsIn_residual qualified_returns
      (Filter.refsIn_returns qualified_known hlen hmoving hmr hfr)) hright
    rw [← hl.columns] at hupl hupr
    exact opensIn_union hC (ihl (hp.imp_right fun h => h.2.1) hknownl)
      (ihr (hp.imp_right fun h => h.2.2) hknownr) hupl.diff hupr.diff

theorem Assembled.failsIn_drain (hp : p.Assembled)
    (hapart : (∀ r, C (.ambiguousColumn r)) ∨ p.ToldApart)
    (hopt : p.optimize.2.result = .ok ()) (scope : Scope) :
    FailsIn C (p.optimize.1.drain scope p.optimize.1.residual) := by
  have hset := hp.settles_alone hopt
  have hreads : p.optimize.1.ReadsIn C p.columns scope :=
    hset.readsIn hC Filter.refsIn_none (hset.opensIn hC hapart Filter.refsIn_none)
  exact hreads.opens.opening.bind fun o ho => (hreads.checked o ho).drain

end

/-- No name is unknown when a plan is read that was optimized, and none is ambiguous if its unions
tell the columns of their right inputs apart. -/
theorem Assembled.drain_names (hp : p.Assembled) (hopt : p.optimize.2.result = .ok ())
    (scope : Scope) {cause : QueryError}
    (hfail : p.optimize.1.drain scope p.optimize.1.residual = .error cause)
    (r : ColumnRef) : cause ≠ .unknownColumn r ∧ (p.ToldApart → cause ≠ .ambiguousColumn r) := by
  constructor
  · rintro rfl
    refine hp.failsIn_drain (C := (· ≠ .unknownColumn r)) ?_ (.inl fun _ => by simp) hopt scope _
      hfail rfl
    rintro _ h rfl
    exact h
  · rintro hapart rfl
    exact hp.failsIn_drain (fun _ h => h) (.inr hapart) hopt scope _ hfail

/-- The rows of a union in which `10 / q` is `2`.  Its right input has a limit below a filter, and
columns of the given names. -/
def quotientsOfUnion (x y : String) : Plan :=
  .filter (.binary (.cmp .eq) (.binary (.arith .div) (.const (.int 10)) (.ref ⟨none, "q"⟩))
      (.const (.int 2)))
    (.union false (pairs "p" "q" (.int 1) (.int 5))
      (.filter (.const (.bool true))
        (stage .building (.cut (.limit 9) none none) (pairs x y (.int 3) (.int 0)))))
where
  pairs (x y : String) (v w : Value) : Plan :=
    let columns := [⟨none, x, .int, false⟩, ⟨none, y, .int, false⟩]
    source .building (.rows { columns, rows := [⟨columns, [v, w], none, rfl⟩] })

theorem built_quotientsOfUnion (x y : String) : (quotientsOfUnion x y).Built :=
  .filter _ (.union _ (.rows (by simp)) (.filter _ (.cut _ (.rows (by simp)))))

/-- It is the quotient that fails below a union whose columns are told apart. -/
theorem drain_names_quotient : (quotientsOfUnion "x" "y").ToldApart ∧
    (quotientsOfUnion "x" "y").optimize.2.result = .ok () ∧
    ∃ cause, (quotientsOfUnion "x" "y").optimize.1.drain .empty
        (quotientsOfUnion "x" "y").optimize.1.residual = .error cause ∧
      cause = .divisionByZero ∧ cause ≠ .ambiguousColumn ⟨none, "x"⟩ := by
  have hapart : (quotientsOfUnion "x" "y").ToldApart := by decide
  have hopt : (quotientsOfUnion "x" "y").optimize.2.result = .ok () := by cbv
  have hdrain : (quotientsOfUnion "x" "y").optimize.1.drain .empty
      (quotientsOfUnion "x" "y").optimize.1.residual = .error .divisionByZero := by cbv
  exact ⟨hapart, hopt, _, hdrain, rfl,
    ((built_quotientsOfUnion "x" "y").assembled.drain_names hopt .empty hdrain _).2 hapart⟩

/-- Where the right columns share a name, `q` becomes that name below the union, and no node looks
it up before the rows are read. -/
theorem ambiguous_below_union : (quotientsOfUnion "x" "x").Built ∧
    (quotientsOfUnion "x" "x").optimize.2.result = .ok () ∧
    (quotientsOfUnion "x" "x").optimize.1.drain .empty
      (quotientsOfUnion "x" "x").optimize.1.residual = .error (.ambiguousColumn ⟨none, "x"⟩) :=
  ⟨built_quotientsOfUnion "x" "x", by cbv, by cbv⟩

end Plan

end RelPlan

import RelPlan.Proofs.NameFailures
import RelPlan.Proofs.Optimizing
import RelPlan.Proofs.PlanScanners

/-!
# Marks below plans

A merge join has its right input sorted in memory, and what is handed to the input later leaves it
there (`Plan.Buffered.optimize`).  So no plan that was optimized fails for want of marks while it is
read (`Plan.unmarked_optimize`).
-/

namespace RelPlan

open Result

/-- The error does not say that a scanner takes no marks. -/
def QueryError.OtherThanMark (cause : QueryError) : Prop := cause ≠ .markUnsupported

section

variable {scope : Scope} {row : Row}

open QueryError (OtherThanMark)

theorem QueryError.OfValues.otherThanMark {cause : QueryError} (h : cause.OfValues) :
    cause.OtherThanMark := by
  rintro rfl
  exact h

theorem failsIn_lookup (scope : Scope) (r : ColumnRef) :
    FailsIn OtherThanMark (scope.lookup r) := by
  obtain ⟨rows⟩ := scope
  unfold Scope.lookup
  induction rows with
  | nil => exact failsIn_error nofun
  | cons row rows ih =>
    have hresolve : FailsIn OtherThanMark (resolve row.columns r) := fun cause hcause => by
      rw [resolve_eq_error hcause]
      exact nofun
    refine (hresolve.bind fun o _ => ?_).bind fun o _ => ?_
    · cases o <;> exact failsIn_ok _
    · cases o with
      | none => exact ih
      | some v => exact failsIn_ok _

theorem Expr.failsIn_eval (scope : Scope) (e : Expr) : FailsIn OtherThanMark (e.eval scope) :=
  Expr.failsIn_evalWith (fun _ h => h.otherThanMark) fun r _ => failsIn_lookup scope r

theorem Expr.failsIn_test (scope : Scope) (row : Row) (e : Expr) :
    FailsIn OtherThanMark (e.holds scope row) :=
  Expr.failsIn_holds (fun _ h => h.otherThanMark) (e.failsIn_eval _)

theorem failsIn_joinKeys (scope : Scope) (row : Row) (keys : List Expr) :
    FailsIn OtherThanMark (joinKey scope row keys) :=
  failsIn_joinKey fun e _ => e.failsIn_eval _

theorem AccessPath.opensIn_scan (p : AccessPath) (scope : Scope) :
    Logged.OpensIn OtherThanMark (.ofResult (Opened.once <$> p.scan scope)) := by
  obtain ⟨t, route⟩ := p
  cases route with
  | full => exact Logged.opensIn_pure (o := .once _) (Scan.failsIn_ofList _)
  | index i probe enforced order =>
    have hprobe : FailsIn OtherThanMark (i.scan probe scope) :=
      Index.failsIn_scan (fun _ h => h.otherThanMark) (fun _ => nofun) fun e _ =>
        e.failsIn_eval scope
    refine ⟨(hprobe.bind fun _ _ => failsIn_ok _).map _, fun o ho => ?_⟩
    obtain ⟨s, hs, rfl⟩ := Result.map_eq_ok.1 ho
    obtain ⟨tids, -, hs⟩ := Result.bind_eq_ok.1 hs
    cases hs
    exact failsIn_rowsAt fun _ => nofun

theorem Opened.failsIn_checked {o : Opened} (h : (o.scan ()).FailsIn OtherThanMark) (f : Filter) :
    ((o.filter scope f).scan ()).FailsIn OtherThanMark :=
  Opened.failsIn_filter h (Scan.all_true _) fun row _ e _ => e.failsIn_test scope row

theorem Opened.failsIn_reshaped {o : Opened} {columns : List Column}
    (h : (o.scan ()).FailsIn OtherThanMark) :
    ((o.reshape columns).scan ()).FailsIn OtherThanMark :=
  h.map (Scan.all_true _) fun _ _ => Row.failsIn_make fun _ _ => nofun

end

namespace Plan

open QueryError (OtherThanMark)

variable {p q input left right : Plan} {scope : Scope} {o : Opened}

/-! ### Buffered inputs -/

/-- The rows of the plan are in memory, whether or not one of its nodes has to sort them. -/
def Buffered : Plan → Prop
  | source _ (.table _) => False
  | source _ (.rows _) => True
  | stage _ s input =>
    match s with
    | .filter _ _ | .project _ _ _ _ | .rename _ _ _ _ => input.Buffered
    | .sort _ buffered _ => buffered ∨ input.Buffered
    | .cut _ _ _ => False
  | pair _ _ _ _ => False

theorem Buffered.keepsRows (hp : p.Buffered) : p.keepsRows := by
  induction p with
  | source phase s =>
    cases s with
    | table r => cases hp
    | rows r => rfl
  | stage phase s input ih =>
    cases s with
    | filter | project | rename => exact ih hp
    | sort order buffered wanted =>
      rcases hp with rfl | hp
      · simp [Plan.keepsRows]
      · simp [Plan.keepsRows, ih hp]
    | cut => cases hp
  | pair => cases hp

theorem ignoresHanded_buffered : IgnoresHanded Buffered where
  table _ _ _ _ _ h := h
  rows _ _ _ _ _ h := h
  filtered phase s columns e input input' hi h := by
    cases s with
    | filter | project => exact hi h
    | sort => exact h.imp_right hi
    | cut => exact h
    | rename name kept residual unmet =>
      unfold Stage.takeFilter
      dsimp only
      split <;> exact hi h
  ordered phase s columns o input input' hi h := by
    cases s with
    | filter | project | rename => exact hi h
    | sort => exact h.imp_right hi
    | cut => exact h
  pair _ _ _ _ _ h := h

theorem handingKeeps_buffered : HandingKeeps Buffered where
  filter e _ hp := ignoresHanded_buffered.addFilter e hp
  order o _ hp := ignoresHanded_buffered.addOrder o hp
  sort _ _ _ hp := .inr hp

theorem buffered_settle (phase : Phase) (s : Stage) (input : Plan) :
    (stage phase (s.settle input).1 input).Buffered ↔ (stage phase s input).Buffered := by
  cases s with
  | filter | project | cut => rfl
  | sort =>
    simp only [Stage.settle]
    split <;> rfl
  | rename =>
    simp only [Stage.settle, Stage.settleRename]
    split
    · rfl
    · split <;> rfl

theorem Buffered.optimize (hp : p.Buffered) (hopt : p.optimize.2.result = .ok ()) :
    p.optimize.1.Buffered := by
  revert hp
  refine optimize_induct (motive := fun p q => p.Buffered → q.Buffered) ?_ ?_ ?_ hopt
  · intro s _ hp
    cases s with
    | table r => cases hp
    | rows r =>
      unfold Source.settle
      dsimp only
      split <;> trivial
  · intro s input s' input' hdown _ _ ih hp
    refine (buffered_settle ..).2 ?_
    have hinput (hi : input.Buffered) : input'.Buffered := by
      have := handingKeeps_buffered.descend_stage s hi
      rwa [hdown] at this
    cases s with
    | filter predicate pushed =>
      obtain ⟨_, -, -, rfl⟩ := descendFilter_eq_ok hdown
      exact ih (hinput hp)
    | sort order buffered wanted =>
      obtain ⟨_, -, -, rfl⟩ := descendSort_eq_ok hdown
      exact hp.imp_right fun hi => ih (hinput hi)
    | project outputs pushed wanted kept =>
      obtain ⟨_, _, _, _, -, -, -, -, rfl⟩ := descendProject_eq_ok hdown
      exact ih (hinput hp)
    | cut => cases hp
    | rename =>
      cases hdown
      exact ih hp
  · intro s left right s' left' right' notes hdown _ _ _ _ _ hp
    cases hp

theorem right_descendOrder (j : Join) (left right : Plan) :
    (j.descendOrder left right).right = right := by
  unfold Join.descendOrder
  split
  · rfl
  · rfl
  · dsimp only
    split
    · rfl
    · split <;> rfl

theorem handingKeeps_any : HandingKeeps fun _ => True :=
  ⟨fun _ _ _ => trivial, fun _ _ _ => trivial, fun _ _ _ _ => trivial⟩

/-- A join that is optimized has a strategy, and if it merges, its right input is buffered. -/
theorem descendJoin_buffered {j : Join} {s' : Pairing} {left' right' : Plan} {notes : List Note}
    (h : j.descend left right = ⟨s', left', right', ⟨notes, .ok ()⟩⟩) :
    ∃ j' strategy, s' = .join j' ∧ j'.strategy = some strategy ∧
      ∀ pairs, strategy = .merge pairs → right'.Buffered := by
  unfold Join.descend at h
  split at h
  · cases h
  · next condition' _ =>
    unfold Join.descendBound at h
    split at h
    · cases h
    · next d _ =>
      obtain ⟨-, notes', h⟩ := andThen_eq_ok h
      obtain ⟨j', hpairing, hstrategy⟩ := pairing_descendOrder { j with
        condition := condition', strategy := some d.strategy } _ _
      rw [h] at hpairing
      refine ⟨j', d.strategy, hpairing, hstrategy, fun pairs hmerge => ?_⟩
      have harranged : (Join.arrangeRight d.strategy right).Buffered := by
        rw [hmerge]
        exact .inl rfl
      have hright : _ = right' :=
        (right_descendOrder ..).symm.trans (congrArg PairDescent.right h)
      rw [← hright]
      exact (handingKeeps_any.handFilters handingKeeps_buffered _ d.forLeft d.forRight trivial
        harranged).2

/-- Neither opening the plan nor reading it fails for want of marks. -/
def Unmarked (q : Plan) : Prop := ∀ scope, (q.scan scope).OpensIn OtherThanMark

section
variable {phase : Phase}

theorem unmarked_source (s : Source) : (source .settled s).Unmarked := by
  intro scope
  rw [scan_source]
  cases s with
  | table r =>
    unfold Source.scan
    dsimp only
    split
    · next path _ => exact path.opensIn_scan scope
    · exact ⟨failsIn_error nofun, nofun⟩
  | rows r =>
    unfold Source.scan
    dsimp only
    split
    · exact Logged.opensIn_pure (o := .ofRows r.rows) (Scan.failsIn_ofList _)
    · refine ⟨(failsIn_filterM fun row _ => Expr.failsIn_test scope row _).map _, fun o ho => ?_⟩
      obtain ⟨rows, -, rfl⟩ := Result.map_eq_ok.1 ho
      exact Scan.failsIn_ofList _

theorem unmarked_stage (s : Stage) (hi : input.Unmarked) : (stage .settled s input).Unmarked := by
  intro scope
  rw [scan_stage]
  refine (hi scope).bind fun o _ hfails => ?_
  have hchecked : ((o.filter scope input.residual).scan ()).FailsIn OtherThanMark :=
    Opened.failsIn_checked hfails input.residual
  cases s with
  | filter predicate pushed => exact Logged.opensIn_pure hchecked
  | sort order buffered wanted =>
    show (scanSorted .settled order buffered input scope o).OpensIn OtherThanMark
    unfold scanSorted
    dsimp only
    split
    · exact Logged.opensIn_pure hfails
    · have hgather : FailsIn OtherThanMark (order.gather scope o.scan).result :=
        (hfails.map (Scan.all_true _) fun row _ =>
          (failsIn_mapM fun e _ => e.failsIn_eval _).bind fun _ _ => failsIn_ok _).drain
      refine ⟨?_, fun o' ho' => ?_⟩
      · rw [Logged.result_bind]
        exact hgather.bind fun _ _ => failsIn_ok _
      · obtain ⟨rows, -, ho'⟩ := Logged.result_bind_eq_ok.1 ho'
        cases ho'
        exact Scan.failsIn_ofList _
  | project outputs pushed wanted kept =>
    refine Logged.opensIn_pure (hchecked.map (Scan.all_true _) fun row _ => ?_)
    exact (failsIn_mapM fun e _ => e.failsIn_eval _).bind fun _ _ =>
      Row.failsIn_make fun _ _ => nofun
  | cut c pushed wanted =>
    refine Logged.opensIn_pure ?_
    cases c with
    | limit n =>
      show (if n = 0 then Scan.done else _ : Scan Row).FailsIn _
      split
      · trivial
      · exact hchecked.take n
    | offset n => exact hchecked.drop n
  | rename name kept residual unmet =>
    exact Logged.opensIn_pure (Opened.failsIn_reshaped hfails)

theorem unmarked_union (u : Union) (hl : left.Unmarked) (hr : right.Unmarked) :
    (pair .settled (.union u) left right).Unmarked := by
  intro scope
  rw [scan_union]
  refine (hl scope).bind fun lo _ hlfails => (hr scope).bind fun ro _ hrfails => ?_
  refine Logged.opensIn_pure ?_
  have hchecked {o : Opened} (h : (o.scan ()).FailsIn OtherThanMark) (g : Filter) :
      (((o.reshape left.columns).filter scope g).scan ()).FailsIn OtherThanMark :=
    Opened.failsIn_checked (Opened.failsIn_reshaped h) g
  have hboth := (hchecked hlfails u.leftLocal).append (hchecked hrfails u.rightLocal)
  dsimp only [Opened.once]
  split
  · exact hboth.distinct _ _
  · exact hboth

theorem unmarked_join {j : Join} {strategy : JoinStrategy} (hj : j.strategy = some strategy)
    (hmerge : ∀ pairs, strategy = .merge pairs → right.keepsRows) (hl : left.Unmarked)
    (hr : right.Unmarked) : (pair .settled (.join j) left right).Unmarked := by
  intro scope
  cases strategy with
  | nestedLoop =>
    rw [scan_nestedLoop hj]
    refine (hl scope).bind fun lo _ hlfails => Logged.opensIn_pure ?_
    refine failsIn_nestedLoop (fun _ _ => nofun) (Opened.failsIn_checked hlfails _)
      (Scan.all_true _) fun row _ => Scan.failsIn_ofLogged ?_ fun s hrun => ?_
    · rw [Logged.result_bind]
      exact (hr _).opening.bind fun _ _ => failsIn_ok _
    · obtain ⟨ro, hropen, hrun⟩ := Logged.result_bind_eq_ok.1 hrun
      cases hrun
      exact Opened.failsIn_checked ((hr _).reading ro hropen) _
  | hash pairs =>
    rw [scan_hash hj]
    refine (hl scope).bind fun lo _ hlfails => (hr scope).bind fun ro _ hrfails => ?_
    refine Logged.opensIn_pure ?_
    exact failsIn_hashJoin (fun _ _ => nofun) (fun _ h => h.otherThanMark)
      (Opened.failsIn_checked hlfails _) (Scan.all_true _) (Opened.failsIn_checked hrfails _)
      (Scan.all_true _) (fun row _ => failsIn_joinKeys scope row _)
      (fun row _ => failsIn_joinKeys scope row _)
  | merge pairs =>
    rw [scan_merge hj]
    refine (hl scope).bind fun lo _ hlfails => (hr scope).bind fun ro hropen hrfails => ?_
    refine Logged.opensIn_pure ?_
    have hkept : (ro.filter scope right.residual).kept = true := by
      have hro := kept_of_scan (hmerge pairs rfl) hropen
      cases right.residual <;> exact hro
    exact failsIn_mergeJoin (fun _ _ => nofun) (fun h => by rw [hkept] at h; cases h)
      (Opened.failsIn_checked hlfails _) (Scan.all_true _) (Opened.failsIn_checked hrfails _)
      (Scan.all_true _) (fun row _ => failsIn_joinKeys scope row _)
      (fun row _ => failsIn_joinKeys scope row _)

end

/-- No plan that was optimized fails for want of marks. -/
theorem unmarked_optimize (hopt : p.optimize.2.result = .ok ()) : p.optimize.1.Unmarked := by
  refine optimize_induct (motive := fun _ q => q.Unmarked) ?_ ?_ ?_ hopt
  · exact fun s _ => unmarked_source _
  · exact fun _ _ s' _ _ _ _ hi => unmarked_stage _ hi
  · intro s left right s' left' right' notes hdown _ hr _ hlm hrm
    cases s with
    | join j =>
      obtain ⟨j', strategy, rfl, hstrategy, hmerge⟩ := descendJoin_buffered hdown
      exact unmarked_join hstrategy (fun pairs hpairs =>
        ((hmerge pairs hpairs).optimize hr).keepsRows) hlm hrm
    | union u =>
      obtain ⟨_, -, -, -, rfl⟩ := descendUnion_eq_ok hdown
      exact unmarked_union _ hlm hrm

/-- The scanner of an optimized plan that keeps its rows takes marks and goes back to them, also
below a filter, and no optimized plan fails for want of marks while it is read. -/
theorem optimize_marks (hopt : p.optimize.2.result = .ok ()) (scope : Scope) :
    (p.optimize.1.keepsRows → ∀ s, (p.optimize.1.scanner scope).result = .ok s →
      ∀ scope' f, (s.wrap scope' f).Rewinds) ∧
    ∀ f, p.optimize.1.drain scope f ≠ .error .markUnsupported := by
  refine ⟨fun hkeeps s hs scope' f => rewinds_scanner hkeeps hs scope' f, fun f hfail => ?_⟩
  obtain ⟨hopens, hreads⟩ := unmarked_optimize hopt scope
  have hdrain : FailsIn OtherThanMark (p.optimize.1.drain scope f) :=
    hopens.bind fun o ho => (Opened.failsIn_checked (hreads o ho) f).drain
  exact hdrain _ hfail rfl

def keyColumns (relation name : String) : List Column :=
  [⟨some relation, "k", .int, false⟩, ⟨some relation, name, .int, false⟩]

def keyed (relation name : String) (rows : List (Int64 × Int64)) : Plan :=
  source .building (.rows {
    columns := keyColumns relation name
    rows := rows.map fun (k, v) => ⟨keyColumns relation name, [.int k, .int v], none, rfl⟩ })

/-- Merged pairs of rows with the same `k`, sorted in memory. -/
def mergedPairs : Plan :=
  sortBuffered (.ascending [.ref ⟨none, "b"⟩])
    (join (some (.binary (.cmp .eq) (.ref ⟨some "l", "k"⟩) (.ref ⟨some "r", "k"⟩))) .merge
      (keyed "l" "a" [(2, 1), (1, 2), (2, 3)]) (keyed "r" "b" [(2, 7), (1, 5), (2, 4)]))

def mergedPair (k a b : Int64) : Row :=
  ⟨keyColumns "l" "a" ++ keyColumns "r" "b", [.int k, .int a, .int k, .int b], none, rfl⟩

/-- The rows above the filter `a > 1`, with a mark behind the first of them. -/
theorem optimize_marks_merged :
    let rows := [mergedPair 2 1 4, mergedPair 2 3 4, mergedPair 1 2 5,
      mergedPair 2 1 7, mergedPair 2 3 7]
    let above := (Scanner.ofRows rows).wrap .empty
      (some (.binary (.cmp .gt) (.ref ⟨none, "a"⟩) (.const (.int 1))))
    mergedPairs.optimize.2.result = .ok () ∧ mergedPairs.optimize.1.keepsRows ∧
    (mergedPairs.optimize.1.scanner .empty).result = .ok (.ofRows rows) ∧
    (∃ marked, (above.after [.next]).mark = .ok marked ∧
      marked.next.1.result = .ok (some (mergedPair 1 2 5)) ∧
      (marked.after [.next, .next, .next, .next]).restore = .ok marked) ∧
    mergedPairs.optimize.1.drain .empty none = .ok rows ∧
    mergedPairs.optimize.1.drain .empty none ≠ .error .markUnsupported := by
  intro rows above
  have hopt : mergedPairs.optimize.2.result = .ok () := by cbv
  have hkeeps : mergedPairs.optimize.1.keepsRows = true := by cbv
  have hscanner : (mergedPairs.optimize.1.scanner .empty).result = .ok (.ofRows rows) := by cbv
  obtain ⟨hmarks, hdrain⟩ := optimize_marks hopt .empty
  have hrewinds : above.Rewinds := hmarks hkeeps _ hscanner .empty _
  obtain ⟨marked, hmarked⟩ := hrewinds.mark [.next]
  have hnext : (above.after [.next]).mark.map (·.next.1.result) =
      .ok (.ok (some (mergedPair 1 2 5))) := by cbv
  rw [hmarked] at hnext
  exact ⟨hopt, hkeeps, hscanner, ⟨marked, hmarked, Except.ok.inj hnext,
    hrewinds.back [.next] marked _ hmarked (by decide)⟩, by cbv, hdrain none⟩

end Plan

end RelPlan

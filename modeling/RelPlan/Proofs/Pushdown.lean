import Mathlib
import RelPlan.Proofs.Drains

/-!
# Filters handed to a plan

It does not matter whether a filter is handed to a plan, and what the plan leaves over is checked on
its rows, or whether the filter is checked on the rows of the plan that was handed nothing
(`Built.pushdown_sound`).  The references that the plan has no column for keep meaning columns of
the rows outside, however deep the filter went.
-/

namespace RelPlan

namespace Plan

variable {scope : Scope} {p p' q : Plan} {e : Expr} {rows : List Row}

theorem holds_of_drain (h : q.drain scope (some e) = .ok rows) :
    ∀ row ∈ rows, e.holds scope row = .ok true := by
  obtain ⟨o, -, hrows⟩ := Result.bind_eq_ok.1 h
  refine Scan.All.drain (Scan.All.filterMap (Scan.all_true (o.scan ())) fun a b _ hab => ?_) hrows
  obtain ⟨v, hv, hab⟩ := Result.bind_eq_ok.1 hab
  cases v <;> cases hab
  exact hv

/-- Checking a filter on the rows of a plan that was handed nothing. -/
theorem Settles.of_drain_filter (h : Settles p none none q) (hp : p.Built) (hx : p.IsExact)
    (hs : scope.IsExact) (hdrain : q.drain scope (some e) = .ok rows) :
    ∃ U, List.Forall₂ (Row.Stands p.columns) rows U ∧
      U.Perm (p.records.filter fun x => e.Passes (x.env p.columns scope.env)) := by
  obtain ⟨opened, hscan, hrows⟩ := Result.bind_eq_ok.1 hdrain
  obtain ⟨Ψ, U, hd⟩ := (h.delivers hp hx Filter.isExact_none (by simp)).delivery (fun _ => hs)
    hscan (fun _ => true) fun _ _ => .none rfl
  have hshare := hd.toShare
  rw [h.residual_eq_none rfl] at hshare
  have hperm := hshare.perm_of_none
  rw [List.filter_true] at hperm
  have hshows := Opened.shows_admitted hd.shows (f := some e)
    (Ψ := fun cells => e.Passes (cellsEnv p.columns scope.env cells))
    fun x _ => (Filter.Admits.passes ..).congr (by rw [Filter.passes_some, decide_eq_true_iff])
  exact ⟨_, hshows.drain hrows, hperm.filter _⟩

/-- Handed to the plan, and what is left over of it checked on the rows, a filter leaves the rows that
it leaves of the plan alone, each as often, and it is true of them. -/
theorem Built.pushdown_sound (hp : p.Built) (hx : p.IsExact) (he : e.isExact)
    (hadd : p.addFilter e = (p', .ok ())) (hpushed : p'.optimize.2.result = .ok ())
    (hplain : p.optimize.2.result = .ok ()) (hs : scope.IsExact) {pushed plain : List Row}
    (hdrain : p'.optimize.1.drain scope p'.optimize.1.residual = .ok pushed)
    (hdrain' : p.optimize.1.drain scope (some e) = .ok plain) :
    pushed.Perm plain ∧ ∀ row ∈ pushed, e.holds scope row = .ok true := by
  have hhanded : Handed p (some e) none p' := ⟨p', hadd, rfl⟩
  obtain ⟨U, hU⟩ := (hp.settles hhanded hpushed).of_drain hp hx (Filter.isExact_some.2 he) (by simp)
    hs hdrain (Φ := fun cells => e.Passes (cellsEnv p.columns scope.env cells))
    fun x _ => (Filter.Admits.passes ..).congr (by rw [Filter.passes_some, decide_eq_true_iff])
  obtain ⟨U', hstands, hperm'⟩ :=
    (hp.settles ⟨p, rfl, rfl⟩ hplain).of_drain_filter hp hx hs hdrain'
  have hperm := perm_of_stands hU.stands hstands (hU.perm.trans hperm'.symm)
  exact ⟨hperm, fun row hrow => holds_of_drain hdrain' row (hperm.mem_iff.1 hrow)⟩

/-- A table under the name `x`, its columns `a` and `b` as `u` and `w`. -/
def renamedTable : Plan :=
  .rename "x" (.project [("u", .ref ⟨some "t", "a"⟩), ("w", .ref ⟨some "t", "b"⟩)]
    (.read (Table.run [.addIndex (.ordered "i" [.ref ⟨none, "a"⟩] false),
      .insert [.int 7, .int 1], .insert [.int 3, .int 5], .insert [.int 7, .int 4]]
      (.make "t" [("a", .int), ("b", .int)])).1 {}))

/-- `x.u = o.k AND t.a < x.w`, where neither `o.k` nor `t.a` is a column of the plan. -/
def outerFilter : Expr :=
  .and (.binary (.cmp .eq) (.ref ⟨some "x", "u"⟩) (.ref ⟨some "o", "k"⟩))
    (.binary (.cmp .lt) (.ref ⟨some "t", "a"⟩) (.ref ⟨some "x", "w"⟩))

/-- An outer row in which `t.a` is `2`. -/
def outerRow : Row :=
  ⟨[⟨some "o", "k", .int, false⟩, ⟨some "t", "a", .int, false⟩], [.int 7, .int 2], none, rfl⟩

/-- The outer `t.a` is not taken for the column of the table below. -/
theorem pushdown_sound_outer : ∃ p' row,
    renamedTable.addFilter outerFilter = (p', .ok ()) ∧ p'.optimize.2.result = .ok () ∧
    p'.optimize.1.drain ⟨[outerRow]⟩ p'.optimize.1.residual = .ok [row] ∧
    renamedTable.optimize.1.drain ⟨[outerRow]⟩ (some outerFilter) = .ok [row] ∧
    row.values = [.int 7, .int 4] ∧ outerFilter.holds ⟨[outerRow]⟩ row = .ok true := by
  have hpushed : (renamedTable.addFilter outerFilter).1.optimize.2.result = .ok () := by cbv
  have hplain : renamedTable.optimize.2.result = .ok () := by cbv
  have hdrain : (renamedTable.addFilter outerFilter).1.optimize.1.drain ⟨[outerRow]⟩
      (renamedTable.addFilter outerFilter).1.optimize.1.residual =
        .ok [⟨renamedTable.columns, [.int 7, .int 4], none, rfl⟩] := by cbv
  have hdrain' : renamedTable.optimize.1.drain ⟨[outerRow]⟩ (some outerFilter) =
      .ok [⟨renamedTable.columns, [.int 7, .int 4], none, rfl⟩] := by cbv
  have hsound := Built.pushdown_sound (p := renamedTable) (e := outerFilter)
    (.rename _ (.project _ (.read _ ⟨_, _, _, by decide, rfl⟩))) (by decide) rfl rfl
    hpushed hplain (show Scope.IsExact ⟨[outerRow]⟩ by decide) hdrain hdrain'
  exact ⟨_, _, rfl, hpushed, hdrain, hdrain', rfl, hsound.2 _ (by simp)⟩

end Plan

end RelPlan

import Mathlib
import RelPlan.Proofs.Drains

/-!
# Plans in order

An order that was handed to a plan and is not left unmet is the order of the rows, and rows leave a
sort in its order, whether it sorted them or took its input's word for it (`Built.sorted_rows`).
That holds of all rows that are pulled, also of those before a failure.
-/

namespace RelPlan

variable {scope : Scope} {rows : List Row} {o : SortOrder}

/-- Of two rows that have sort values the earlier one does not come after the later one. -/
def SortOrder.InOrder (o : SortOrder) (scope : Scope) (rows : List Row) : Prop :=
  rows.Pairwise fun a b => ∀ vs ws, o.keyOf scope a = .ok vs → o.keyOf scope b = .ok ws →
    o.compare vs ws ≠ .gt

theorem SortOrder.Worths.unique {env : Env} {vs ws : List Value} (h : o.Worths env vs)
    (h' : o.Worths env ws) : vs = ws := by
  unfold Worths at h h'
  generalize o.keys = ks at h h'
  induction h generalizing ws with
  | nil => cases h'; rfl
  | cons hv _ ih =>
    cases h' with
    | cons hw hws => rw [Option.some.inj (hv.symm.trans hw), ih hws]

theorem SortOrder.Sorted.inOrder {columns : List Column} {U : List Record}
    (h : o.Sorted (U.map (Record.env columns scope.env)))
    (hrows : List.Forall₂ (Row.Stands columns) rows U) : o.InOrder scope rows := by
  refine pairwise_of_forall₂ hrows.flip ?_ (List.pairwise_map.1 h.pairwise)
  intro x y a b ha hb ⟨vs, ws, hvs, hws, hle⟩ vs' ws' ha' hb'
  have hvs' : o.Worths (x.env columns scope.env) vs' :=
    Row.Stands.env ha ▸ worths_of_keyOf ha'
  have hws' : o.Worths (y.env columns scope.env) ws' :=
    Row.Stands.env hb ▸ worths_of_keyOf hb'
  rw [hvs'.unique hvs, hws'.unique hws]
  exact Ordering.isLE_iff_ne_gt.1 hle

namespace Plan

variable {p q : Plan}

/-- The rows pulled from a settled plan are in its own order, and in the one it was handed unless it
leaves it unmet. -/
theorem Settles.inOrder_pulled {wanted : Option SortOrder} (h : Settles p none wanted q)
    (hp : p.Built) (hx : p.IsExact) (ho : ∀ o ∈ wanted, o.IsExact ∧ o.Bound p.columns)
    (hs : scope.IsExact) {opened : Opened} (hopen : (q.scan scope).result = .ok opened) :
    p.ownOrder.InOrder scope (opened.scan ()).pulled ∧
      (q.unmet = none → ∀ o ∈ wanted, o.InOrder scope (opened.scan ()).pulled) := by
  obtain ⟨Ψ, U, hU⟩ := (h.delivers hp hx Filter.isExact_none ho).delivery (fun _ => hs) hopen
    (fun _ => true) fun _ _ => .none rfl
  -- a failure cuts short what is pulled, and what is pulled before it is in order like the whole
  obtain ⟨U', hsub, hstands⟩ := hU.shows.pulled
  have hsub := hsub.map (Record.env p.columns scope.env)
  exact ⟨((hU.own trivial).sublist hsub).inOrder hstands, fun hunmet o ho =>
    ((hU.sorted trivial hunmet o ho).sublist hsub).inOrder hstands⟩

/-- Unless the plan leaves an order unmet that was handed to it, the rows pulled from it are in that
order, and those pulled from a sort are in the order of the sort. -/
theorem Built.sorted_rows (hp : p.Built) (hx : p.IsExact) (ho : o.IsExact) (hs : scope.IsExact) :
    (∀ p' opened, o.Bound p.columns → p.addOrder o = (p', .ok ()) →
      p'.optimize.2.result = .ok () → p'.optimize.1.unmet = none →
      (p'.optimize.1.scan scope).result = .ok opened →
      o.InOrder scope (opened.scan ()).pulled) ∧
    ∀ buffered q opened, q = stage .building (.sort o buffered none) p →
      q.optimize.2.result = .ok () → (q.optimize.1.scan scope).result = .ok opened →
      o.InOrder scope (opened.scan ()).pulled := by
  constructor
  · intro p' opened hbound hadd hopt hunmet hopen
    have hsettled := hp.settles (f := none) (o := some o) ⟨p, rfl, hadd⟩ hopt
    exact (hsettled.inOrder_pulled hp hx (by simpa using ⟨ho, hbound⟩) hs hopen).2 hunmet o rfl
  · rintro buffered q opened rfl hopt hopen
    have hsettled := (hp.sort o buffered).settles (f := none) (o := none) ⟨_, rfl, rfl⟩ hopt
    exact (hsettled.inOrder_pulled (.sort o buffered hp) ⟨ho, hx⟩ (by simp) hs hopen).1

/-- An indexed table under the name `x`. -/
def indexedTable : Plan :=
  .rename "x" (.read (Table.run [.addIndex (.ordered "i" [.ref ⟨none, "a"⟩] false),
    .insert [.int 3, .text "p"], .insert [.null, .text "q"], .insert [.int 7, .text "o"]]
    (.make "t" [("a", .int), ("b", .text)])).1 {})

/-- By `x.a`, the greatest first. -/
def descendingA : SortOrder := ⟨[⟨.ref ⟨some "x", "a"⟩, true⟩]⟩

def ascendingB : SortOrder := .ascending [.ref ⟨none, "b"⟩]

/-- The rows of `indexedTable`, by `descendingA` as well as by `ascendingB`. -/
def orderedRows : List Row :=
  [⟨indexedTable.columns, [.int 7, .text "o"], none, rfl⟩,
    ⟨indexedTable.columns, [.int 3, .text "p"], none, rfl⟩,
    ⟨indexedTable.columns, [.null, .text "q"], none, rfl⟩]

/-- The index is read backward for the one order, and the rows are sorted by the other. -/
theorem sorted_rows_backward : ∃ p',
    indexedTable.addOrder descendingA = (p', .ok ()) ∧ p'.optimize.1.unmet = none ∧
    p'.optimize.1.drain .empty none = .ok orderedRows ∧
    (indexedTable.sort ascendingB).optimize.2.notes.getLast? = some (.sorting "Order(x.b ASC)") ∧
    (indexedTable.sort ascendingB).optimize.1.drain .empty none = .ok orderedRows ∧
    descendingA.InOrder .empty orderedRows ∧ ascendingB.InOrder .empty orderedRows := by
  have hopt : (indexedTable.addOrder descendingA).1.optimize.2.result = .ok () := by cbv
  have hunmet : (indexedTable.addOrder descendingA).1.optimize.1.unmet = none := by cbv
  have hdrain : (indexedTable.addOrder descendingA).1.optimize.1.drain .empty none =
      .ok orderedRows := by cbv
  have hopt' : (indexedTable.sort ascendingB).optimize.2.result = .ok () := by cbv
  have hdrain' : (indexedTable.sort ascendingB).optimize.1.drain .empty none =
      .ok orderedRows := by cbv
  have hbuilt : indexedTable.Built := .rename _ (.read _ ⟨_, _, _, by decide, rfl⟩)
  refine ⟨_, rfl, hunmet, hdrain, by cbv, hdrain', ?_, ?_⟩
  · obtain ⟨opened, hopen, hrows⟩ := Result.bind_eq_ok.1 hdrain
    rw [← Scan.pulled_of_drain hrows]
    exact (hbuilt.sorted_rows (by decide) (by decide) Scope.isExact_empty).1 _ opened (by decide)
      rfl hopt hunmet hopen
  · obtain ⟨opened, hopen, hrows⟩ := Result.bind_eq_ok.1 hdrain'
    rw [← Scan.pulled_of_drain hrows]
    exact (hbuilt.sorted_rows (by decide) (by decide) Scope.isExact_empty).2 false _ opened rfl
      hopt' hopen

end Plan

end RelPlan

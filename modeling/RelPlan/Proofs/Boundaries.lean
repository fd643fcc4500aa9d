import Mathlib
import RelPlan.Proofs.Drains
import RelPlan.Proofs.Optimizing
import RelPlan.Proofs.PulledRows
import RelPlan.Proofs.StableOrders

/-!
# Cuts as boundaries

What is put on top of a cut does not change which rows the cut counts: they are those of its input
executed alone.  A filter and a sort above see the rows that the cut has kept, and a limit is
content with an input that fails after the rows wanted (`Plan.Columned.cut_sound`).
-/

namespace RelPlan

variable {scope : Scope} {rows out : List Row} {f : Filter} {e : Expr} {c : Cut}

namespace Scan

variable {α β : Type} {s : Scan α} {as : List α} {bs : List β}

theorem drain_of_filterMap {f : α → Result (Option β)}
    (h : (s.filterMap f).drain.result = .ok bs) :
    ∃ as os, s.drain.result = .ok as ∧ List.Forall₂ (fun a o => f a = .ok o) as os ∧
      bs = os.reduceOption := by
  induction s generalizing bs with
  | done => cases h; exact ⟨[], [], rfl, .nil, rfl⟩
  | fail e => cases h
  | note n s ih =>
    rw [filterMap, drain_note] at h
    rw [drain_note]
    exact ih () h
  | row a s ih =>
    rw [filterMap] at h
    split at h
    · next b hb =>
      obtain ⟨bs, rfl, hrest⟩ := result_drain_row h
      obtain ⟨as, os, has, hos, rfl⟩ := ih () hrest
      exact ⟨a :: as, some b :: os, by rw [drain_row, has]; rfl, .cons hb hos, rfl⟩
    · next hb =>
      obtain ⟨as, os, has, hos, rfl⟩ := ih () h
      exact ⟨a :: as, none :: os, by rw [drain_row, has]; rfl, .cons hb hos, rfl⟩
    · cases h

theorem drain_of_map {f : α → Result β} (h : (s.map f).drain.result = .ok bs) :
    ∃ as, s.drain.result = .ok as ∧ List.Forall₂ (fun a b => f a = .ok b) as bs := by
  obtain ⟨as, os, has, hos, rfl⟩ := drain_of_filterMap h
  refine ⟨as, has, ?_⟩
  clear h has
  induction hos with
  | nil => exact .nil
  | cons ho _ ih =>
    obtain ⟨b, hb, rfl⟩ := Result.map_eq_ok.1 ho
    exact .cons hb ih

theorem drain_of_filter {p : α → Result Bool} {bs : List α}
    (h : (s.filter p).drain.result = .ok bs) :
    ∃ as, s.drain.result = .ok as ∧ ∃ test : α → Bool, (∀ a ∈ as, p a = .ok (test a)) ∧
      bs = as.filter test := by
  obtain ⟨as, os, has, hos, rfl⟩ := drain_of_filterMap h
  refine ⟨as, has, fun a => (p a).toOption = some true, ?_⟩
  clear h has
  induction hos with
  | nil => exact ⟨by simp, rfl⟩
  | @cons a o as os ho _ ih =>
    obtain ⟨v, hv, ho⟩ := Result.bind_eq_ok.1 ho
    cases ho
    refine ⟨List.forall_mem_cons.2 ⟨?_, ih.1⟩, ?_⟩
    · cases v <;> simp [hv, Except.toOption]
    · rw [List.filter_cons, ← ih.2]
      cases v <;> simp [hv, Except.toOption, List.reduceOption_cons_of_some,
        List.reduceOption_cons_of_none]

theorem seen_of_drain (h : s.drain.result = .ok as) : s.seen = as := by
  induction s generalizing as with
  | done => cases h; rfl
  | fail e => cases h
  | note n s ih =>
    rw [drain_note] at h
    exact ih () h
  | row a s ih =>
    obtain ⟨as, rfl, hrest⟩ := result_drain_row h
    rw [seen, ih () hrest]

theorem result_drain_take {n : Nat} (h : n ≤ s.seen.length ∨ s.drain.result = .ok s.seen) :
    (s.take n).drain.result = .ok (s.seen.take n) := by
  induction s generalizing n with
  | done => cases n <;> rfl
  | fail e =>
    rcases h with h | h
    · obtain rfl : n = 0 := by simpa [seen] using h
      rfl
    · cases h
  | note m s ih =>
    cases n with
    | zero => rfl
    | succ n =>
      rw [take, drain_note]
      exact ih () (h.imp_right fun h => by rwa [drain_note] at h)
  | row a s ih =>
    cases n with
    | zero => rfl
    | succ n =>
      have hrest : n ≤ (s ()).seen.length ∨ (s ()).drain.result = .ok (s ()).seen := by
        refine h.imp (by simp [seen]) fun h => ?_
        obtain ⟨as, -, hrest⟩ := result_drain_row h
        rw [seen_of_drain hrest, hrest]
      rw [take_row, drain_row, seen, ih () hrest]
      rfl

theorem result_drain_drop {n : Nat} (h : s.drain.result = .ok as) :
    (s.drop n).drain.result = .ok (as.drop n) := by
  induction s generalizing n as with
  | done => cases h; cases n <;> rfl
  | fail e => cases h
  | note m s ih =>
    cases n with
    | zero => exact h
    | succ n =>
      rw [drain_note] at h
      rw [drop, drain_note]
      exact ih () h
  | row a s ih =>
    cases n with
    | zero => exact h
    | succ n =>
      obtain ⟨as, rfl, hrest⟩ := result_drain_row h
      exact ih () hrest

end Scan

theorem Cut.result_drain_apply {α : Type} {s : Unit → Scan α} {as : List α}
    (h : (s ()).drain.result = .ok as) (c : Cut) :
    (c.apply s).drain.result = .ok (c.select as) := by
  cases c with
  | limit n =>
    rw [apply]
    split
    · next hn => subst hn; rfl
    · have hseen := Scan.seen_of_drain h
      rw [select, ← hseen]
      exact Scan.result_drain_take (.inr (hseen ▸ h))
  | offset n => exact Scan.result_drain_drop h

theorem Opened.drain_of_filter {o : Opened}
    (h : ((o.filter scope f).scan ()).drain.result = .ok out) :
    ∃ rows, (o.scan ()).drain.result = .ok rows ∧
      out = rows.filter fun row => f.Passes (row.env scope) := by
  cases f with
  | none => exact ⟨out, h, by simp⟩
  | some e =>
    obtain ⟨rows, hrows, test, htest, rfl⟩ := Scan.drain_of_filter h
    refine ⟨rows, hrows, List.filter_congr fun row hrow => ?_⟩
    simp [Expr.passes_iff_of_holds (htest row hrow)]

theorem SortOrder.gather_eq_ok {o : SortOrder} {s : Unit → Scan Row} {keyed : List SortedRow}
    (h : (o.gather scope s).result = .ok keyed) :
    (s ()).drain.result = .ok (keyed.map SortedRow.row) ∧
      ∀ x ∈ keyed, o.keyOf scope x.row = .ok x.key := by
  obtain ⟨rows, hrows, hall⟩ := Scan.drain_of_map h
  rw [hrows]
  clear h hrows
  induction hall with
  | nil => simp
  | @cons row x rows keyed hx _ ih =>
    obtain ⟨key, hkey, hx⟩ := Result.bind_eq_ok.1 hx
    cases hx
    obtain ⟨hrows, hkeyed⟩ := ih
    cases hrows
    exact ⟨rfl, List.forall_mem_cons.2 ⟨hkey, hkeyed⟩⟩

namespace Plan

variable {p q input : Plan} {o : Option SortOrder} {order order' : SortOrder} {opened : Opened}

theorem stablySorts_scanSorted {columns : List Column} {buffered : Bool} {below : Opened}
    (hbind : order.bindTo columns = .ok order') (ho : order.IsExact) (hs : scope.IsExact)
    (hunmet : input.unmet = SortOrder.taken order'.request)
    (hopen : (scanSorted .settled order' buffered input scope below).result = .ok opened)
    (hdrain : (opened.scan ()).drain.result = .ok out)
    (hbelow : ∀ rows, (below.scan ()).drain.result = .ok rows →
      ∀ row ∈ rows, row.columns = columns ∧ row.IsExact) :
    ∃ rows, (below.scan ()).drain.result = .ok rows ∧ order.StablySorts scope rows out := by
  have hneeds : needsSort .settled order' input = !order'.isEmpty := by
    rw [needsSort, hunmet]
    cases h : order'.isEmpty <;> simp [SortOrder.request, SortOrder.taken, h]
  rcases scanSorted_eq_ok hopen with ⟨hno, rfl⟩ | ⟨keyed, hkeyed, rfl⟩
  · rw [hneeds] at hno
    exact ⟨out, hdrain, SortOrder.stablySorts_self hbind (by simpa using hno) fun row hrow =>
      (hbelow out hdrain row hrow).1⟩
  · obtain ⟨hrows, hkey⟩ := SortOrder.gather_eq_ok hkeyed
    have hrow := List.forall_mem_map.1 (hbelow _ hrows)
    refine ⟨_, hrows, ?_⟩
    rw [hneeds] at hdrain
    obtain rfl : _ = out := by
      simpa [Opened.ofRows] using hdrain
    by_cases hempty : order'.isEmpty
    · rw [if_neg (by simp [hempty])]
      exact SortOrder.stablySorts_self hbind hempty
        (List.forall_mem_map.2 fun x hx => (hrow x hx).1)
    · rw [if_pos (by simp [hempty])]
      exact SortOrder.stablySorts_stableSort hbind ho hs (fun x hx => (hrow x hx).1)
        (fun x hx => (hrow x hx).2) hkey

/-- Optimizes a plan and reads the rows that pass what it leaves over, in a scope of outer rows. -/
def executeIn (scope : Scope) (p : Plan) : Result (List Row) := do
  p.optimize.2.result
  p.optimize.1.drain scope p.optimize.1.residual

theorem result_execute (p : Plan) : p.execute.2.result = p.executeIn .empty := by
  simp [execute, executeIn, drain]

theorem executeIn_eq_ok : p.executeIn scope = .ok rows ↔
    p.optimize.2.result = .ok () ∧ p.optimize.1.drain scope p.optimize.1.residual = .ok rows := by
  rw [executeIn, Result.bind_eq_ok]
  exact ⟨fun ⟨_, h⟩ => h, fun h => ⟨(), h⟩⟩

theorem opened_of_executeIn (hrun : p.executeIn scope = .ok out)
    (hresidual : p.optimize.2.result = .ok () → p.optimize.1.residual = none) :
    p.optimize.2.result = .ok () ∧ ∃ opened, (p.optimize.1.scan scope).result = .ok opened ∧
      (opened.scan ()).drain.result = .ok out := by
  obtain ⟨hopt, hdrain⟩ := executeIn_eq_ok.1 hrun
  rw [hresidual hopt] at hdrain
  exact ⟨hopt, Result.bind_eq_ok.1 hdrain⟩

/-! ### Cuts -/

/-- A limit or an offset. -/
def cut (c : Cut) (input : Plan) : Plan := stage .building (.cut c none none) input

/-- What a filter hands to an input that puts it aside. -/
def boundFilter (e : Expr) : Filter := Filter.taken (Filter.fold (.union [some e, none]))

theorem passes_boundFilter {env : Env} : (boundFilter e).Passes env ↔ e.Passes env := by
  simp [boundFilter, Filter.taken, Filter.passes_union, Filter.passes_fold]

/-- Whatever is handed to a cut, its input is optimized alone. -/
theorem optimize_filter_cut
    (h : (filter e (stage .building (.cut c none o) p)).optimize.2.result = .ok ()) :
    ∃ e', e.bindTo p.columns = .ok e' ∧ p.optimize.2.result = .ok () ∧
      (filter e (stage .building (.cut c none o) p)).optimize.1 =
        stage .settled (.filter e' none)
          (stage .settled (.cut c (boundFilter e') o) p.optimize.1) := by
  obtain ⟨s', input', hdown, hok, -, heq⟩ := optimize_stage h
  obtain ⟨e', he, hadd, rfl⟩ := descendFilter_eq_ok hdown
  have hcut : input' = stage .building (.cut c (boundFilter e') o) p := by
    unfold boundFilter
    cases hf : Filter.fold (.union [some e', none]) with
    | none => rw [hf] at hadd; cases hadd; rfl
    | some d => rw [hf] at hadd; cases hadd; rfl
  subst hcut
  obtain ⟨s'', below, hdown', hbelow, -, heq'⟩ := optimize_stage hok
  cases hdown'
  exact ⟨e', he, hbelow, by rw [filter, heq, heq']; rfl⟩

/-- A sort above hands its order through the filter, and the cut puts it aside. -/
theorem optimize_sort_cut
    (h : (sort order (filter e (cut c p))).optimize.2.result = .ok ()) :
    ∃ order', order.bindTo p.columns = .ok order' ∧
      (filter e (stage .building (.cut c none (SortOrder.taken order'.request))
        p)).optimize.2.result = .ok () ∧
      (sort order (filter e (cut c p))).optimize.1 = stage .settled (.sort order' false none)
        (filter e (stage .building (.cut c none (SortOrder.taken order'.request))
          p)).optimize.1 := by
  obtain ⟨s', input', hdown, hok, -, heq⟩ := optimize_stage h
  obtain ⟨order', ho, hadd, rfl⟩ := descendSort_eq_ok hdown
  have hinput : input' =
      filter e (stage .building (.cut c none (SortOrder.taken order'.request)) p) := by
    cases hr : order'.request with
    | none => rw [hr] at hadd; cases hadd; rfl
    | some o => rw [hr] at hadd; cases hadd; rfl
  subst hinput
  refine ⟨order', ho, hok, ?_⟩
  rw [sort, heq, Stage.settle]
  split <;> rfl

/-- A filter above a cut keeps the rows that pass among those that the cut keeps of its input. -/
theorem Columned.rows_of_filter_cut (hp : p.Columned)
    (hopt : (filter e (stage .building (.cut c none o) p)).optimize.2.result = .ok ())
    (hrun : p.executeIn scope = .ok rows)
    (hopen : ((filter e (stage .building (.cut c none o) p)).optimize.1.scan scope).result =
      .ok opened)
    (hdrain : (opened.scan ()).drain.result = .ok out) :
    out = (c.select rows).filter (fun row => e.Passes (row.env scope)) ∧
      ∀ row ∈ rows, row.columns = p.columns := by
  obtain ⟨e', he, hok, hq⟩ := optimize_filter_cut hopt
  obtain ⟨opened', hopen', hrows⟩ := Result.bind_eq_ok.1 (executeIn_eq_ok.1 hrun).2
  have hcol : ∀ row ∈ rows, row.columns = p.columns := by
    obtain ⟨hcolumns, hcolumnar⟩ := hp.optimize hok
    rw [← hcolumns]
    exact Scan.All.drain (Opened.all_filter (hcolumnar _ _ hopen') _) hrows
  rw [hq] at hopen
  obtain ⟨cutted, hcut, hfilter⟩ := scan_stage_eq_ok hopen
  obtain ⟨below, hbelow, hstage⟩ := scan_stage_eq_ok hcut
  obtain rfl : below = opened' := Except.ok.inj (hbelow.symm.trans hopen')
  cases hstage
  cases hfilter
  obtain ⟨kept, hkept, rfl⟩ := Opened.drain_of_filter hdrain
  have hselect := (Cut.result_drain_apply hrows c).symm.trans hkept
  cases hselect
  refine ⟨List.filter_congr fun row hrow => ?_, hcol⟩
  have hpasses : (boundFilter e').Passes (row.env scope) ↔ e.Passes (row.env scope) := by
    rw [passes_boundFilter, Expr.Passes, row.env_eq, hcol row (c.select_subset _ hrow),
      (Expr.bindTo_spec he).2.2.2, Expr.Passes]
  simpa [checked, residual] using hpasses

theorem optimize_cut (hopt : p.optimize.2.result = .ok ()) :
    (p.cut c).optimize.2.result = .ok () ∧
      (p.cut c).optimize.1 = stage .settled (.cut c none none) p.optimize.1 := by
  rw [Plan.cut, optimize]
  simp only [if_true, Stage.descend, hopt]
  refine ⟨?_, rfl⟩
  rw [Logged.result_bind, hopt]
  rfl

theorem Columned.rows_of_sort_cut (hp : p.Columned)
    (hopt : (sort order (filter e (cut c p))).optimize.2.result = .ok ()) (ho : order.IsExact)
    (hs : scope.IsExact) (hx : ∀ row ∈ rows, row.IsExact) (hrun : p.executeIn scope = .ok rows)
    (hopen : ((sort order (filter e (cut c p))).optimize.1.scan scope).result = .ok opened)
    (hdrain : (opened.scan ()).drain.result = .ok out) :
    order.StablySorts scope ((c.select rows).filter fun row => e.Passes (row.env scope)) out := by
  obtain ⟨order', hbind, hok, hq⟩ := optimize_sort_cut hopt
  obtain ⟨e', -, -, hinput⟩ := optimize_filter_cut hok
  rw [hq] at hopen
  obtain ⟨below, hbelow, hsorted⟩ := scan_stage_eq_ok hopen
  have hkept (kept : List Row) (h : (below.scan ()).drain.result = .ok kept) :=
    hp.rows_of_filter_cut hok hrun hbelow h
  obtain ⟨kept, hdrained, hstable⟩ := stablySorts_scanSorted hbind ho hs (by rw [hinput]; rfl)
    hsorted hdrain fun kept h row hrow => by
      obtain ⟨rfl, hcol⟩ := hkept kept h
      have hmem := c.select_subset _ (List.mem_filter.1 hrow).1
      exact ⟨hcol row hmem, hx row hmem⟩
  obtain ⟨rfl, -⟩ := hkept kept hdrained
  exact hstable

/-- A limit needs no more of its input than the rows that it keeps. -/
theorem executeIn_limit {n : Nat} (hopt : p.optimize.2.result = .ok ())
    (hopen : (p.optimize.1.scan scope).result = .ok opened)
    (hseen : n ≤ ((opened.filter scope p.optimize.1.residual).scan ()).seen.length) :
    (p.limit n).executeIn scope =
      .ok (((opened.filter scope p.optimize.1.residual).scan ()).seen.take n) := by
  obtain ⟨hok, hcut⟩ := optimize_cut (c := .limit n) hopt
  refine executeIn_eq_ok.2 ⟨hok, ?_⟩
  show (p.cut (.limit n)).optimize.1.drain scope (p.cut (.limit n)).optimize.1.residual = _
  rw [hcut, drain, scan_stage, Logged.result_bind, hopen]
  show ((Cut.limit n).apply (opened.filter scope p.optimize.1.residual).scan).drain.result = _
  rw [Cut.apply]
  split
  · next hn => subst hn; rfl
  · exact Scan.result_drain_take (.inl hseen)

/-- A row of the columns `a` and `b`. -/
def numbered (a : Int64) (b : String) : Row :=
  ⟨[⟨none, "a", .int, false⟩, ⟨none, "b", .text, false⟩], [.int a, .text b], none, rfl⟩

/-- The first rows of some, where `a > 1` was handed to the limit.  The last row lies beyond it. -/
def limitedRows : Plan :=
  ((limit 5 (source .building (.rows {
    columns := [⟨none, "a", .int, false⟩, ⟨none, "b", .text, false⟩]
    rows := [numbered 1 "p", numbered 5 "q", numbered 3 "r", numbered 5 "s", numbered 9 "t",
      numbered 2 "u"] }))).addFilter
    (.binary (.cmp .gt) (.ref ⟨none, "a"⟩) (.const (.int 1)))).1

/-- The rows in which `10 / a` is more than `1`, of which the third one has no quotient. -/
def quotientRows : Plan :=
  filter (.binary (.cmp .gt) (.binary (.arith .div) (.const (.int 10)) (.ref ⟨none, "a"⟩))
      (.const (.int 1)))
    (offset 1 (source .building (.rows {
      columns := [⟨none, "a", .int, false⟩, ⟨none, "b", .text, false⟩]
      rows := [numbered 3 "p", numbered 5 "q", numbered 2 "r", numbered 0 "s"] })))

end Plan

end RelPlan

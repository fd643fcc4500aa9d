import Mathlib
import RelPlan.Proofs.Drains

/-!
# Joins under different strategies

Which rows a join yields does not depend on the strategy that it was asked for, whatever it is
handed from above and whatever its inputs do with the conjuncts that it hands on
(`Built.join_agrees`).
-/

namespace RelPlan

variable {scope : Scope} {left right : Plan} {condition f : Filter} {o : Option SortOrder}

namespace Plan

section
variable {choice : JoinChoice} {q : Plan} (h : Settles (.join condition choice left right) f o q)
include h

theorem Settles.residual_join : q.residual = none := by
  cases h
  rfl

theorem Settles.bound_condition : ∀ e ∈ condition, e.Bound (left.columns ++ right.columns) := by
  cases h with
  | join hcond =>
    rcases Result.optionMapM_eq_ok.1 hcond with ⟨rfl, -⟩ | ⟨e, e', rfl, -, he⟩
    · simp
    · rintro _ ⟨⟩
      exact (Expr.bindTo_spec he).1

/-- The rows of a settled join stand for those of its records which pass the filter. -/
theorem Settles.drain_join {rows : List Row} (hp : (Plan.join condition choice left right).Built)
    (hx : (Plan.join condition choice left right).IsExact) (hf : f.IsExact)
    (ho : ∀ o' ∈ o, o'.IsExact ∧ o'.Bound (left.columns ++ right.columns))
    (hs : scope.IsExact) (hdrain : q.drain scope none = .ok rows) :
    ∃ U, List.Forall₂ (Row.Stands (left.columns ++ right.columns)) rows U ∧
      U.Perm ((Plan.join condition choice left right).records.filter fun z =>
        f.Passes (z.env (left.columns ++ right.columns) scope.env)) := by
  rw [← h.residual_join] at hdrain
  obtain ⟨U, hU⟩ := h.of_drain hp hx hf ho hs hdrain
    (Φ := fun cells => f.Passes (cellsEnv (left.columns ++ right.columns) scope.env cells))
    fun z _ => (Filter.Admits.passes ..).congr decide_eq_true_iff.symm
  exact ⟨U, hU.stands, hU.perm⟩

end

/-- A record of a join is one of the left plan followed by one of the right plan, and the condition
is true of it. -/
theorem exists_of_mem_join {choice : JoinChoice} {z : Record}
    (hz : z ∈ (Plan.join condition choice left right).records) :
    (∃ x ∈ left.records, ∃ y ∈ right.records, z = x.append y) ∧
      Filter.Passes (z.env (left.columns ++ right.columns) Scope.empty.env) condition := by
  obtain ⟨hz, hpass⟩ := List.mem_filter.1 hz
  obtain ⟨x, hx, hz⟩ := List.mem_flatMap.1 hz
  obtain ⟨y, hy, rfl⟩ := List.mem_map.1 hz
  exact ⟨⟨x, hx, y, hy, rfl⟩, of_decide_eq_true hpass⟩

theorem Built.exists_of_execute {p : Plan} {rows : List Row} {x : Record} (hp : p.Built)
    (hx : p.IsExact) (hrun : p.execute.2.result = .ok rows) (hmem : x ∈ p.records) :
    ∃ row ∈ rows, row.record = x := by
  obtain ⟨U, hstands, hperm⟩ := hp.stands_execute hx hrun
  obtain ⟨row, hrow, hs⟩ := exists_of_forall₂ hstands (hperm.mem_iff.2 hmem)
  exact ⟨row, hrow, hs.2⟩

/-- However it is asked for, a join yields the rows of the left plan followed by rows of the right
plan of which the condition and the filter handed to it are true wherever they can be told. -/
theorem Built.join_agrees (hl : left.Built) (hr : right.Built) (hxl : left.IsExact)
    (hxr : right.IsExact) (hc : condition.IsExact) (hf : f.IsExact) (hs : scope.IsExact)
    {choice choice' : JoinChoice} {p p' : Plan} {rows rows' : List Row}
    (hadd : (Plan.join condition choice left right).addFilter? f = (p, .ok ()))
    (hopt : p.optimize.2.result = .ok ()) (hdrain : p.optimize.1.drain scope none = .ok rows)
    (hadd' : (Plan.join condition choice' left right).addFilter? f = (p', .ok ()))
    (hopt' : p'.optimize.2.result = .ok ()) (hdrain' : p'.optimize.1.drain scope none = .ok rows') :
    rows.Perm rows' ∧ ∀ row ∈ rows,
      (∃ x ∈ left.records, ∃ y ∈ right.records,
        row.Stands (left.columns ++ right.columns) (x.append y)) ∧
      (∀ ls rs, left.execute.2.result = .ok ls → right.execute.2.result = .ok rs →
        ∃ l ∈ ls, ∃ r ∈ rs, row.values = l.values ++ r.values) ∧
      ∀ e v, e ∈ condition ∨ e ∈ f → e.evalRow scope row = .ok v → v ≠ .bool false ∧ v ≠ .null := by
  have hsettles := (hl.join condition choice hr).settles (f := f) (o := none) ⟨p, hadd, rfl⟩ hopt
  have hsettles' := (hl.join condition choice' hr).settles (f := f) (o := none)
    ⟨p', hadd', rfl⟩ hopt'
  obtain ⟨U, hstands, hperm⟩ :=
    hsettles.drain_join (.join _ _ hl hr) ⟨hc, hxl, hxr⟩ hf (by simp) hs hdrain
  obtain ⟨U', hstands', hperm'⟩ :=
    hsettles'.drain_join (.join _ _ hl hr) ⟨hc, hxl, hxr⟩ hf (by simp) hs hdrain'
  refine ⟨perm_of_stands hstands hstands' (hperm.trans hperm'.symm), fun row hrow => ?_⟩
  obtain ⟨z, hz, hrz⟩ := exists_of_forall₂ hstands.flip hrow
  obtain ⟨hz, hpushed⟩ := List.mem_filter.1 (hperm.mem_iff.1 hz)
  obtain ⟨⟨x, hx, y, hy, rfl⟩, hcond⟩ := exists_of_mem_join hz
  refine ⟨⟨x, hx, y, hy, hrz⟩, fun ls rs hls hrs => ?_, fun e v he hv => ?_⟩
  · obtain ⟨l, hl, rfl⟩ := hl.exists_of_execute hxl hls hx
    obtain ⟨r, hr, rfl⟩ := hr.exists_of_execute hxr hrs hy
    refine ⟨l, hl, r, hr, List.map_injective_iff.2 (fun _ _ => Option.some.inj) ?_⟩
    have hcells := congrArg Record.cells hrz.2
    simpa [Row.record, Record.append] using hcells
  · have hworth := Expr.worth_of_evalRow hv
    rw [Row.Stands.env hrz] at hworth
    have htrue : e.Passes ((x.append y).env (left.columns ++ right.columns) scope.env) := by
      rcases he with he | he
      · rw [Expr.Passes, Record.env,
          (hsettles.bound_condition e he).worth_eq scope.env Scope.empty.env]
        exact hcond e he
      · exact of_decide_eq_true hpushed e he
    obtain rfl := Option.some.inj (hworth.symm.trans htrue)
    simp

/-- A table in which the key `a` repeats and is missing once. -/
def keyedTable : Plan :=
  .read (Table.run [.insert [.int 7, .int 1], .insert [.null, .int 2], .insert [.int 3, .int 3],
    .insert [.int 7, .int 4]] (.make "t" [("a", .int), ("b", .int)])).1 {}

/-- The table and itself, where `x.a = t.a`. -/
def selfJoin (choice : JoinChoice) : Plan :=
  .join (some (.binary (.cmp .eq) (.ref ⟨some "x", "a"⟩) (.ref ⟨some "t", "a"⟩))) choice
    (.rename "x" keyedTable) keyedTable

/-- `t.b < o.k`, where `o.k` is not a column of the join. -/
def belowOuter : Expr := .binary (.cmp .lt) (.ref ⟨some "t", "b"⟩) (.ref ⟨some "o", "k"⟩)

/-- An outer row in which `o.k` is `4`. -/
def outerK : Row := ⟨[⟨some "o", "k", .int, false⟩], [.int 4], none, rfl⟩

/-- The joined row of the given values. -/
def joinedRow (a b c d : Int64) : Row :=
  ⟨(selfJoin .auto).columns, [.int a, .int b, .int c, .int d], none, rfl⟩

/-- The join once it has been handed `belowOuter`. -/
def handedJoin (choice : JoinChoice) : Plan := ((selfJoin choice).addFilter? (some belowOuter)).1

/-- The hash join keeps to the order of the left input, the merge join to that of the keys. -/
theorem join_agrees_keyed :
    (handedJoin .hash).optimize.1.drain ⟨[outerK]⟩ none =
      .ok [joinedRow 7 1 7 1, joinedRow 3 3 3 3, joinedRow 7 4 7 1] ∧
    (handedJoin .merge).optimize.1.drain ⟨[outerK]⟩ none =
      .ok [joinedRow 3 3 3 3, joinedRow 7 1 7 1, joinedRow 7 4 7 1] ∧
    [joinedRow 7 1 7 1, joinedRow 3 3 3 3, joinedRow 7 4 7 1].Perm
      [joinedRow 3 3 3 3, joinedRow 7 1 7 1, joinedRow 7 4 7 1] := by
  have hkeyed : keyedTable.Built := .read _ ⟨_, _, _, by decide, rfl⟩
  have hadd (choice : JoinChoice) :
      (selfJoin choice).addFilter? (some belowOuter) = (handedJoin choice, .ok ()) := rfl
  have hopt : (handedJoin .hash).optimize.2.result = .ok () := by cbv
  have hopt' : (handedJoin .merge).optimize.2.result = .ok () := by cbv
  have hdrain : (handedJoin .hash).optimize.1.drain ⟨[outerK]⟩ none =
      .ok [joinedRow 7 1 7 1, joinedRow 3 3 3 3, joinedRow 7 4 7 1] := by cbv
  have hdrain' : (handedJoin .merge).optimize.1.drain ⟨[outerK]⟩ none =
      .ok [joinedRow 3 3 3 3, joinedRow 7 1 7 1, joinedRow 7 4 7 1] := by cbv
  exact ⟨hdrain, hdrain', (Built.join_agrees (hkeyed.rename "x") hkeyed (by decide) (by decide)
    (Filter.isExact_some.2 (by decide)) (Filter.isExact_some.2 (by decide)) (by decide)
    (hadd .hash) hopt hdrain (hadd .merge) hopt' hdrain').1⟩

end Plan

end RelPlan

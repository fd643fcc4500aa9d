import RelPlan.Proofs.CanonicalForms
import RelPlan.Proofs.EnforcedFilters
import RelPlan.Proofs.IndexNames

/-!
# Equivalent access paths

Equivalent paths ask one index of one table for the same thing, with constants compared as keys.  A
name is that of one index, so what they read can differ only if two expressions that are alike are
worth different keys where they are evaluated, or if the index has a hash that tells the two forms
of a key apart (`AccessPath.Parts`).  Otherwise they read the same rows
(`AccessPath.equivalent_drain`).
-/

namespace RelPlan

variable {scope : Scope}

theorem allPairs_iff {α : Type} {p : α → α → Bool} {as bs : List α} :
    allPairs p as bs ↔ List.Forall₂ (fun a b => p a b = true) as bs := by
  induction as generalizing bs with
  | nil => cases bs <;> simp [allPairs]
  | cons a as ih => cases bs <;> simp [allPairs, ih]

theorem rel_of_allPairs {α : Type} {p : α → α → Bool} {as bs : List α} (h : allPairs p as bs)
    {a b : α} (hmem : (a, b) ∈ as.zip bs) : p a b :=
  (List.forall₂_iff_zip.1 (allPairs_iff.1 h)).2 hmem

theorem forall₂_of_allPairs {α : Type} {p : α → α → Bool} {R : α → α → Prop} {as bs : List α}
    (h : allPairs p as bs) (hrel : ∀ a b, (a, b) ∈ as.zip bs → p a b → R a b) :
    List.Forall₂ R as bs :=
  List.forall₂_iff_zip.2 ⟨(allPairs_iff.1 h).length_eq, fun hmem =>
    hrel _ _ hmem (rel_of_allPairs h hmem)⟩

theorem Bound.alike_iff {x y : Bound} :
    x.alike y ↔ x.inclusive = y.inclusive ∧ x.expr.alike y.expr := by
  simp [alike]

theorem ColumnRange.alike_iff {c c' : ColumnRange} :
    c.alike c' ↔ allPairs Bound.alike c.lower c'.lower ∧ allPairs Bound.alike c.upper c'.upper := by
  simp [alike]

namespace Probe

variable {a b : Probe} {d e : Expr}

/-- The expressions that stand in one place in two probes. -/
def pairs : Probe → Probe → List (Expr × Expr)
  | range a, range b =>
    (a.columns.zip b.columns).flatMap fun (c, c') =>
      (c.lower.zip c'.lower ++ c.upper.zip c'.upper).map fun (x, y) => (x.expr, y.expr)
  | key d, key e => [(d, e)]
  | _, _ => []

theorem mem_pairs_range {a b : KeyRange} : (d, e) ∈ (range a).pairs (range b) ↔
    ∃ c c', (c, c') ∈ a.columns.zip b.columns ∧
      ∃ x y, ((x, y) ∈ c.lower.zip c'.lower ∨ (x, y) ∈ c.upper.zip c'.upper) ∧
        x.expr = d ∧ y.expr = e := by
  simp [pairs, or_and_right, exists_or]

theorem alike_of_mem_pairs (h : a.alike b) (hmem : (d, e) ∈ a.pairs b) : d.alike e := by
  match a, b, h, hmem with
  | range a, range b, h, hmem =>
    obtain ⟨hcolumns, -⟩ := Bool.and_eq_true_iff.1 h
    obtain ⟨c, c', hc, x, y, hxy, rfl, rfl⟩ := mem_pairs_range.1 hmem
    obtain ⟨hlower, hupper⟩ := ColumnRange.alike_iff.1 (rel_of_allPairs hcolumns hc)
    rcases hxy with hxy | hxy
    · exact (Bound.alike_iff.1 (rel_of_allPairs hlower hxy)).2
    · exact (Bound.alike_iff.1 (rel_of_allPairs hupper hxy)).2
  | key d', key e', h, hmem =>
    obtain ⟨rfl, rfl⟩ := Prod.mk.inj (List.mem_singleton.1 hmem)
    exact h

theorem oneKey_of_pairs (h : a.alike b) (hkeys : ∀ d e, (d, e) ∈ a.pairs b → d.OneKey scope e) :
    a.OneKey scope b := by
  match a, b, h, hkeys with
  | range a, range b, h, hkeys =>
    obtain ⟨hcolumns, hdir⟩ := Bool.and_eq_true_iff.1 h
    refine ⟨by simpa using hdir, forall₂_of_allPairs hcolumns fun c c' hc halike => ?_⟩
    have hbound {x y : Bound} (hxy : (x, y) ∈ c.lower.zip c'.lower ∨ (x, y) ∈ c.upper.zip c'.upper)
        (halike : x.alike y) : x.OneKey scope y :=
      ⟨(Bound.alike_iff.1 halike).1,
        hkeys _ _ (mem_pairs_range.2 ⟨c, c', hc, x, y, hxy, rfl, rfl⟩)⟩
    obtain ⟨hlower, hupper⟩ := ColumnRange.alike_iff.1 halike
    exact ⟨forall₂_of_allPairs hlower fun x y hxy => hbound (.inl hxy),
      forall₂_of_allPairs hupper fun x y hxy => hbound (.inr hxy)⟩
  | key d, key e, h, hkeys => exact hkeys d e (List.mem_singleton_self _)

end Probe

namespace AccessPath

variable {t : Table} {i : Index} {a b : Probe} {p q : AccessPath} {tids tids' : List Nat}

/-- How an index is asked for different things by alike probes. -/
inductive Parts (i : Index) (a b : Probe) (scope : Scope) : Prop
  /-- Two expressions are worth different keys.  They compute with constants of two forms, or have
  the datum `2 ^ 63` where the other one has an integer. -/
  | values {d e : Expr} {v w : Value} (mem : (d, e) ∈ a.pairs b) (alike : d.alike e)
      (mixes : d.mixes e) (left : d.eval scope = .ok v) (right : e.eval scope = .ok w)
      (differ : v.canon ≠ w.canon)
  /-- The index has a hash of its own, which tells two values of one key apart. -/
  | hashes {j : HashedIndex} {d e : Expr} {v w : Value} (hashed : i.base = .hashed j)
      (mem : (d, e) ∈ a.pairs b) (left : d.eval scope = .ok v) (right : e.eval scope = .ok w)
      (one : v.canon = w.canon) (differ : j.hash v ≠ j.hash w)

/-- Nothing parts where constants of two forms are only compared with, and the hash is that of the
key. -/
theorem not_parts (hmix : ∀ d e, (d, e) ∈ a.pairs b → d.mixes e = false)
    (hhash : ∀ j, i.base = .hashed j → j.hash = Value.bucketKey) : ¬ Parts i a b scope := by
  rintro (⟨hmem, -, hmixes, -⟩ | ⟨hbase, -, -, -, hone, hdiffer⟩)
  · simp [hmix _ _ hmem] at hmixes
  · rw [hhash _ hbase, ← Value.bucketKey_canon, hone, Value.bucketKey_canon] at hdiffer
    exact hdiffer rfl

theorem scan_eq_or_parts (h : a.alike b) (hs : i.scan a scope = .ok tids)
    (hs' : i.scan b scope = .ok tids') : tids = tids' ∨ Parts i a b scope := by
  by_cases hkeys : ∀ d e, (d, e) ∈ a.pairs b → d.OneKey scope e
  · have hone := Probe.oneKey_of_pairs h hkeys
    obtain ⟨cond, base⟩ := i
    match base, a, b with
    | .ordered i, .range _, .range _ => exact .inl (OrderedIndex.scan_of_oneKey hone hs hs')
    | .hashed j, .key d, .key e =>
      by_cases hhash : ∀ v w, d.eval scope = .ok v → e.eval scope = .ok w → j.hash v = j.hash w
      · exact .inl (HashedIndex.scan_of_oneKey hone hhash hs hs')
      · simp only [not_forall] at hhash
        obtain ⟨v, w, hv, hw, hdiffer⟩ := hhash
        exact .inr (.hashes rfl (List.mem_singleton_self _) hv hw (hone v w hv hw) hdiffer)
  · simp only [Expr.OneKey, not_forall] at hkeys
    obtain ⟨d, e, hmem, v, w, hv, hw, hdiffer⟩ := hkeys
    have halike := Probe.alike_of_mem_pairs h hmem
    refine .inr (.values hmem halike ?_ hv hw hdiffer)
    by_contra hmix
    exact hdiffer (Expr.oneKey_of_alike halike (by simpa using hmix) v w hv hw)

/-- Two paths ask one index for different things although they are equivalent. -/
def PartsFrom (p q : AccessPath) (scope : Scope) : Prop :=
  match p.route, q.route with
  | .index i a _ _, .index _ b _ _ => Parts i a b scope
  | _, _ => False

/-- Equivalent paths of a table read the same rows in the same order, wherever both are read to the
end, or two of their expressions are worth different keys or lie in different buckets. -/
theorem equivalent_drain (ht : t.Grown) (f f' : Filter) (order order' : Option SortOrder)
    (weights weights' : AccessWeights) (scope : Scope)
    (hp : (select t f order weights).result = .ok p)
    (hq : (select t f' order' weights').result = .ok q) (h : p.equivalent q)
    {rows rows' : List Row} (hrows : p.drain scope none = .ok rows)
    (hrows' : q.drain scope none = .ok rows') : rows = rows' ∨ p.PartsFrom q scope := by
  cases selected_of_select hp with
  | full =>
    cases selected_of_select hq with
    | full => exact .inl (Except.ok.inj (hrows.symm.trans hrows'))
    | index => simp [equivalent, indexName?] at h
  | @index i c hi =>
    cases selected_of_select hq with
    | full => simp [equivalent, indexName?] at h
    | @index j c' hj =>
      obtain ⟨hname, halike⟩ : i.name = j.name ∧ c.probe.alike c'.probe := by
        simpa [equivalent, indexName?, probe?] using h
      obtain rfl := ht.index_inj hi hj hname
      obtain ⟨s, hs, hrows⟩ := Result.bind_eq_ok.1 hrows
      obtain ⟨s', hs', hrows'⟩ := Result.bind_eq_ok.1 hrows'
      obtain ⟨tids, htids, hs⟩ := Result.bind_eq_ok.1 hs
      obtain ⟨tids', htids', hs'⟩ := Result.bind_eq_ok.1 hs'
      cases hs
      cases hs'
      refine (scan_eq_or_parts halike htids htids').imp_left fun htids => ?_
      subst htids
      exact Except.ok.inj (hrows.symm.trans hrows')

/-- The column `a` of `t` compared with an expression. -/
def compared (c : Comparison) (e : Expr) : Filter :=
  some (.binary (.cmp c) (.ref ⟨some "t", "a"⟩) e)

/-- The half of a number, which keeps its form. -/
def half (v : Value) : Expr := .binary (.arith .div) (.const v) (.const (.int 2))

/-- The datum `1.0`. -/
def oneFloat : Value := .float ⟨0x3ff0000000000000⟩

/-- Rows `0`, `1`, `NULL` and `2` under an index. -/
def counted : Table :=
  indexedBy (.ref ⟨none, "a"⟩) [("a", .int)] [[.int 0], [.int 1], [.null], [.int 2]]

theorem grown_counted : counted.Grown := ⟨"t", [("a", .int)], _, by decide, rfl⟩

theorem equivalent_drain_counted : counted.Grown ∧
    (∃ p q rows rows', (select counted (compared .ge (.const (.int 1))) none {}).result = .ok p ∧
      (select counted (compared .ge (.const oneFloat)) none {}).result = .ok q ∧
      p.equivalent q ∧ p.drain .empty none = .ok rows ∧ q.drain .empty none = .ok rows' ∧
      rows.map Row.tid = [some 1, some 3] ∧ (rows = rows' ∨ p.PartsFrom q .empty)) ∧
    ∃ p q, (select counted (compared .ge (half (.int 1))) none {}).result = .ok p ∧
      (select counted (compared .ge (half oneFloat)) none {}).result = .ok q ∧
      p.equivalent q ∧ p.PartsFrom q .empty :=
  ⟨grown_counted,
    ⟨_, _, _, _, rfl, rfl, by decide, rfl, rfl, by decide,
      equivalent_drain grown_counted (compared .ge (.const (.int 1)))
        (compared .ge (.const oneFloat)) none none {} {} .empty rfl rfl (by decide) rfl rfl⟩,
    ⟨_, _, rfl, rfl, by decide,
      (equivalent_drain grown_counted (compared .ge (half (.int 1))) (compared .ge (half oneFloat))
        none none {} {} .empty rfl rfl (by decide) rfl rfl).resolve_left (by decide)⟩⟩

/-- The paths for two filters read the same rows if they are equivalent. -/
def ReadSame (t : Table) (f g : Filter) (scope : Scope) : Prop :=
  ∀ p q rows rows', (select t f none {}).result = .ok p → (select t g none {}).result = .ok q →
    p.equivalent q → p.drain scope none = .ok rows → q.drain scope none = .ok rows' → rows = rows'

/-- The scope of an outer row `o` with `x = 1`. -/
def besideOne : Scope := Scope.empty.push ⟨[⟨some "o", "x", .int, false⟩], [.int 1], none, rfl⟩

/-- A quotient, with an outer row or without, a negated zero, and the datum `2 ^ 63` in the place of
the greatest integer. -/
theorem equivalent_apart : counted.Grown ∧
    ¬ ReadSame counted (compared .ge (half (.int 1))) (compared .ge (half oneFloat)) .empty ∧
    ¬ ReadSame counted
        (compared .ge (.binary (.arith .div) (.ref ⟨some "o", "x"⟩) (.const (.int 2))))
        (compared .ge (.binary (.arith .div) (.ref ⟨some "o", "x"⟩)
          (.const (.float ⟨0x4000000000000000⟩)))) besideOne ∧
    ¬ ReadSame counted (compared .gt (.unary .negate (.const (.int 0))))
        (compared .gt (.unary .negate (.const (.float ⟨0⟩)))) .empty ∧
    (indexedBy (.ref ⟨none, "a"⟩) [("a", .int)] [[.int 9223372036854775806]]).Grown ∧
    ¬ ReadSame (indexedBy (.ref ⟨none, "a"⟩) [("a", .int)] [[.int 9223372036854775806]])
        (compared .ge (.const (.int 9223372036854775807)))
        (compared .ge (.const (.float Binary64.twoPow63))) .empty := by
  refine ⟨grown_counted, fun h => ?_, fun h => ?_, fun h => ?_,
    ⟨"t", [("a", .int)], _, by decide, rfl⟩, fun h => ?_⟩
  · exact absurd (h _ _ _ _ rfl rfl (by decide) rfl rfl) (by decide)
  · exact absurd (h _ _ _ _ rfl rfl (by decide) rfl rfl) (by decide)
  · exact absurd (h _ _ _ (counted.rows.filter (·.values ≠ [.null])) rfl rfl (by decide +kernel)
      rfl (by decide +kernel)) (by decide)
  · exact absurd (h _ _ _ _ rfl rfl (by decide) rfl rfl) (by decide)

end AccessPath

end RelPlan

import RelPlan.Proofs.AccessRows
import RelPlan.Proofs.LinkedScans
import RelPlan.Proofs.MetRanges

/-!
# Ranges read off conjuncts

The ranges that are read off conjuncts are on the leading keys, up to the first key that no conjunct
restricts, and the conjuncts that restrict those keys are used up (`KeyRange.Covers`).  These are
not evaluated again, so on a row they have to say what the ranges say of its key: where all of them
can be evaluated they are true exactly if no bound is `NULL` and the key respects every bound
(`KeyRange.extract_exact`).
-/

namespace RelPlan

variable {foreign : Expr → Result Bool} {key conjunct : Expr}
  {conjuncts keys consumed : List Expr}

/-- The conjunct compares the key, on either side, with a foreign expression. -/
def Expr.Restricts (conjunct : Expr) (foreign : Expr → Result Bool) (key : Expr) : Prop :=
  ∃ r : Restriction, r.conjunct = conjunct ∧ r.IsOf foreign key

namespace Restriction

variable {rs : List Restriction}

theorem ofComparison_cmp {c : Comparison} (hc : c ≠ .ne) (other : Expr) :
    ofComparison conjunct (some (.cmp c)) other = some ⟨conjunct, c, other⟩ := by
  cases c with
  | ne => exact absurd rfl hc
  | eq | lt | le | gt | ge => rfl

theorem exists_of_ofConjunct {o : Option Restriction} (h : ofConjunct foreign key conjunct = .ok o)
    (hc : conjunct.Restricts foreign key) : ∃ r ∈ o, r.conjunct = conjunct := by
  obtain ⟨r, rfl, hof⟩ := hc
  obtain ⟨k, hk, hs⟩ := hof.shape
  have hflip : r.comparison.flip ≠ .ne := fun h =>
    hof.ranged (by rw [← Comparison.flip_flip r.comparison, h]; rfl)
  rcases hs with hs | hs
  all_goals
    rw [hs, ofConjunct_binary] at h
    obtain ⟨keyLeft, hleft, h⟩ := Result.bind_eq_ok.1 h
    obtain ⟨keyRight, hright, h⟩ := Result.bind_eq_ok.1 h
  · rw [if_pos hk, hof.foreign] at hleft
    cases hleft
    rw [if_pos rfl, ofComparison_cmp hof.ranged] at h
    cases h
    exact ⟨_, rfl, hs.symm⟩
  · cases keyLeft with
    | true =>
      rw [if_pos rfl, ofComparison_cmp hflip] at h
      cases h
      exact ⟨_, rfl, hs.symm⟩
    | false =>
      rw [if_neg Bool.false_ne_true, if_pos hk, hof.foreign] at hright
      cases hright
      rw [if_neg Bool.false_ne_true, if_pos rfl, BinaryOp.flip?, Comparison.flip_flip,
        ofComparison_cmp hof.ranged] at h
      cases h
      exact ⟨_, rfl, hs.symm⟩

theorem exists_of_ofConjuncts (h : ofConjuncts foreign key conjuncts = .ok rs)
    (hmem : conjunct ∈ conjuncts) (hc : conjunct.Restricts foreign key) :
    ∃ r ∈ rs, r.conjunct = conjunct := by
  induction conjuncts generalizing rs with
  | nil => cases hmem
  | cons c cs ih =>
    obtain ⟨o, ho, h⟩ := Result.bind_eq_ok.1 h
    obtain ⟨rs', hrs, h⟩ := Result.bind_eq_ok.1 h
    cases h
    rcases List.mem_cons.1 hmem with rfl | hmem
    · obtain ⟨r, hr, heq⟩ := exists_of_ofConjunct ho hc
      exact ⟨r, List.mem_append_left _ (Option.mem_toList.2 hr), heq⟩
    · obtain ⟨r, hr, heq⟩ := ih hrs hmem
      exact ⟨r, List.mem_append_right _ hr, heq⟩

theorem isEmpty_ofRestrictions (hrs : rs ≠ []) (hranged : ∀ r ∈ rs, r.comparison ≠ .ne) :
    (ColumnRange.ofRestrictions rs).isEmpty = false := by
  obtain ⟨r, hr⟩ := List.exists_mem_of_ne_nil rs hrs
  obtain ⟨b, hb, -⟩ := exists_bound (hranged r hr)
  rw [ColumnRange.isEmpty, Bool.and_eq_false_iff, List.isEmpty_eq_false_iff_exists_mem,
    List.isEmpty_eq_false_iff_exists_mem]
  exact hb.imp (fun hb => ⟨b, List.mem_filterMap.2 ⟨r, hr, hb⟩⟩)
    fun hb => ⟨b, List.mem_filterMap.2 ⟨r, hr, hb⟩⟩

end Restriction

namespace KeyRange

variable {covered rest : List Expr} {ranges : List ColumnRange}

/-- Ranges on the keys `covered`, in front of the keys `rest`, and the conjuncts used up for
them. -/
structure Covers (foreign : Expr → Result Bool) (conjuncts covered rest : List Expr)
    (ranges : List ColumnRange) (consumed : List Expr) : Prop where
  /-- Each covered key has a range with a bound, and no bound that a conjunct does not set. -/
  ranges : List.Forall₂ (fun key r => r.isEmpty = false ∧ ∀ b ∈ r.lower ++ r.upper,
    ∃ s : Restriction, s.conjunct ∈ conjuncts ∧ s.IsOf foreign key ∧ b.expr = s.other)
    covered ranges
  /-- The next key has none. -/
  stops : ∀ key ∈ rest.head?, ∀ c ∈ conjuncts, ¬ c.Restricts foreign key
  /-- What is used up restricts a covered key. -/
  restricts : ∀ c ∈ consumed, c ∈ conjuncts ∧ ∃ key ∈ covered, c.Restricts foreign key
  /-- What restricts a covered key is used up, itself or in another order of operands. -/
  consumes : ∀ c ∈ conjuncts, ∀ key ∈ covered, c.Restricts foreign key →
    ∃ d ∈ consumed, d.equiv c

/-- Extraction goes key by key up to the first one without a restriction. -/
theorem exists_of_extractFrom {consumed' : List Expr}
    (h : extractFrom foreign conjuncts consumed keys = .ok (ranges, consumed')) :
    ∃ covered rest rss, keys = covered ++ rest ∧
      List.Forall₂ (fun key rs =>
        Restriction.ofConjuncts foreign key conjuncts = .ok rs ∧ rs ≠ []) covered rss ∧
      (∀ key ∈ rest.head?, Restriction.ofConjuncts foreign key conjuncts = .ok []) ∧
      ranges = rss.map .ofRestrictions ∧
      consumed' = Filter.insertAll consumed (rss.flatten.map Restriction.conjunct) := by
  induction keys generalizing consumed ranges with
  | nil => cases h; exact ⟨[], [], [], rfl, .nil, by simp, rfl, rfl⟩
  | cons key keys ih =>
    obtain ⟨rs, hrs, h⟩ := Result.bind_eq_ok.1 h
    split at h
    · next hempty =>
      cases h
      obtain rfl := List.isEmpty_iff.1 hempty
      exact ⟨[], key :: keys, [], rfl, .nil, by simpa using hrs, rfl, rfl⟩
    · next hempty =>
      obtain ⟨⟨ranges', consumed''⟩, hrest, h⟩ := Result.bind_eq_ok.1 h
      cases h
      obtain ⟨covered, rest, rss, rfl, hall, hstop, rfl, rfl⟩ := ih hrest
      refine ⟨key :: covered, rest, rs :: rss, rfl, .cons ⟨hrs, by simpa using hempty⟩ hall, hstop,
        rfl, ?_⟩
      rw [List.flatten_cons, List.map_append, Filter.insertAll_append]

theorem covers_of_extract (h : extract foreign keys conjuncts = .ok (ranges, consumed)) :
    ∃ covered rest, keys = covered ++ rest ∧
      Covers foreign conjuncts covered rest ranges consumed := by
  obtain ⟨covered, rest, rss, rfl, hall, hstop, rfl, rfl⟩ := exists_of_extractFrom h
  have hof {key : Expr} {rs : List Restriction}
      (hrs : Restriction.ofConjuncts foreign key conjuncts = .ok rs) :=
    Restriction.isOf_of_ofConjuncts hrs
  refine ⟨covered, rest, rfl, ?_, fun key hkey c hc hrestricts => ?_, fun c hc => ?_,
    fun c hc key hkey hrestricts => ?_⟩
  · refine List.forall₂_map_right_iff.2 (hall.imp fun key rs ⟨hrs, hne⟩ => ⟨?_, fun b hb => ?_⟩)
    · exact Restriction.isEmpty_ofRestrictions hne fun r hr => (hof hrs r hr).2.ranged
    · obtain ⟨r, hr, hexpr⟩ := ColumnRange.mem_bounds_ofRestrictions hb
      exact ⟨r, (hof hrs r hr).1, (hof hrs r hr).2, hexpr⟩
  · obtain ⟨r, hr, -⟩ := Restriction.exists_of_ofConjuncts (hstop key hkey) hc hrestricts
    cases hr
  · obtain ⟨r, hr, rfl⟩ := List.mem_map.1 ((Filter.mem_of_mem_insertAll hc).resolve_left (by simp))
    obtain ⟨rs, hrs, hr⟩ := List.mem_flatten.1 hr
    obtain ⟨key, hkey, hread, -⟩ := exists_of_forall₂ hall hrs
    exact ⟨(hof hread r hr).1, key, hkey, r, rfl, (hof hread r hr).2⟩
  · obtain ⟨rs, hrs, hread, -⟩ := exists_of_forall₂ hall.flip hkey
    obtain ⟨r, hr, rfl⟩ := Restriction.exists_of_ofConjuncts hread hc hrestricts
    exact Filter.exists_equiv_insertAll []
      (List.mem_map_of_mem (List.mem_flatten.2 ⟨rs, hrs, hr⟩))

section
variable {t : Table} {row : Row} {inner scope : Scope} {vs : List Value}

/-- The ranges say of a row what the conjuncts say that were used up for them.  Where every bound
and each of these conjuncts can be evaluated, the conjuncts are all true exactly if no bound is
`NULL` and the key of the row respects each bound of every column with a range; and these columns
are the leading ones, none of them without a bound.  An index evaluates the key without outer rows,
and with some of the innermost of them it is the same key. -/
theorem extract_exact
    (h : extract (AccessPath.foreign t) keys conjuncts = .ok (ranges, consumed))
    (hcol : row.columns = t.columns) (hinner : inner.rows <+: scope.rows)
    (hkey : Expr.evalAll inner row keys = .ok vs)
    (hbounds : ∀ r ∈ ranges, ∀ b ∈ r.lower ++ r.upper, ∃ w, b.expr.eval scope = .ok w)
    (hconsumed : ∀ c ∈ consumed, ∃ v, c.evalRow scope row = .ok v) :
    ((∀ c ∈ consumed, c.evalRow scope row = .ok (.bool true)) ↔
      (∀ r ∈ ranges, ∀ b ∈ r.lower ++ r.upper, b.expr.eval scope ≠ .ok .null) ∧
        ColumnRange.admitsKey scope ranges vs) ∧
    ∃ covered rest, keys = covered ++ rest ∧
      Covers (AccessPath.foreign t) conjuncts covered rest ranges consumed := by
  refine ⟨?_, covers_of_extract h⟩
  have htrue : (∀ c ∈ consumed, c.evalRow scope row = .ok (.bool true)) ↔
      ColumnRange.admitsKey scope ranges vs :=
    calc (∀ c ∈ consumed, c.evalRow scope row = .ok (.bool true))
        ↔ ∀ c ∈ consumed, c.Passes (row.env scope) := forall₂_congr fun c hc =>
          have ⟨_, hv⟩ := hconsumed c hc
          (Expr.passes_iff_of_evalRow hv).symm
      _ ↔ ColumnRange.AllRespected scope.env ranges vs :=
          (AccessPath.allRespected_iff_passes h hcol (Expr.worth_of_evalAll hinner hkey)).symm
      _ ↔ ColumnRange.admitsKey scope ranges vs := by
          rw [ColumnRange.admitsKey_iff, and_iff_right hbounds]
  rw [htrue]
  refine ⟨fun hadmits => ⟨fun r hr b hb hnull => ?_, hadmits⟩, And.right⟩
  rw [ColumnRange.admitsKey_eq_false hr hb hnull] at hadmits
  cases hadmits

/-- A key in another order of operands, a bound from an outer row, one bound that two conjuncts set,
and two conjuncts that set none. -/
theorem extract_exact_sum :
    let t : Table := .make "t" [("a", .int), ("b", .int)]
    let a : Expr := .ref ⟨some "t", "a"⟩
    let b : Expr := .ref ⟨some "t", "b"⟩
    let x : Expr := .ref ⟨some "o", "x"⟩
    let int (n : Int64) : Expr := .const (.int n)
    let sum : Expr := .binary (.arith .add) a (int 1)
    let swapped : Expr := .binary (.cmp .lt) (int 2) (.binary (.arith .add) (int 1) a)
    let upTo : Expr := .binary (.cmp .le) sum x
    let equal : Expr := .binary (.cmp .eq) b (int 1)
    let conjuncts := [swapped, upTo, .binary (.cmp .gt) sum (int 2), .binary (.cmp .eq) sum b,
      equal, .binary (.cmp .ne) b (int 7)]
    let ranges : List ColumnRange :=
      [⟨[⟨int 2, false⟩, ⟨int 2, false⟩], [⟨x, true⟩]⟩, ⟨[⟨int 1, true⟩], [⟨int 1, true⟩]⟩]
    let row : Row := ⟨t.columns, [.int 3, .int 1], some 0, rfl⟩
    let scope : Scope := ⟨[⟨[⟨some "o", "x", .int, false⟩], [.int 9], none, rfl⟩]⟩
    extract (AccessPath.foreign t) [sum, b] conjuncts = .ok (ranges, [swapped, upTo, equal]) ∧
      Scope.empty.rows <+: scope.rows ∧
      Expr.evalAll .empty row [sum, b] = .ok [.int 4, .int 1] ∧
      (∀ r ∈ ranges, ∀ b ∈ r.lower ++ r.upper, ∃ w, b.expr.eval scope = .ok w) ∧
      (∀ c ∈ [swapped, upTo, equal], ∃ v, c.evalRow scope row = .ok v) ∧
      ColumnRange.admitsKey scope ranges [.int 4, .int 1] ∧
      ((∀ c ∈ [swapped, upTo, equal], c.evalRow scope row = .ok (.bool true)) ↔
        (∀ r ∈ ranges, ∀ b ∈ r.lower ++ r.upper, b.expr.eval scope ≠ .ok .null) ∧
          ColumnRange.admitsKey scope ranges [.int 4, .int 1]) ∧
      ∃ covered rest, [sum, b] = covered ++ rest ∧
        Covers (AccessPath.foreign t) conjuncts covered rest ranges [swapped, upTo, equal] := by
  intro t a b x int sum swapped upTo equal conjuncts ranges row scope
  have h : extract (AccessPath.foreign t) [sum, b] conjuncts =
      .ok (ranges, [swapped, upTo, equal]) := by decide
  have hkey : Expr.evalAll .empty row [sum, b] = .ok [.int 4, .int 1] := by decide
  have hbounds : ∀ r ∈ ranges, ∀ b ∈ r.lower ++ r.upper, ∃ w, b.expr.eval scope = .ok w := by
    have hint (n : Int64) : ∃ w, (int n).eval scope = .ok w := ⟨_, rfl⟩
    have hx : ∃ w, x.eval scope = .ok w := ⟨.int 9, by decide⟩
    simp [ranges, hint, hx]
  have htrue : ∀ c ∈ [swapped, upTo, equal], c.evalRow scope row = .ok (.bool true) := by decide
  exact ⟨h, List.nil_prefix, hkey, hbounds, fun c hc => ⟨_, htrue c hc⟩, by decide,
    extract_exact h rfl List.nil_prefix hkey hbounds fun c hc => ⟨_, htrue c hc⟩⟩

end

end KeyRange

end RelPlan

import RelPlan.Access
import RelPlan.Proofs.FilterSets
import RelPlan.Proofs.KeyLimits

/-!
# What a probe stands for

A conjunct that compares a key with a foreign expression passes exactly if the value of the key
respects the bounds read off it.  So the ranges that are extracted from a filter stand for the
conjuncts that were consumed, no more and no less (`KeyRange.extractFrom_spec`).
-/

namespace RelPlan

variable {env env' : Env} {foreign : Expr → Result Bool} {key conjunct e : Expr} {v w : Value}

theorem Comparison.flip_flip (c : Comparison) : c.flip.flip = c := by cases c <;> rfl

namespace Restriction

variable {r : Restriction}

/-- The conjunct compares the key, on either side, with a foreign expression. -/
structure IsOf (foreign : Expr → Result Bool) (key : Expr) (r : Restriction) : Prop where
  ranged : r.comparison ≠ .ne
  foreign : foreign r.other = .ok true
  shape : ∃ k, k.equiv key ∧ (r.conjunct = .binary (.cmp r.comparison) k r.other ∨
    r.conjunct = .binary (.cmp r.comparison.flip) r.other k)

theorem ofComparison_eq_some {op : Option BinaryOp} (h : ofComparison conjunct op e = some r) :
    op = some (.cmp r.comparison) ∧ r.comparison ≠ .ne ∧ r.conjunct = conjunct ∧ r.other = e := by
  unfold ofComparison at h
  split at h
  · cases h
  · next c hne => cases h; exact ⟨rfl, hne, rfl, rfl⟩
  · cases h

theorem ofConjunct_binary (op : BinaryOp) (a b : Expr) :
    ofConjunct foreign key (.binary op a b) =
      (if a.equiv key then foreign b else .ok false) >>= fun keyLeft =>
      (if keyLeft then .ok false else if b.equiv key then foreign a else .ok false) >>=
        fun keyRight =>
      if keyLeft then .ok (ofComparison (.binary op a b) (some op) b)
      else if keyRight then .ok (ofComparison (.binary op a b) op.flip? a) else .ok none := by
  rw [ofConjunct]
  cases a.equiv key <;> cases b.equiv key <;> rcases foreign b with _ | (_ | _) <;> simp

theorem isOf_of_ofConjunct (h : ofConjunct foreign key conjunct = .ok (some r)) :
    r.conjunct = conjunct ∧ r.IsOf foreign key := by
  match conjunct, h with
  | .binary op a b, h =>
    rw [ofConjunct_binary] at h
    obtain ⟨keyLeft, hleft, h⟩ := Result.bind_eq_ok.1 h
    obtain ⟨keyRight, hright, h⟩ := Result.bind_eq_ok.1 h
    split at h
    · next hkey =>
      obtain ⟨hop, hne, hc, ho⟩ := ofComparison_eq_some (Except.ok.inj h)
      obtain rfl := Option.some.inj hop
      split at hleft
      · next ha => exact ⟨hc, hne, by rw [ho, hleft, hkey], a, ha, .inl (by rw [hc, ho])⟩
      · cases hleft; cases hkey
    · next hkey =>
      rw [if_neg hkey] at hright
      split at h
      · next hkey =>
        obtain ⟨hop, hne, hc, ho⟩ := ofComparison_eq_some (Except.ok.inj h)
        have hflip : op = .cmp r.comparison.flip := by
          cases op with
          | cmp c =>
            have hc : c.flip = r.comparison := by simpa [BinaryOp.flip?] using hop
            rw [← hc, Comparison.flip_flip]
          | arith ar => cases ar <;> simp [BinaryOp.flip?] at hop
          | and | or | distinct => simp [BinaryOp.flip?] at hop
        split at hright
        · next hb => exact ⟨hc, hne, by rw [ho, hright, hkey], b, hb, .inr (by rw [hc, ho, hflip])⟩
        · cases hright; cases hkey
      · cases h
  | .const _, h | .ref _, h | .unary _ _, h => cases h

theorem isOf_of_ofConjuncts {cs : List Expr} {rs : List Restriction}
    (h : ofConjuncts foreign key cs = .ok rs) :
    ∀ r ∈ rs, r.conjunct ∈ cs ∧ r.IsOf foreign key := by
  induction cs generalizing rs with
  | nil => cases h; simp
  | cons c cs ih =>
    obtain ⟨r?, hr, h⟩ := Result.bind_eq_ok.1 h
    obtain ⟨rs', hrs, h⟩ := Result.bind_eq_ok.1 h
    cases h
    intro r hmem
    rcases List.mem_append.1 hmem with hmem | hmem
    · obtain rfl := Option.mem_toList.1 hmem
      obtain ⟨hc, hof⟩ := isOf_of_ofConjunct hr
      exact ⟨hc ▸ List.mem_cons_self, hof⟩
    · exact (ih hrs r hmem).imp_left (List.mem_cons_of_mem _)

theorem IsOf.isExact_other (h : r.IsOf foreign key) (hc : r.conjunct.isExact) :
    r.other.isExact := by
  obtain ⟨k, -, hs | hs⟩ := h.shape <;> rw [hs] at hc <;> simp_all [Expr.isExact]

theorem IsOf.refs_other (h : r.IsOf foreign key) : r.other.refs ⊆ r.conjunct.refs := by
  obtain ⟨k, -, hs | hs⟩ := h.shape <;> rw [hs] <;> simp [Expr.refs]

/-- The worth of the conjunct is the comparison of the key with the other side. -/
theorem IsOf.passes_conjunct (h : r.IsOf foreign key) (hv : key.worth env = some v) :
    r.conjunct.Passes env ↔
      ∃ w, r.other.worth env = some w ∧ r.comparison.worth v w = .bool true := by
  obtain ⟨k, hk, hs⟩ := h.shape
  have hkv : k.worth env = some v := (Expr.worth_eq_of_equiv env hk).trans hv
  rw [Expr.Passes]
  rcases hs with hs | hs
  · rw [hs, Expr.worth, hkv]
    cases r.other.worth env <;> simp
  · rw [hs, Expr.worth, hkv]
    cases r.other.worth env <;> simp [Comparison.worth_flip]

/-- The conjunct passes if the value of the key respects its bounds. -/
theorem IsOf.passes_iff_respected (h : r.IsOf foreign key) (hv : key.worth env = some v) :
    r.conjunct.Passes env ↔ v.isNull = false ∧ (∀ b ∈ r.lower?, b.Respected env .gt v) ∧
      ∀ b ∈ r.upper?, b.Respected env .lt v := by
  rw [h.passes_conjunct hv]
  obtain ⟨conjunct, c, other⟩ := r
  have hne : c ≠ .ne := h.ranged
  simp only [Comparison.worth_eq_true, Bound.Respected]
  cases c with
  | ne => exact absurd rfl hne
  | eq | lt | le | gt | ge =>
    simp only [lower?, upper?, Option.mem_def, Option.some.injEq, reduceCtorEq, forall_eq',
      false_imp_iff, implies_true, true_and, and_true, Limit.allows, Comparison.holds]
    constructor
    · rintro ⟨w, hw, hvn, hwn, ho⟩
      refine ⟨hvn, ?_⟩
      cases hvw : v.order w <;> simp_all
    · intro hresp
      cases hother : other.worth env with
      | none => simp_all
      | some w => cases hvw : v.order w <;> simp_all

end Restriction

namespace ColumnRange

theorem respected_congr {r : ColumnRange}
    (h : ∀ b ∈ r.lower ++ r.upper, b.expr.worth env = b.expr.worth env') :
    r.Respected env v ↔ r.Respected env' v := by
  have hbound {b : Bound} (hb : b ∈ r.lower ++ r.upper) (side : Ordering) :
      b.Respected env side v ↔ b.Respected env' side v := by
    rw [Bound.Respected, h b hb, Bound.Respected]
  refine ⟨fun hv => ⟨hv.notNull, fun b hb => ?_, fun b hb => ?_⟩,
    fun hv => ⟨hv.notNull, fun b hb => ?_, fun b hb => ?_⟩⟩
  · exact (hbound (List.mem_append_left _ hb) _).1 (hv.lower b hb)
  · exact (hbound (List.mem_append_right _ hb) _).1 (hv.upper b hb)
  · exact (hbound (List.mem_append_left _ hb) _).2 (hv.lower b hb)
  · exact (hbound (List.mem_append_right _ hb) _).2 (hv.upper b hb)

theorem allRespected_congr {rs : List ColumnRange} {vs : List Value}
    (h : ∀ r ∈ rs, ∀ b ∈ r.lower ++ r.upper, b.expr.worth env = b.expr.worth env') :
    AllRespected env rs vs ↔ AllRespected env' rs vs := by
  induction rs generalizing vs with
  | nil => exact Iff.rfl
  | cons r rs ih =>
    obtain ⟨hr, hrs⟩ := List.forall_mem_cons.1 h
    match vs with
    | [] => exact Iff.rfl
    | v :: vs => exact and_congr (respected_congr hr) (ih hrs)

variable {rs : List Restriction}

theorem mem_bounds_ofRestrictions {b : Bound}
    (h : b ∈ (ofRestrictions rs).lower ++ (ofRestrictions rs).upper) :
    ∃ r ∈ rs, b.expr = r.other := by
  simp only [ofRestrictions, List.mem_append, List.mem_filterMap] at h
  rcases h with ⟨r, hr, hb⟩ | ⟨r, hr, hb⟩ <;> refine ⟨r, hr, ?_⟩
  · unfold Restriction.lower? at hb
    split at hb <;> cases hb <;> rfl
  · unfold Restriction.upper? at hb
    split at hb <;> cases hb <;> rfl

/-- A range stands for the conjuncts that it was made of. -/
theorem respected_ofRestrictions (hrs : rs ≠ []) (hof : ∀ r ∈ rs, r.IsOf foreign key)
    (hv : key.worth env = some v) :
    (ofRestrictions rs).Respected env v ↔ ∀ r ∈ rs, r.conjunct.Passes env := by
  have heach (r : Restriction) (hr : r ∈ rs) :=
    (hof r hr).passes_iff_respected hv
  constructor
  · intro h r hr
    refine (heach r hr).2 ⟨h.notNull, fun b hb => ?_, fun b hb => ?_⟩
    · exact h.lower b (List.mem_filterMap.2 ⟨r, hr, hb⟩)
    · exact h.upper b (List.mem_filterMap.2 ⟨r, hr, hb⟩)
  · intro h
    obtain ⟨r, hr⟩ := List.exists_mem_of_ne_nil _ hrs
    refine ⟨((heach r hr).1 (h r hr)).1, fun b hb => ?_, fun b hb => ?_⟩
    · obtain ⟨r, hr, hb⟩ := List.mem_filterMap.1 hb
      exact ((heach r hr).1 (h r hr)).2.1 b hb
    · obtain ⟨r, hr, hb⟩ := List.mem_filterMap.1 hb
      exact ((heach r hr).1 (h r hr)).2.2 b hb

end ColumnRange

theorem KeyRange.bound_of_extractFrom {conjuncts consumed consumed' keys : List Expr}
    {ranges : List ColumnRange}
    (h : extractFrom foreign conjuncts consumed keys = .ok (ranges, consumed')) :
    ∀ r ∈ ranges, ∀ b ∈ r.lower ++ r.upper, ∃ (key : Expr) (s : Restriction),
      s.conjunct ∈ conjuncts ∧ s.IsOf foreign key ∧ b.expr = s.other := by
  induction keys generalizing consumed ranges with
  | nil => cases h; simp
  | cons key keys ih =>
    obtain ⟨rs, hrs, h⟩ := Result.bind_eq_ok.1 h
    split at h
    · cases h; simp
    · obtain ⟨⟨ranges', consumed''⟩, hrest, h⟩ := Result.bind_eq_ok.1 h
      cases h
      refine List.forall_mem_cons.2 ⟨fun b hb => ?_, ih hrest⟩
      obtain ⟨r, hr, hbr⟩ := ColumnRange.mem_bounds_ofRestrictions hb
      obtain ⟨hmem, hof⟩ := Restriction.isOf_of_ofConjuncts hrs r hr
      exact ⟨key, r, hmem, hof, hbr⟩

/-- The conjuncts consumed so far, and what the ranges that extraction adds stand for. -/
theorem KeyRange.extractFrom_spec {conjuncts consumed consumed' keys : List Expr}
    {ranges : List ColumnRange} (hconsumed : ∀ c ∈ consumed, c ∈ conjuncts)
    (h : extractFrom foreign conjuncts consumed keys = .ok (ranges, consumed')) :
    (∀ c ∈ consumed', c ∈ conjuncts) ∧
      ∀ (env : Env) (vs : List Value),
        List.Forall₂ (fun k v => k.worth env = some v) keys vs →
          ((∀ c ∈ consumed', c.Passes env) ↔
            (∀ c ∈ consumed, c.Passes env) ∧ ColumnRange.AllRespected env ranges vs) := by
  induction keys generalizing consumed ranges with
  | nil =>
    cases h
    exact ⟨hconsumed, fun env vs hall => by simp [ColumnRange.AllRespected]⟩
  | cons key keys ih =>
    obtain ⟨rs, hrs, h⟩ := Result.bind_eq_ok.1 h
    have hof := Restriction.isOf_of_ofConjuncts hrs
    split at h
    · cases h
      exact ⟨hconsumed, fun env vs hall => by simp [ColumnRange.AllRespected]⟩
    · next hne =>
      obtain ⟨⟨ranges', consumed''⟩, hrest, h⟩ := Result.bind_eq_ok.1 h
      cases h
      have hmap : ∀ c ∈ rs.map Restriction.conjunct, c ∈ conjuncts := by
        intro c hmem
        obtain ⟨r, hr, rfl⟩ := List.mem_map.1 hmem
        exact (hof r hr).1
      have hins : ∀ c ∈ Filter.insertAll consumed (rs.map Restriction.conjunct),
          c ∈ conjuncts := by
        intro c hmem
        rcases Filter.mem_of_mem_insertAll hmem with hmem | hmem
        exacts [hconsumed c hmem, hmap c hmem]
      obtain ⟨hsub, hpass⟩ := ih hins hrest
      refine ⟨hsub, fun env vs hall => ?_⟩
      cases hall with
      | cons hv hvs =>
        have hrange := ColumnRange.respected_ofRestrictions (by simpa using hne)
          (fun r hr => (hof r hr).2) hv
        rw [hpass env _ hvs, Filter.forall_passes_insertAll,
          ColumnRange.AllRespected, hrange, and_assoc]
        simp

end RelPlan

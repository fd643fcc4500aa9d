import RelPlan.Proofs.ExprTypes
import RelPlan.Proofs.KeyBounds

/-!
# Values that meet a range

The key of an entry that a range scan gives lies between the tightest of the bounds on it, all of
which have been evaluated (`KeyRange.met_of_extractFrom`).  Over any data that says nothing yet of
the other bounds; it does where the order is transitive (`ColumnRange.Met.respected`).
-/

namespace RelPlan

variable {scope : Scope} {v : Value}

theorem Limit.eval_of_tightestFrom {type : DataType} {side : Ordering} {bs : List Bound}
    {best best' : Option Limit} (h : tightestFrom scope type side best bs = .ok (some best')) :
    ∀ b ∈ bs, ∃ w, b.expr.eval scope = .ok w ∧ w.isNull = false ∧ type.Admits w := by
  induction bs generalizing best with
  | nil => simp
  | cons b bs ih =>
    obtain ⟨w, hw, h⟩ := Result.bind_eq_ok.1 h
    obtain ⟨⟨⟩, htype, h⟩ := Result.bind_eq_ok.1 h
    split at h
    · cases h
    · next hnull =>
      exact List.forall_mem_cons.2
        ⟨⟨w, hw, by simpa using hnull, checkComparable_eq_ok.1 htype⟩, ih h⟩

theorem Restriction.exists_bound {r : Restriction} (hne : r.comparison ≠ .ne) :
    ∃ b, (r.lower? = some b ∨ r.upper? = some b) ∧ b.expr = r.other := by
  obtain ⟨conjunct, c, other⟩ := r
  cases c with
  | ne => exact absurd rfl hne
  | eq | gt | ge => exact ⟨_, .inl rfl, rfl⟩
  | lt | le => exact ⟨_, .inr rfl, rfl⟩

/-- The bounds of the range are evaluated, and the value lies between the tightest of them. -/
def ColumnRange.Met (scope : Scope) (type : DataType) (r : ColumnRange) (v : Value) : Prop :=
  ∃ lower upper, Limit.tightestFrom scope type .gt none r.lower = .ok (some lower) ∧
    Limit.tightestFrom scope type .lt none r.upper = .ok (some upper) ∧
    (⟨lower, upper⟩ : Limits).allow v

namespace ColumnRange.Met

variable {type : DataType} {range : ColumnRange} {rs : List Restriction} {r : Restriction}

theorem eval_bound (h : range.Met scope type v) : ∀ b ∈ range.lower ++ range.upper,
    ∃ w, b.expr.eval scope = .ok w ∧ w.isNull = false ∧ type.Admits w := by
  obtain ⟨lower, upper, hlower, hupper, -⟩ := h
  intro b hb
  rcases List.mem_append.1 hb with hb | hb
  exacts [Limit.eval_of_tightestFrom hlower b hb, Limit.eval_of_tightestFrom hupper b hb]

theorem eval_other (h : (ofRestrictions rs).Met scope type v) (hr : r ∈ rs)
    (hne : r.comparison ≠ .ne) :
    ∃ w, r.other.eval scope = .ok w ∧ w.isNull = false ∧ type.Admits w := by
  obtain ⟨b, hb, hexpr⟩ := Restriction.exists_bound hne
  refine hexpr ▸ h.eval_bound b (List.mem_append.2 (hb.imp ?_ ?_)) <;>
    exact fun hb => List.mem_filterMap.2 ⟨r, hr, hb⟩

/-- Where the order is transitive, what the tightest bounds allow respects all of them. -/
theorem respected {S : Value → Prop} (h : range.Met scope type v) (hS : Value.Chained S)
    (hv : S v) (hbounds : ∀ b ∈ range.lower ++ range.upper, ∀ w, b.expr.eval scope = .ok w → S w) :
    range.Respected scope.env v := by
  obtain ⟨lower, upper, hlower, hupper, hallow⟩ := h
  obtain ⟨-, hlow⟩ := Limit.tightestFrom_spec hS (by simp)
    (fun b hb => hbounds b (List.mem_append_left _ hb)) (by simp) hlower
  obtain ⟨-, hup⟩ := Limit.tightestFrom_spec hS (by simp)
    (fun b hb => hbounds b (List.mem_append_right _ hb)) (by simp) hupper
  simp only [Limits.allow, Bool.and_eq_true, Bool.not_eq_true', Option.all_eq_true,
    Limit.allowsFromBelow_eq, Limit.allowsFromAbove_eq] at hallow
  obtain ⟨⟨hnull, hbelow⟩, habove⟩ := hallow
  exact ⟨hnull, (((hlow lower rfl).2 v hv).1 hbelow).2, (((hup upper rfl).2 v hv).1 habove).2⟩

theorem notNull (h : range.Met scope type v) : v.isNull = false := by
  obtain ⟨lower, upper, -, -, hallow⟩ := h
  simp only [Limits.allow, Bool.and_eq_true, Bool.not_eq_true'] at hallow
  exact hallow.1.1

end ColumnRange.Met

/-- Each conjunct that is used up belongs to a key whose value meets the range that was made of
it. -/
theorem KeyRange.met_of_extractFrom {foreign : Expr → Result Bool} {P : Expr → Value → Prop}
    {typeOf : Expr → DataType} {conjuncts consumed consumed' keys : List Expr}
    {ranges : List ColumnRange} {limits : List Limits} {vs : List Value}
    (h : extractFrom foreign conjuncts consumed keys = .ok (ranges, consumed'))
    (hlimits : Limits.ofRanges scope (keys.map typeOf) ranges = .ok (some limits))
    (hvs : List.Forall₂ P keys vs) (hallow : Limits.allowKey limits vs) :
    ∀ e ∈ consumed', e ∈ consumed ∨ ∃ key ∈ keys, ∃ v, P key v ∧ ∃ rs,
      Restriction.ofConjuncts foreign key conjuncts = .ok rs ∧
        (ColumnRange.ofRestrictions rs).Met scope (typeOf key) v ∧ ∃ r ∈ rs, r.conjunct = e := by
  induction hvs generalizing consumed ranges limits with
  | nil => cases h; exact fun e he => .inl he
  | @cons key v keys vs hv _ ih =>
    obtain ⟨rs, hrs, h⟩ := Result.bind_eq_ok.1 h
    split at h
    · cases h; exact fun e he => .inl he
    · obtain ⟨⟨ranges', consumed''⟩, hrest, h⟩ := Result.bind_eq_ok.1 h
      cases h
      obtain ⟨L, rest, rfl, hlower, hupper, hlimits'⟩ := Limits.ofRanges_cons_eq_some hlimits
      simp only [Limits.allowKey, Bool.and_eq_true] at hallow
      have hmet : (ColumnRange.ofRestrictions rs).Met scope (typeOf key) v :=
        ⟨L.lower, L.upper, hlower, hupper, hallow.1⟩
      intro e he
      rcases ih hrest hlimits' hallow.2 e he with he | ⟨key', hkey', hfound⟩
      · refine (Filter.mem_of_mem_insertAll he).imp_right fun he => ?_
        obtain ⟨r, hr, heq⟩ := List.mem_map.1 he
        exact ⟨key, List.mem_cons_self, v, hv, rs, hrs, hmet, r, hr, heq⟩
      · exact .inr ⟨key', List.mem_cons_of_mem _ hkey', hfound⟩

end RelPlan

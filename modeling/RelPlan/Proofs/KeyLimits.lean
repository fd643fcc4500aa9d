import RelPlan.Index
import RelPlan.Proofs.SearchTree
import RelPlan.Proofs.ValueOrder
import RelPlan.Proofs.Worth

/-!
# Range scans of a search tree

The limits of a scan are the tightest of the bounds that were asked for, and a scan leaves out only
subtrees whose keys they exclude, so it gives exactly the entries that respect every bound
(`Tree.scan_eq`, `Limits.ofRanges_spec`).
-/

namespace RelPlan

namespace Value

variable {a b c : Value}

theorem ne_twoPow63 (h : a.isExact) : a ≠ float Binary64.twoPow63 := by
  rintro rfl
  cases h

/-- The order is transitive where what stands in the middle tells integers apart. -/
theorem order_isLE_trans_of_ne (hb : b ≠ float Binary64.twoPow63) (hab : (a.order b).isLE)
    (hbc : (b.order c).isLE) : (a.order c).isLE := by
  by_contra hac
  obtain ⟨m, n, -, rfl, -⟩ := (not_trans_iff a b c).1 ⟨hab, hbc, hac⟩
  exact hb rfl

theorem eq_of_order_eq (ha : a.isExact) (hc : c.isExact) (hb : b ≠ float Binary64.twoPow63)
    (hab : a.order b = .eq) (hcb : c.order b = .eq) : a = c := by
  have hac := order_isLE_trans_of_ne hb (isLE_of_order_eq hab).1 (isLE_of_order_eq hcb).2
  have hca := order_isLE_trans_of_ne hb (isLE_of_order_eq hcb).1 (isLE_of_order_eq hab).2
  rw [← order_swap] at hca
  refine (order_eq_iff ha hc).1 ?_
  cases h : a.order c <;> simp [h] at hac hca ⊢

theorem order_lt_of_isLE_of_lt (ha : a.isExact) (hb : b.isExact) (hab : (a.order b).isLE)
    (hbc : b.order c = .lt) : a.order c = .lt := by
  have hle : (b.order c).isLE := by simp [hbc]
  have hac := order_isLE_trans_of_ne (ne_twoPow63 hb) hab hle
  by_cases h : a.order c = .eq
  · have hcb := order_isLE_trans_of_ne (ne_twoPow63 ha) (isLE_of_order_eq h).2 hab
    rw [← order_swap, hbc] at hcb
    exact absurd hcb (by simp)
  · cases h' : a.order c <;> simp_all

theorem order_lt_of_lt_of_isLE (hb : b.isExact) (hc : c.isExact) (hab : a.order b = .lt)
    (hbc : (b.order c).isLE) : a.order c = .lt := by
  have hle : (a.order b).isLE := by simp [hab]
  have hac := order_isLE_trans_of_ne (ne_twoPow63 hb) hle hbc
  by_cases h : a.order c = .eq
  · have hba := order_isLE_trans_of_ne (ne_twoPow63 hc) hbc (isLE_of_order_eq h).2
    rw [← order_swap, hab] at hba
    exact absurd hba (by simp)
  · cases h' : a.order c <;> simp_all

theorem chained_iff {S : Value → Prop} :
    Chained S ↔ ∀ a b c, S a → S b → S c → ¬ Straddles a b c := by
  refine forall₃_congr fun a b c => ?_
  rw [← not_trans_iff]
  tauto

theorem chained_ne_twoPow63 : Chained (· ≠ float Binary64.twoPow63) :=
  fun _ _ _ _ hb _ => order_isLE_trans_of_ne hb

end Value

/-- Every value that limits a key is exact. -/
def Limits.IsExact (b : Limits) : Prop :=
  (∀ l ∈ b.lower, l.value.isExact) ∧ ∀ l ∈ b.upper, l.value.isExact

/-- No value that limits a key is the datum `2 ^ 63`, which is equal to integers that differ. -/
def Limits.IsSharp (b : Limits) : Prop :=
  (∀ l ∈ b.lower, l.value ≠ .float Binary64.twoPow63) ∧
    ∀ l ∈ b.upper, l.value ≠ .float Binary64.twoPow63

namespace Limits

variable {n : Nat} {limits : List Limits} {x k : List Value}

theorem IsExact.isSharp {b : Limits} (h : b.IsExact) : b.IsSharp :=
  ⟨fun l hl => Value.ne_twoPow63 (h.1 l hl), fun l hl => Value.ne_twoPow63 (h.2 l hl)⟩

/-- What is not above a key that is out of reach for the lower limits is below them. -/
theorem allowKey_of_reachBelow_eq_false (hl : ∀ b ∈ limits, b.IsSharp) (hx : IsKey n x)
    (hk : IsKey n k) (hle : (orderKeys x k).isLE) (h : reachBelow limits k = false) :
    allowKey limits x = false := by
  induction limits generalizing n x k with
  | nil => simp [reachBelow] at h
  | cons b bs ih =>
    obtain ⟨hb, hbs⟩ := List.forall_mem_cons.1 hl
    match n, x, k, hx, hk with
    | 0, _, [], _, _ => simp [reachBelow] at h
    | _, [], _ :: _, hx, hk => simp [allowKey]
    | n + 1, w :: x, v :: k, hx, hk =>
      cases hlow : b.lower with
      | none => simp [reachBelow, hlow] at h
      | some l =>
        have hle' : (w.order v).isLE := Ordering.isLE_left_of_isLE_then hle
        have hlex := hb.1 l (by simp [hlow])
        simp only [reachBelow, hlow] at h
        simp only [allowKey, allow, hlow, Option.all_some, Limit.allowsFromBelow]
        cases hvl : v.order l.value with
        | lt => simp [Value.order_lt_of_isLE_of_lt hx.head hk.head hle' hvl]
        | gt => simp [hvl] at h
        | eq =>
          have hwl := Value.order_isLE_trans_of_ne (Value.ne_twoPow63 hk.head) hle'
            (Value.isLE_of_order_eq hvl).1
          cases hwv : w.order l.value with
          | lt => simp
          | gt => simp [hwv] at hwl
          | eq =>
            obtain rfl := Value.eq_of_order_eq hk.head hx.head hlex hvl hwv
            simp only [orderKeys, hwv, Ordering.then, Value.order_self] at hle h
            cases hi : l.inclusive
            · simp
            · simp only [hi, Bool.true_and] at h
              simp [ih hbs hx.tail hk.tail hle h]

/-- What is not below a key that is out of reach for the upper limits is above them. -/
theorem allowKey_of_reachAbove_eq_false (hl : ∀ b ∈ limits, b.IsSharp) (hx : IsKey n x)
    (hk : IsKey n k) (hle : (orderKeys k x).isLE) (h : reachAbove limits k = false) :
    allowKey limits x = false := by
  induction limits generalizing n x k with
  | nil => simp [reachAbove] at h
  | cons b bs ih =>
    obtain ⟨hb, hbs⟩ := List.forall_mem_cons.1 hl
    match n, x, k, hx, hk with
    | 0, _, [], _, _ => simp [reachAbove] at h
    | _, [], _ :: _, hx, hk => simp [allowKey]
    | n + 1, w :: x, v :: k, hx, hk =>
      cases hup : b.upper with
      | none => simp [reachAbove, hup] at h
      | some l =>
        have hle' : (v.order w).isLE := Ordering.isLE_left_of_isLE_then hle
        have hlex := hb.2 l (by simp [hup])
        simp only [reachAbove, hup] at h
        simp only [allowKey, allow, hup, Option.all_some, Limit.allowsFromAbove]
        cases hvl : v.order l.value with
        | lt => simp [hvl] at h
        | gt =>
          have hlv : l.value.order v = .lt := by rw [← Value.order_swap, hvl]; rfl
          have hgt : w.order l.value = .gt := by
            rw [← Value.order_swap, Value.order_lt_of_lt_of_isLE hk.head hx.head hlv hle']
            rfl
          simp [hgt]
        | eq =>
          have hlw := Value.order_isLE_trans_of_ne (Value.ne_twoPow63 hk.head)
            (Value.isLE_of_order_eq hvl).2 hle'
          cases hwv : w.order l.value with
          | gt => simp
          | lt => rw [← Value.order_swap, hwv] at hlw; simp at hlw
          | eq =>
            obtain rfl := Value.eq_of_order_eq hk.head hx.head hlex hvl hwv
            simp only [orderKeys, hwv, Ordering.then, Value.order_self] at hle h
            cases hi : l.inclusive
            · simp
            · simp only [hi, Bool.true_and] at h
              simp [ih hbs hx.tail hk.tail hle h]

end Limits

namespace Tree

variable {n : Nat} {limits : List Limits} {t : Tree}

/-- A range scan gives the entries that the limits allow, in order. -/
theorem scan_eq (h : t.Ordered n) (hl : ∀ b ∈ limits, b.IsSharp) :
    t.scan limits = (t.toList.filter (Limits.allowKey limits ·.key)).map Entry.tid := by
  induction t with
  | leaf => rfl
  | node s l e r ihl ihr =>
    obtain ⟨hol, hor, he, hle, her⟩ := ordered_node.1 h
    have hleft : (if Limits.reachBelow limits e.key then l.scan limits else []) =
        (l.toList.filter (Limits.allowKey limits ·.key)).map Entry.tid := by
      split
      · exact ihl hol
      · next hreach =>
        rw [List.filter_eq_nil_iff.2]
        · rfl
        · intro x hx
          simp [Limits.allowKey_of_reachBelow_eq_false hl (hol.keys x hx) he (hle x hx)
            (by simpa using hreach)]
    have hright : (if Limits.reachAbove limits e.key then r.scan limits else []) =
        (r.toList.filter (Limits.allowKey limits ·.key)).map Entry.tid := by
      split
      · exact ihr hor
      · next hreach =>
        rw [List.filter_eq_nil_iff.2]
        · rfl
        · intro x hx
          simp [Limits.allowKey_of_reachAbove_eq_false hl (hor.keys x hx) he (her x hx)
            (by simpa using hreach)]
    rw [scan, hleft, hright, toList, List.filter_append, List.filter_cons]
    split <;> simp

theorem scanBackward_eq (limits : List Limits) (t : Tree) :
    t.scanBackward limits = (t.scan limits).reverse := by
  induction t with
  | leaf => rfl
  | node s l e r ihl ihr =>
    rw [scan, scanBackward, ihl, ihr]
    repeat' split
    all_goals simp

end Tree

/-! ### Bounds -/

namespace Limit

/-- A value of the key lies on the given side of the limit, or on it. -/
def allows (side : Ordering) (l : Limit) (v : Value) : Bool :=
  match v.order l.value with
  | .eq => l.inclusive
  | o => o = side

theorem allowsFromBelow_eq (l : Limit) (v : Value) : l.allowsFromBelow v = l.allows .gt v := by
  unfold allowsFromBelow allows
  cases v.order l.value <;> rfl

theorem allowsFromAbove_eq (l : Limit) (v : Value) : l.allowsFromAbove v = l.allows .lt v := by
  unfold allowsFromAbove allows
  cases v.order l.value <;> rfl

variable {S : Value → Prop} {side : Ordering} {best best' : Option Limit} {l b : Limit} {v : Value}

theorem allows_of_allows (hS : Value.Chained S) (hl : S l.value) (hb : S b.value) (hv : S v)
    (hside : side ≠ .eq) (hlb : l.value.order b.value = side) (h : l.allows side v) :
    b.allows side v := by
  unfold allows at *
  cases side with
  | eq => exact absurd rfl hside
  | lt =>
    have hvl : (v.order l.value).isLE := by
      cases hvl : v.order l.value <;> simp [hvl] at h ⊢
    simp [hS.lt_of_isLE_of_lt hv hl hb hvl hlb]
  | gt =>
    have hlv : (l.value.order v).isLE := by
      rw [← Value.order_swap]
      cases hvl : v.order l.value <;> simp [hvl] at h ⊢
    have hbl : b.value.order l.value = .lt := by rw [← Value.order_swap, hlb]; rfl
    have hvb : v.order b.value = .gt := by
      rw [← Value.order_swap, hS.lt_of_lt_of_isLE hb hl hv hbl hlv]; rfl
    simp [hvb]

theorem allows_tighten (hS : Value.Chained S) (hbest : ∀ b ∈ best, S b.value) (hl : S l.value)
    (hv : S v) (hside : side ≠ .eq) :
    (tighten side best l).allows side v ↔ (∀ b ∈ best, b.allows side v) ∧ l.allows side v := by
  cases best with
  | none => simp [tighten]
  | some b =>
    have hb : S b.value := hbest b rfl
    simp only [Option.mem_def, Option.some.injEq, forall_eq', tighten]
    by_cases hlb : l.value.order b.value = side
    · simp only [hlb, decide_true, Bool.true_or, if_true]
      exact ⟨fun h => ⟨allows_of_allows hS hl hb hv hside hlb h, h⟩, fun h => h.2⟩
    · by_cases heq : l.value.order b.value = .eq
      · have hval : v.order l.value = v.order b.value := hS.order_congr hv hl hb heq
        cases hi : l.inclusive
        · simp only [heq, decide_true, Bool.not_false, Bool.and_self, Bool.or_true, if_true]
          refine ⟨fun h => ⟨?_, h⟩, fun h => h.2⟩
          revert h
          unfold allows
          rw [hval]
          cases v.order b.value <;> simp [hi]
        · simp only [heq, hside.symm, decide_false, Bool.not_true, Bool.and_false, Bool.or_self,
            Bool.false_eq_true, if_false]
          refine ⟨fun h => ⟨h, ?_⟩, fun h => h.1⟩
          revert h
          unfold allows
          rw [hval]
          cases v.order b.value <;> simp [hi]
      · simp only [hlb, heq, decide_false, Bool.false_and, Bool.or_self, Bool.false_eq_true,
          if_false]
        have hbl : b.value.order l.value = side := by
          rw [← Value.order_swap]
          revert hlb heq hside
          cases l.value.order b.value <;> cases side <;> simp
        exact ⟨fun h => ⟨h, allows_of_allows hS hb hl hv hside hbl h⟩, fun h => h.1⟩

end Limit

/-- The value lies on the given side of the bound, or on it; no value does if the bound is
`NULL`. -/
def Bound.Respected (env : Env) (side : Ordering) (b : Bound) (v : Value) : Prop :=
  ∃ w, b.expr.worth env = some w ∧ w.isNull = false ∧ (⟨w, b.inclusive⟩ : Limit).allows side v

/-- The value is not `NULL` and respects all bounds. -/
structure ColumnRange.Respected (env : Env) (r : ColumnRange) (v : Value) : Prop where
  notNull : v.isNull = false
  lower : ∀ b ∈ r.lower, b.Respected env .gt v
  upper : ∀ b ∈ r.upper, b.Respected env .lt v

/-- The leading components of a key lie in the ranges. -/
def ColumnRange.AllRespected (env : Env) : List ColumnRange → List Value → Prop
  | [], _ => True
  | r :: rs, v :: vs => r.Respected env v ∧ AllRespected env rs vs
  | _ :: _, [] => False

/-- No bound of the range has a binary64 constant. -/
def ColumnRange.IsExact (r : ColumnRange) : Prop :=
  (∀ b ∈ r.lower, b.expr.isExact) ∧ ∀ b ∈ r.upper, b.expr.isExact

/-- What the bounds of the range are worth in the scope is exact. -/
def ColumnRange.IsExactIn (scope : Scope) (r : ColumnRange) : Prop :=
  ∀ b ∈ r.lower ++ r.upper, (b.expr.eval scope).toOption.all Value.isExact

instance (scope : Scope) (r : ColumnRange) : Decidable (r.IsExactIn scope) :=
  inferInstanceAs (Decidable (∀ _ ∈ _, _ = true))

section
variable {scope : Scope} {type : DataType} {side : Ordering}

theorem ColumnRange.IsExactIn.eval {r : ColumnRange} {b : Bound} {v : Value}
    (h : r.IsExactIn scope) (hb : b ∈ r.lower ++ r.upper) (hv : b.expr.eval scope = .ok v) :
    v.isExact := by
  have hall := h b hb
  rw [hv] at hall
  exact hall

theorem ColumnRange.IsExact.isExactIn {r : ColumnRange} (h : r.IsExact) (hs : scope.IsExact) :
    r.IsExactIn scope := by
  intro b hb
  have hexpr : b.expr.isExact := (List.mem_append.1 hb).elim (h.1 b) (h.2 b)
  rw [Option.all_eq_true]
  exact fun v hv => Expr.eval_isExact hexpr hs (Expr.toOption_eq_some.1 hv)

/-- No bound is worth the datum `2 ^ 63`, which is equal to integers that differ. -/
def KeyRange.IsSharp (scope : Scope) (r : KeyRange) : Prop :=
  ∀ c ∈ r.columns, ∀ b ∈ c.lower ++ c.upper, b.expr.eval scope ≠ .ok (.float Binary64.twoPow63)

theorem KeyRange.isSharp_of_isExact {r : KeyRange} (hs : scope.IsExact)
    (h : ∀ c ∈ r.columns, ∀ b ∈ c.lower ++ c.upper, b.expr.isExact) : r.IsSharp scope :=
  fun c hc b hb heval => Value.ne_twoPow63 (Expr.eval_isExact (h c hc b hb) hs heval) rfl

def Probe.IsSharp (scope : Scope) : Probe → Prop
  | range r => r.IsSharp scope
  | key _ => True

theorem Limit.value_of_tightestFrom {bs : List Bound} {best best' : Option Limit}
    (h : tightestFrom scope type side best bs = .ok (some best')) :
    ∀ l ∈ best', l ∈ best ∨ ∃ b ∈ bs, b.expr.eval scope = .ok l.value := by
  induction bs generalizing best with
  | nil => cases h; exact fun l hl => .inl hl
  | cons b bs ih =>
    obtain ⟨w, hw, h⟩ := Result.bind_eq_ok.1 h
    obtain ⟨-, -, h⟩ := Result.bind_eq_ok.1 h
    split at h
    · cases h
    · intro l hl
      rcases ih h l hl with hl | ⟨b', hb', heval⟩
      · obtain rfl := Option.some.inj hl
        unfold tighten
        split
        · exact .inr ⟨b, List.mem_cons_self, hw⟩
        · dsimp only
          split
          exacts [.inr ⟨b, List.mem_cons_self, hw⟩, .inl rfl]
      · exact .inr ⟨b', List.mem_cons_of_mem _ hb', heval⟩

/-- Where no bound is `NULL`, each column has its tightest limits. -/
theorem Limits.ofRanges_cons_eq_some {types : List DataType} {r : ColumnRange}
    {rs : List ColumnRange} {limits : List Limits}
    (h : ofRanges scope types (r :: rs) = .ok (some limits)) :
    ∃ L rest, limits = L :: rest ∧
      Limit.tightestFrom scope (types.headD .any) .gt none r.lower = .ok (some L.lower) ∧
      Limit.tightestFrom scope (types.headD .any) .lt none r.upper = .ok (some L.upper) ∧
      ofRanges scope types.tail rs = .ok (some rest) := by
  obtain ⟨lower, hlower, h⟩ := Result.bind_eq_ok.1 h
  obtain ⟨upper, hupper, h⟩ := Result.bind_eq_ok.1 h
  obtain ⟨rest, hrest, h⟩ := Result.bind_eq_ok.1 h
  match lower, upper, rest, h with
  | some lower, some upper, some rest, h =>
    cases h
    exact ⟨⟨lower, upper⟩, rest, rfl, hlower, hupper, hrest⟩

theorem Limits.value_of_ofRanges {types : List DataType} {rs : List ColumnRange}
    {limits : List Limits} (h : ofRanges scope types rs = .ok (some limits)) :
    ∀ L ∈ limits, ∀ l ∈ L.lower.toList ++ L.upper.toList,
      ∃ r ∈ rs, ∃ b ∈ r.lower ++ r.upper, b.expr.eval scope = .ok l.value := by
  induction rs generalizing types limits with
  | nil => cases h; simp
  | cons r rs ih =>
    obtain ⟨L, rest, rfl, hlower, hupper, hrest⟩ := ofRanges_cons_eq_some h
    refine List.forall_mem_cons.2 ⟨fun l hl => ⟨r, List.mem_cons_self, ?_⟩, fun L hL l hl => ?_⟩
    · rcases List.mem_append.1 hl with hl | hl
      · obtain ⟨b, hb, heval⟩ :=
          (Limit.value_of_tightestFrom hlower l (Option.mem_toList.1 hl)).resolve_left (by simp)
        exact ⟨b, List.mem_append_left _ hb, heval⟩
      · obtain ⟨b, hb, heval⟩ :=
          (Limit.value_of_tightestFrom hupper l (Option.mem_toList.1 hl)).resolve_left (by simp)
        exact ⟨b, List.mem_append_right _ hb, heval⟩
    · obtain ⟨r', hr', hb⟩ := ih hrest L hL l hl
      exact ⟨r', List.mem_cons_of_mem _ hr', hb⟩

/-- Evaluated bounds allow the values that respect all of them; a bound that is `NULL` ends the
evaluation, and no value respects it. -/
theorem Limit.tightestFrom_spec {S : Value → Prop} {bs : List Bound} {best : Option Limit}
    {o : Option (Option Limit)} (hS : Value.Chained S) (hside : side ≠ .eq)
    (hbs : ∀ b ∈ bs, ∀ w, b.expr.eval scope = .ok w → S w) (hbest : ∀ l ∈ best, S l.value)
    (h : tightestFrom scope type side best bs = .ok o) :
    (o = none → ∃ b ∈ bs, ∀ v, ¬ b.Respected scope.env side v) ∧
      ∀ best', o = some best' → (∀ l ∈ best', S l.value) ∧ ∀ v, S v →
        ((∀ l ∈ best', l.allows side v) ↔
          (∀ l ∈ best, l.allows side v) ∧ ∀ b ∈ bs, b.Respected scope.env side v) := by
  induction bs generalizing best with
  | nil =>
    cases h
    exact ⟨by simp, fun best' hb => by cases hb; exact ⟨hbest, by simp⟩⟩
  | cons b bs ih =>
    obtain ⟨hb, hbs⟩ := List.forall_mem_cons.1 hbs
    obtain ⟨w, hw, h⟩ := Result.bind_eq_ok.1 h
    obtain ⟨-, -, h⟩ := Result.bind_eq_ok.1 h
    have hwx := hb w hw
    have hworth := Expr.worth_of_eval hw
    have hresp (v : Value) : b.Respected scope.env side v ↔
        w.isNull = false ∧ (⟨w, b.inclusive⟩ : Limit).allows side v := by
      constructor
      · rintro ⟨w', hw', h⟩
        rw [hworth] at hw'
        cases hw'
        exact h
      · exact fun h => ⟨w, hworth, h⟩
    split at h
    · next hnull =>
      cases h
      exact ⟨fun _ => ⟨b, by simp, fun v hv => by simp [hnull] at hresp; exact hresp v hv⟩,
        by simp⟩
    · next hnull =>
      have htight : ∀ l ∈ some (tighten side best ⟨w, b.inclusive⟩), S l.value := by
        rintro l hl
        cases hl
        cases best with
        | none => exact hwx
        | some b' =>
          dsimp only [tighten]
          split
          exacts [hwx, hbest b' rfl]
      obtain ⟨hnone, hsome⟩ := ih hbs htight h
      refine ⟨fun ho => ?_, fun best' ho => ?_⟩
      · obtain ⟨b', hb', hno⟩ := hnone ho
        exact ⟨b', List.mem_cons_of_mem _ hb', hno⟩
      · refine ⟨(hsome best' ho).1, fun v hv => ?_⟩
        rw [(hsome best' ho).2 v hv]
        simp only [Option.mem_def, Option.some.injEq, forall_eq', List.forall_mem_cons]
        rw [Limit.allows_tighten hS hbest hwx hv hside, hresp v, and_assoc]
        simp [hnull]

/-- The limits of ranges allow the keys that lie in them, where the order is transitive among the
values of both. -/
theorem Limits.ofRanges_spec_in {S : Value → Prop} {types : List DataType} {rs : List ColumnRange}
    {o : Option (List Limits)} (hS : Value.Chained S)
    (hrs : ∀ r ∈ rs, ∀ b ∈ r.lower ++ r.upper, ∀ w, b.expr.eval scope = .ok w → S w)
    (h : ofRanges scope types rs = .ok o) :
    (o = none → ∀ key, ¬ ColumnRange.AllRespected scope.env rs key) ∧
      ∀ limits, o = some limits →
        (∀ b ∈ limits, (∀ l ∈ b.lower, S l.value) ∧ ∀ l ∈ b.upper, S l.value) ∧
        ∀ key : List Value, (∀ v ∈ key, S v) →
          (allowKey limits key ↔ ColumnRange.AllRespected scope.env rs key) := by
  induction rs generalizing types o with
  | nil =>
    cases h
    exact ⟨by simp, fun limits ho => by cases ho; simp [allowKey, ColumnRange.AllRespected]⟩
  | cons r rs ih =>
    obtain ⟨hr, hrs⟩ := List.forall_mem_cons.1 hrs
    obtain ⟨lower, hlower, h⟩ := Result.bind_eq_ok.1 h
    obtain ⟨upper, hupper, h⟩ := Result.bind_eq_ok.1 h
    obtain ⟨rest, hrest, h⟩ := Result.bind_eq_ok.1 h
    have hlow := Limit.tightestFrom_spec hS (by simp)
      (fun b hb => hr b (List.mem_append_left _ hb)) (by simp) hlower
    have hup := Limit.tightestFrom_spec hS (by simp)
      (fun b hb => hr b (List.mem_append_right _ hb)) (by simp) hupper
    have hre := ih hrs hrest
    -- an evaluation that was cut short is one of a bound that is `NULL`
    have hnone (hcut : lower = none ∨ upper = none ∨ rest = none) (key : List Value) :
        ¬ ColumnRange.AllRespected scope.env (r :: rs) key := by
      match key with
      | [] => exact id
      | v :: vs =>
        rintro ⟨hv, hvs⟩
        rcases hcut with hcut | hcut | hcut
        · obtain ⟨b, hb, hno⟩ := hlow.1 hcut
          exact hno v (hv.lower b hb)
        · obtain ⟨b, hb, hno⟩ := hup.1 hcut
          exact hno v (hv.upper b hb)
        · exact hre.1 hcut vs hvs
    match lower, upper, rest, h with
    | none, _, _, h => cases h; exact ⟨fun _ => hnone (.inl rfl), by simp⟩
    | some _, none, _, h => cases h; exact ⟨fun _ => hnone (.inr (.inl rfl)), by simp⟩
    | some _, some _, none, h => cases h; exact ⟨fun _ => hnone (.inr (.inr rfl)), by simp⟩
    | some lower, some upper, some rest, h =>
      cases h
      obtain ⟨hlx, hlow⟩ := hlow.2 lower rfl
      obtain ⟨hux, hup⟩ := hup.2 upper rfl
      obtain ⟨hrx, hre⟩ := hre.2 rest rfl
      refine ⟨by simp, fun limits ho => ?_⟩
      cases ho
      refine ⟨List.forall_mem_cons.2 ⟨⟨hlx, hux⟩, hrx⟩, fun key hkey => ?_⟩
      match key with
      | [] => simp [allowKey, ColumnRange.AllRespected]
      | v :: vs =>
        obtain ⟨hv, hvs⟩ := List.forall_mem_cons.1 hkey
        have hlv := hlow v hv
        have huv := hup v hv
        simp only [Option.mem_def, reduceCtorEq, false_imp_iff, implies_true, true_and] at hlv huv
        simp only [allowKey, allow, ColumnRange.AllRespected, Bool.and_eq_true, Bool.not_eq_true',
          Option.all_eq_true, Limit.allowsFromBelow_eq, Limit.allowsFromAbove_eq, hre vs hvs]
        constructor
        · rintro ⟨⟨⟨hn, hl⟩, hu⟩, hrest⟩
          exact ⟨⟨hn, hlv.1 hl, huv.1 hu⟩, hrest⟩
        · rintro ⟨⟨hn, hl, hu⟩, hrest⟩
          exact ⟨⟨⟨hn, hlv.2 hl⟩, huv.2 hu⟩, hrest⟩

theorem Limits.ofRanges_spec {types : List DataType} {rs : List ColumnRange}
    {o : Option (List Limits)} (hrs : ∀ r ∈ rs, r.IsExactIn scope)
    (h : ofRanges scope types rs = .ok o) :
    (o = none → ∀ key, ¬ ColumnRange.AllRespected scope.env rs key) ∧
      ∀ limits, o = some limits → (∀ b ∈ limits, b.IsExact) ∧
        ∀ key : List Value, (∀ v ∈ key, v.isExact) →
          (allowKey limits key ↔ ColumnRange.AllRespected scope.env rs key) :=
  ofRanges_spec_in Value.chained_isExact (fun r hr _ hb _ => (hrs r hr).eval hb) h

end

end RelPlan

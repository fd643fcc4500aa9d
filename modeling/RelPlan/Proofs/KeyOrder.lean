import RelPlan.Value

/-!
# The order of exact values

A value is exact if it is no binary64 datum.  On exact values the order is linear and calls two
values equal only if they are one value, so keys of exact values can be searched, sorted and
bucketed.  To be kept in order and found again, keys only need values among which the order is
transitive (`Value.Chained`).  `Value.order_swap` holds of all values.
-/

namespace RelPlan

theorem Binary64.order_swap (x y : Binary64) : (x.order y).swap = y.order x :=
  ((inferInstance : Std.OrientedOrd Int).eq_swap).symm

namespace Value

variable {a b c : Value}

/-- Not a binary64 datum. -/
def isExact : Value → Bool
  | float _ => false
  | _ => true

theorem order_swap (a b : Value) : (a.order b).swap = b.order a := by
  cases a <;> cases b <;> simp only [order, Ordering.swap_swap] <;>
    first
    | rfl
    | exact Binary64.order_swap _ _
    | exact Std.OrientedOrd.eq_swap.symm

theorem same_symm (a b : Value) : a.same b = b.same a := by
  simp only [same, ← order_swap a b]
  cases a.order b <;> rfl

theorem order_eq_iff (ha : a.isExact) (hb : b.isExact) : a.order b = .eq ↔ a = b := by
  cases a <;> cases b <;>
    simp_all [order, isExact, rank, Std.LawfulEqCmp.compare_eq_iff_eq, Int64.toInt_inj]

@[simp] theorem order_self (a : Value) : a.order a = .eq := by
  have h := order_swap a a
  cases h' : a.order a <;> simp_all

@[simp] theorem same_self (a : Value) : a.same a := by simp [same]

theorem rank_eq_of_order_eq (h : a.order b = .eq) : a.rank = b.rank := by
  cases a <;> cases b <;> simp_all [order, rank, Std.LawfulEqCmp.compare_eq_iff_eq]

theorem order_of_rank_ne (h : a.rank ≠ b.rank) : a.order b = compare a.rank b.rank := by
  cases a <;> cases b <;> first | rfl | exact absurd rfl h

theorem rank_le_of_isLE (h : (a.order b).isLE) : a.rank ≤ b.rank := by
  by_cases hr : a.rank = b.rank
  · omega
  · rw [order_of_rank_ne hr] at h
    exact Nat.isLE_compare.1 h

theorem order_isLE_trans (ha : a.isExact) (hb : b.isExact) (hc : c.isExact)
    (hab : (a.order b).isLE) (hbc : (b.order c).isLE) : (a.order c).isLE := by
  have h₁ := rank_le_of_isLE hab
  have h₂ := rank_le_of_isLE hbc
  by_cases hr : a.rank = c.rank
  · have hrb : a.rank = b.rank := by omega
    cases a <;> cases b <;> cases c <;> simp only [rank, isExact, reduceCtorEq] at * <;>
      first
      | exact Std.TransOrd.isLE_trans hab hbc
      | rfl
      | omega
  · rw [order_of_rank_ne hr]
    exact Nat.isLE_compare.2 (by omega)

theorem isLE_of_order_eq (h : a.order b = .eq) : (a.order b).isLE ∧ (b.order a).isLE := by
  rw [← order_swap a b, h]
  decide

/-- The order is transitive among these values. -/
def Chained (S : Value → Prop) : Prop :=
  ∀ a b c, S a → S b → S c → (a.order b).isLE → (b.order c).isLE → (a.order c).isLE

theorem chained_isExact : Chained (·.isExact) := fun _ _ _ ha hb hc => order_isLE_trans ha hb hc

section
variable {S : Value → Prop} (h : Chained S) (ha : S a) (hb : S b) (hc : S c)
include h ha hb hc

theorem Chained.lt_of_isLE_of_lt (hab : (a.order b).isLE) (hbc : b.order c = .lt) :
    a.order c = .lt := by
  have hac := h a b c ha hb hc hab (by simp [hbc])
  cases heq : a.order c with
  | lt => rfl
  | gt => simp [heq] at hac
  | eq =>
    have hcb := h c a b hc ha hb (isLE_of_order_eq heq).2 hab
    rw [← order_swap, hbc] at hcb
    exact absurd hcb (by simp)

theorem Chained.lt_of_lt_of_isLE (hab : a.order b = .lt) (hbc : (b.order c).isLE) :
    a.order c = .lt := by
  have hac := h a b c ha hb hc (by simp [hab]) hbc
  cases heq : a.order c with
  | lt => rfl
  | gt => simp [heq] at hac
  | eq =>
    have hba := h b c a hb hc ha hbc (isLE_of_order_eq heq).2
    rw [← order_swap, hab] at hba
    exact absurd hba (by simp)

theorem Chained.order_congr (hbc : b.order c = .eq) : a.order b = a.order c := by
  have hcb : c.order b = .eq := by rw [← order_swap, hbc]; rfl
  cases hab : a.order b with
  | lt => exact (h.lt_of_lt_of_isLE ha hb hc hab (isLE_of_order_eq hbc).1).symm
  | gt =>
    have hba : b.order a = .lt := by rw [← order_swap, hab]; rfl
    rw [← order_swap, h.lt_of_isLE_of_lt hc hb ha (isLE_of_order_eq hcb).1 hba]
    rfl
  | eq =>
    have hac := h a b c ha hb hc (isLE_of_order_eq hab).1 (isLE_of_order_eq hbc).1
    have hca := h c b a hc hb ha (isLE_of_order_eq hcb).1 (isLE_of_order_eq hab).2
    rw [← order_swap] at hca
    cases heq : a.order c <;> simp [heq] at hac hca ⊢

end

end Value

/-! ### Keys -/

/-- A key of `n` exact values. -/
structure IsKey (n : Nat) (k : List Value) : Prop where
  length : k.length = n
  exact : ∀ v ∈ k, v.isExact

/-- A key of `n` of these values. -/
structure IsKeyIn (S : Value → Prop) (n : Nat) (k : List Value) : Prop where
  length : k.length = n
  mem : ∀ v ∈ k, S v

namespace IsKeyIn

variable {S : Value → Prop} {n : Nat} {v : Value} {a : List Value}

theorem eq_nil (h : IsKeyIn S 0 a) : a = [] := List.length_eq_zero_iff.1 h.length

theorem head (h : IsKeyIn S n (v :: a)) : S v := h.mem v (by simp)

theorem tail (h : IsKeyIn S (n + 1) (v :: a)) : IsKeyIn S n a :=
  ⟨by simpa using h.length, fun w hw => h.mem w (by simp [hw])⟩

end IsKeyIn

theorem isKey_iff {n : Nat} {k : List Value} : IsKey n k ↔ IsKeyIn (·.isExact) n k :=
  ⟨fun ⟨hn, hx⟩ => ⟨hn, hx⟩, fun ⟨hn, hx⟩ => ⟨hn, hx⟩⟩

namespace IsKey

variable {n : Nat} {v : Value} {a : List Value}

theorem eq_nil (h : IsKey 0 a) : a = [] := (isKey_iff.1 h).eq_nil

theorem head (h : IsKey n (v :: a)) : v.isExact := (isKey_iff.1 h).head

theorem tail (h : IsKey (n + 1) (v :: a)) : IsKey n a := isKey_iff.2 (isKey_iff.1 h).tail

end IsKey

theorem orderKeys_swap : ∀ a b : List Value, (orderKeys a b).swap = orderKeys b a
  | v :: a, w :: b => by
    simp only [orderKeys, Ordering.swap_then, Value.order_swap, orderKeys_swap a b]
  | [], [] | [], _ :: _ | _ :: _, [] => rfl

section
variable {n : Nat} {a b c : List Value}

theorem orderKeys_lt_of_isLE_of_ne {a b : List Value} (hle : (orderKeys a b).isLE)
    (hne : orderKeys b a ≠ .eq) : orderKeys a b = .lt := by
  rw [← orderKeys_swap] at hne
  cases h : orderKeys a b <;> simp_all

theorem orderKeys_eq_iff (ha : IsKey n a) (hb : IsKey n b) : orderKeys a b = .eq ↔ a = b := by
  induction n generalizing a b with
  | zero => simp [ha.eq_nil, hb.eq_nil, orderKeys]
  | succ n ih =>
    match a, b, ha, hb with
    | v :: a, w :: b, ha, hb =>
      simp [orderKeys, Ordering.then_eq_eq, Value.order_eq_iff ha.head hb.head, ih ha.tail hb.tail]
    | [], _, ha, _ => exact absurd ha.length (by simp)
    | _ :: _, [], _, hb => exact absurd hb.length (by simp)

section
variable {S : Value → Prop} (hS : Value.Chained S) (ha : IsKeyIn S n a) (hb : IsKeyIn S n b)
  (hc : IsKeyIn S n c)
include hS ha hb hc

theorem orderKeys_isLE_trans_in (hab : (orderKeys a b).isLE) (hbc : (orderKeys b c).isLE) :
    (orderKeys a c).isLE := by
  induction n generalizing a b c with
  | zero => simp [ha.eq_nil, orderKeys]
  | succ n ih =>
    match a, b, c, ha, hb, hc with
    | u :: a, v :: b, w :: c, ha, hb, hc =>
      simp only [orderKeys] at hab hbc ⊢
      by_cases huw : u.order w = .eq
      · -- the middle one stands between equal ones, so it is equal to both
        rw [← hS.order_congr hb.head ha.head hc.head huw, ← Value.order_swap u v] at hbc
        rw [huw]
        cases huv : u.order v <;> simp [huv] at hab hbc
        exact ih ha.tail hb.tail hc.tail hab hbc
      · have huw' := hS u v w ha.head hb.head hc.head (Ordering.isLE_left_of_isLE_then hab)
          (Ordering.isLE_left_of_isLE_then hbc)
        cases h : u.order w <;> simp_all
    | [], _, _, ha, _, _ => exact absurd ha.length (by simp)
    | _ :: _, [], _, _, hb, _ => exact absurd hb.length (by simp)
    | _ :: _, _ :: _, [], _, _, hc => exact absurd hc.length (by simp)

theorem orderKeys_lt_of_lt_of_isLE_in (hab : orderKeys a b = .lt) (hbc : (orderKeys b c).isLE) :
    orderKeys a c = .lt := by
  have hac := orderKeys_isLE_trans_in hS ha hb hc (by simp [hab]) hbc
  cases h : orderKeys a c with
  | lt => rfl
  | gt => simp [h] at hac
  | eq =>
    have hca : (orderKeys c a).isLE := by rw [← orderKeys_swap, h]; rfl
    have hba := orderKeys_isLE_trans_in hS hb hc ha hbc hca
    rw [← orderKeys_swap, hab] at hba
    exact absurd hba (by simp)

end

theorem orderKeys_isLE_trans (ha : IsKey n a) (hb : IsKey n b) (hc : IsKey n c)
    (hab : (orderKeys a b).isLE) (hbc : (orderKeys b c).isLE) : (orderKeys a c).isLE :=
  orderKeys_isLE_trans_in Value.chained_isExact (isKey_iff.1 ha) (isKey_iff.1 hb) (isKey_iff.1 hc)
    hab hbc

@[simp] theorem orderKeys_self : ∀ a : List Value, orderKeys a a = .eq
  | [] => rfl
  | v :: a => by simp [orderKeys, orderKeys_self a]

theorem isLE_of_orderKeys_gt (h : orderKeys a b = .gt) : (orderKeys b a).isLE := by
  rw [← orderKeys_swap a b, h]; rfl

theorem orderKeys_lt_of_lt_of_isLE (ha : IsKey n a) (hb : IsKey n b) (hc : IsKey n c)
    (hab : orderKeys a b = .lt) (hbc : (orderKeys b c).isLE) : orderKeys a c = .lt :=
  orderKeys_lt_of_lt_of_isLE_in Value.chained_isExact (isKey_iff.1 ha) (isKey_iff.1 hb)
    (isKey_iff.1 hc) hab hbc

end

end RelPlan

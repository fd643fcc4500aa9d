import RelPlan.Proofs.KeyOrder
import RelPlan.Proofs.Rounding

/-!
# Where the order of values is an order

Two numbers compare by their places among the binary64 data first, an integer being rounded, and
then as integers where both are or stand for one (`Value.order_eq_then`).  So the order is total,
except that the datum `2 ^ 63`, which stands for no integer, is equal to each of the integers that
round to it while these differ (`Value.order_total`).
-/

namespace RelPlan

namespace Value

open Binary64

variable {a b c : Value}

/-- The place of a number among the binary64 data. -/
def place : Value → Int
  | int n => (ofInt n.toInt).orderKey
  | float x => x.orderKey
  | _ => 0

/-- The integer that a number is or stands for. -/
def integer? : Value → Option Int64
  | int n => some n
  | float x => x.toInt64?
  | _ => none

/-- The order of integers where there are any. -/
def orderIntegers : Option Int64 → Option Int64 → Ordering
  | some m, some n => compare m.toInt n.toInt
  | _, _ => .eq

theorem compare_then_of_mono {k l m n : Int} (h : m ≤ n → k ≤ l) (h' : n ≤ m → l ≤ k) :
    (compare k l).then (compare m n) = compare m n := by
  simp only [compare, compareOfLessAndEq]
  split_ifs <;> first | rfl | omega

theorem compare_place_int (m n : Int64) :
    (compare (ofInt m.toInt).orderKey (ofInt n.toInt).orderKey).then (compare m.toInt n.toInt) =
      compare m.toInt n.toInt :=
  compare_then_of_mono (orderKey_ofInt_le (inRange_toInt m) (inRange_toInt n))
    (orderKey_ofInt_le (inRange_toInt n) (inRange_toInt m))

theorem orderIntFloat_eq_then (n : Int64) (x : Binary64) :
    orderIntFloat n x = (compare (int n).place (float x).place).then
      (orderIntegers (int n).integer? (float x).integer?) := by
  unfold orderIntFloat
  simp only [place, integer?]
  cases hx : x.toInt64? with
  | none => simp [orderIntegers, Binary64.order]
  | some m =>
    rw [← ofInt_of_toInt64? hx]
    exact (compare_place_int n m).symm

theorem orderIntegers_swap : ∀ m n, (orderIntegers m n).swap = orderIntegers n m
  | some _, some _ => Std.OrientedOrd.eq_swap.symm
  | none, none | none, some _ | some _, none => rfl

/-- Numbers compare by their places first and then as integers. -/
theorem order_eq_then (ha : a.rank = 2) (hb : b.rank = 2) :
    a.order b = (compare a.place b.place).then (orderIntegers a.integer? b.integer?) := by
  cases a <;> cases b <;> simp only [rank, Nat.reduceEqDiff] at ha hb
  case int.int m n => exact (compare_place_int m n).symm
  case int.float n x => exact orderIntFloat_eq_then n x
  case float.int x n =>
    rw [order, orderIntFloat_eq_then, Ordering.swap_then, orderIntegers_swap]
    exact congrArg (Ordering.then · _) Std.OrientedOrd.eq_swap.symm
  case float.float x y =>
    simp only [order, Binary64.order, place, integer?]
    cases h : compare x.orderKey y.orderKey
    case eq =>
      rw [orderKey_inj (Std.LawfulEqCmp.compare_eq_iff_eq.1 h)]
      cases y.toInt64? <;> simp [orderIntegers]
    all_goals rfl

/-- The middle one is the datum `2 ^ 63`, and the outer ones are integers that round to it, in the
wrong order. -/
def Straddles (a b c : Value) : Prop :=
  ∃ m n : Int64, a = int m ∧ b = float twoPow63 ∧ c = int n ∧
    0x7ffffffffffffe00 ≤ n.toInt ∧ n.toInt < m.toInt

theorem order_twoPow63 {n : Int64} (h : 0x7ffffffffffffe00 ≤ n.toInt) :
    (int n).order (float twoPow63) = .eq := by
  have hnone : twoPow63.toInt64? = none := by decide
  simp only [order, orderIntFloat, hnone, (ofInt_eq_twoPow63 (inRange_toInt n)).2 h]
  rfl

theorem eq_int_of_place_eq {x : Binary64} {n : Int64} (hx : x.toInt64? = none)
    (hn : a.integer? = some n) (h : a.place = (float x).place) :
    a = int n ∧ ofInt n.toInt = x := by
  cases a with
  | int m =>
    obtain rfl := Option.some.inj hn
    exact ⟨rfl, orderKey_inj h⟩
  | float y =>
    obtain rfl := orderKey_inj h
    rw [show y.toInt64? = some n from hn] at hx
    cases hx
  | _ => cases hn

/-- Numbers in order one after the other stay in order, unless the middle one has no integer. -/
theorem straddles_of_rank_eq (ha : a.rank = 2) (hb : b.rank = 2) (hc : c.rank = 2)
    (hab : (a.order b).isLE) (hbc : (b.order c).isLE) (hac : ¬ (a.order c).isLE) :
    Straddles a b c := by
  rw [order_eq_then ha hb] at hab
  rw [order_eq_then hb hc] at hbc
  rw [order_eq_then ha hc] at hac
  have hpab : a.place ≤ b.place := Int.isLE_compare.1 (Ordering.isLE_left_of_isLE_then hab)
  have hpbc : b.place ≤ c.place := Int.isLE_compare.1 (Ordering.isLE_left_of_isLE_then hbc)
  have hpac : c.place ≤ a.place := by
    by_contra hlt
    rw [show compare a.place c.place = .lt from Int.compare_eq_lt.2 (by omega)] at hac
    exact hac rfl
  -- all three are in one place, so the integers decide
  have hpa : a.place = b.place := by omega
  have hpc : c.place = b.place := by omega
  simp only [hpa, hpc, Std.ReflCmp.compare_self, Ordering.eq_then] at hab hbc hac
  match hia : a.integer?, hib : b.integer?, hic : c.integer? with
  | some m, none, some n =>
    rw [hia, hic] at hac
    match b, hib with
    | float x, hib =>
      obtain ⟨rfl, rfl⟩ := eq_int_of_place_eq hib hia hpa
      obtain ⟨rfl, hn⟩ := eq_int_of_place_eq hib hic hpc
      have hedge := (toInt64?_ofInt_eq_none (inRange_toInt m)).1 hib
      refine ⟨m, n, rfl, by rw [hedge], rfl,
        (ofInt_eq_twoPow63 (inRange_toInt n)).1 (hn.trans hedge), ?_⟩
      exact Int.not_le.1 fun hle => hac (Int.isLE_compare.2 hle)
  | some m, some k, some n =>
    rw [hia, hib] at hab
    rw [hib, hic] at hbc
    rw [hia, hic] at hac
    exact absurd (Std.TransOrd.isLE_trans hab hbc) hac
  | none, _, _ => rw [hia] at hac; exact absurd rfl hac
  | some _, _, none => rw [hia, hic] at hac; exact absurd rfl hac

theorem Straddles.order (h : Straddles a b c) :
    a.order b = .eq ∧ b.order c = .eq ∧ a.order c = .gt := by
  obtain ⟨m, n, rfl, rfl, rfl, hn, hnm⟩ := h
  refine ⟨order_twoPow63 (by omega), ?_, Int.compare_eq_gt.2 hnm⟩
  rw [← order_swap, order_twoPow63 hn]
  rfl

theorem isExact_of_rank_ne (h : a.rank ≠ 2) : a.isExact := by
  cases a <;> first | rfl | exact absurd rfl h

theorem not_trans_iff (a b c : Value) :
    (a.order b).isLE ∧ (b.order c).isLE ∧ ¬ (a.order c).isLE ↔ Straddles a b c := by
  constructor
  · rintro ⟨hab, hbc, hac⟩
    have hca : (c.order a).isLE := by
      rw [← order_swap a c]
      cases h : a.order c <;> simp_all
    have hrab := rank_le_of_isLE hab
    have hrbc := rank_le_of_isLE hbc
    have hrca := rank_le_of_isLE hca
    by_cases ha : a.rank = 2
    · exact straddles_of_rank_eq ha (by omega) (by omega) hab hbc hac
    · exact absurd (order_isLE_trans (isExact_of_rank_ne ha) (isExact_of_rank_ne (by omega))
        (isExact_of_rank_ne (by omega)) hab hbc) hac
  · intro h
    obtain ⟨hab, hbc, hac⟩ := h.order
    simp [hab, hbc, hac]

/-- The order of values is total but for the datum `2 ^ 63`: turned around it is the reverse, it is
transitive exactly where no integers straddle that datum, and so is being equal. -/
theorem order_total (a b c : Value) :
    (a.order b).swap = b.order a ∧
      ((a.order b).isLE ∧ (b.order c).isLE ∧ ¬ (a.order c).isLE ↔ Straddles a b c) ∧
      (a.order b = .eq ∧ b.order c = .eq ∧ a.order c ≠ .eq ↔
        Straddles a b c ∨ Straddles c b a) := by
  refine ⟨order_swap a b, not_trans_iff a b c, ?_⟩
  constructor
  · rintro ⟨hab, hbc, hac⟩
    have hba : b.order a = .eq := by rw [← order_swap, hab]; rfl
    have hcb : c.order b = .eq := by rw [← order_swap, hbc]; rfl
    cases h : a.order c with
    | eq => exact absurd h hac
    | gt => exact .inl ((not_trans_iff a b c).1 (by simp [hab, hbc, h]))
    | lt =>
      have hca : c.order a = .gt := by rw [← order_swap, h]; rfl
      exact .inr ((not_trans_iff c b a).1 (by simp [hcb, hba, hca]))
  · rintro (h | h)
    · obtain ⟨hab, hbc, hac⟩ := h.order
      simp [hab, hbc, hac]
    · obtain ⟨hcb, hba, hca⟩ := h.order
      rw [← order_swap, ← order_swap c b, ← order_swap c a, hcb, hba, hca]
      decide

/-- The two greatest integers are both equal to the datum `2 ^ 63`, and not to each other. -/
theorem order_not_transitive :
    ¬ ∀ a b c : Value, (a.order b).swap = b.order a ∧
      ((a.order b).isLE → (b.order c).isLE → (a.order c).isLE) := by
  intro h
  have h := (h (int 9223372036854775807) (float twoPow63) (int 9223372036854775806)).2
  exact absurd (h (by decide) (by decide)) (by decide)

end Value

end RelPlan

import Mathlib.Algebra.Group.Nat.Defs
import Mathlib.Data.Nat.Log
import RelPlan.Binary64

/-!
# Integers as binary64 data

The nearest datum rises with the integer (`orderKey_ofInt_le`), an integral datum in range is the
nearest one to the integer it stands for (`ofInt_of_toInt64?`), and the nearest datum to a 64-bit
integer stands for some integer in range unless it is `2 ^ 63` (`toInt64?_ofInt_eq_none`).
-/

namespace RelPlan.Binary64

variable {m n k : Nat} {x y : Binary64}

/-- The datum `2 ^ 63`, the least one above every 64-bit integer. -/
def twoPow63 : Binary64 := ⟨0x43e0000000000000⟩

theorem roundShift_bounds (n k : Nat) :
    n / 2 ^ k ≤ roundShift n k ∧ roundShift n k ≤ n / 2 ^ k + 1 := by
  unfold roundShift
  simp only [Nat.pow_eq]
  split_ifs <;> omega

theorem roundShift_mono (h : m ≤ n) : roundShift m k ≤ roundShift n k := by
  have hq : m / 2 ^ k ≤ n / 2 ^ k := Nat.div_le_div_right h
  have hm := roundShift_bounds m k
  have hn := roundShift_bounds n k
  rcases Nat.lt_or_eq_of_le hq with hlt | heq
  · omega
  · have hr : m % 2 ^ k ≤ n % 2 ^ k := by
      have hm := Nat.div_add_mod m (2 ^ k)
      have hn := Nat.div_add_mod n (2 ^ k)
      rw [heq] at hm
      omega
    unfold roundShift
    simp only [Nat.pow_eq, heq]
    split_ifs <;> omega

theorem roundShift_mul (m k : Nat) : roundShift (m * 2 ^ k) k = m := by
  have hpos : 0 < 2 ^ k := Nat.two_pow_pos k
  unfold roundShift
  simp [Nat.pow_eq, Nat.mul_div_cancel _ hpos]

/-- The significand, with its leading bit, that `bitsOfNat` computes. -/
def roundedSignificand (n : Nat) : Nat :=
  if n.log2 ≤ 52 then n * 2 ^ (52 - n.log2) else roundShift n (n.log2 - 52)

theorem bitsOfNat_of_pos (hn : 0 < n) :
    bitsOfNat n = (n.log2 + 1022) * 0x10000000000000 + roundedSignificand n := by
  unfold bitsOfNat roundedSignificand
  rw [if_neg (by omega)]
  rfl

theorem log2_bounds (hn : 0 < n) : 2 ^ n.log2 ≤ n ∧ n < 2 ^ (n.log2 + 1) :=
  ⟨Nat.log2_self_le (by omega), Nat.lt_log2_self⟩

/-- Rounding up may carry the significand to `2 ^ 53`. -/
theorem roundedSignificand_bounds (hn : 0 < n) :
    0x10000000000000 ≤ roundedSignificand n ∧ roundedSignificand n ≤ 0x20000000000000 := by
  obtain ⟨hlo, hhi⟩ := log2_bounds hn
  unfold roundedSignificand
  split_ifs with h
  · have hpow : (2 ^ n.log2) * 2 ^ (52 - n.log2) = 0x10000000000000 := by
      rw [← Nat.pow_add, show n.log2 + (52 - n.log2) = 52 by omega]
    rw [Nat.pow_succ] at hhi
    constructor
    · exact hpow ▸ Nat.mul_le_mul_right _ hlo
    · calc n * 2 ^ (52 - n.log2)
        _ ≤ 2 ^ n.log2 * 2 * 2 ^ (52 - n.log2) := Nat.mul_le_mul_right _ (by omega)
        _ = 0x20000000000000 := by rw [Nat.mul_right_comm, hpow]
  · have hround := roundShift_bounds n (n.log2 - 52)
    have hpow : 2 ^ n.log2 = 0x10000000000000 * 2 ^ (n.log2 - 52) := by
      rw [show (0x10000000000000 : Nat) = 2 ^ 52 from rfl, ← Nat.pow_add,
        show 52 + (n.log2 - 52) = n.log2 by omega]
    have hpos := Nat.two_pow_pos (n.log2 - 52)
    have hlow : 0x10000000000000 ≤ n / 2 ^ (n.log2 - 52) :=
      (Nat.le_div_iff_mul_le hpos).2 (hpow ▸ hlo)
    have hhigh : n / 2 ^ (n.log2 - 52) < 0x20000000000000 := by
      rw [Nat.div_lt_iff_lt_mul hpos]
      calc n < 2 ^ n.log2 * 2 := hhi
        _ = 0x20000000000000 * 2 ^ (n.log2 - 52) := by rw [hpow]; omega
    omega

theorem roundedSignificand_mono (h : m ≤ n) (hlog : m.log2 = n.log2) :
    roundedSignificand m ≤ roundedSignificand n := by
  unfold roundedSignificand
  rw [hlog]
  split_ifs
  exacts [Nat.mul_le_mul_right _ h, roundShift_mono h]

theorem log2_mono (hm : 0 < m) (h : m ≤ n) : m.log2 ≤ n.log2 :=
  (Nat.le_log2 (by omega)).2 (Nat.le_trans (log2_bounds hm).1 h)

theorem bitsOfNat_mono (h : m ≤ n) : bitsOfNat m ≤ bitsOfNat n := by
  rcases Nat.eq_zero_or_pos m with rfl | hm
  · simp [bitsOfNat]
  · have hn : 0 < n := Nat.lt_of_lt_of_le hm h
    have hsm := roundedSignificand_bounds hm
    have hsn := roundedSignificand_bounds hn
    rw [bitsOfNat_of_pos hm, bitsOfNat_of_pos hn]
    rcases Nat.lt_or_eq_of_le (log2_mono hm h) with hlt | heq
    · omega
    · have := roundedSignificand_mono h heq
      omega

theorem bitsOfNat_le (h : n ≤ 0x8000000000000000) : bitsOfNat n ≤ 0x43e0000000000000 :=
  Nat.le_trans (bitsOfNat_mono h) (by decide)

/-! ### The datum nearest to an integer -/

/-- The integers that fit into 64 bits. -/
def InRange (n : Int) : Prop := -0x8000000000000000 ≤ n ∧ n < 0x8000000000000000

theorem inRange_toInt (n : Int64) : InRange n.toInt := ⟨Int64.le_toInt n, Int64.toInt_lt n⟩

theorem toNat_ofInt {n : Int} (h : InRange n) :
    (ofInt n).bits.toNat =
      if n < 0 then 0x8000000000000000 + bitsOfNat n.natAbs else bitsOfNat n.natAbs := by
  have hle := bitsOfNat_le (n := n.natAbs) (by obtain ⟨_, _⟩ := h; omega)
  unfold ofInt
  split_ifs <;> exact Nat.mod_eq_of_lt (by omega)

theorem orderKey_ofInt {n : Int} (h : InRange n) :
    (ofInt n).orderKey = if n < 0 then -1 - (bitsOfNat n.natAbs : Int) else bitsOfNat n.natAbs := by
  have hle := bitsOfNat_le (n := n.natAbs) (by obtain ⟨_, _⟩ := h; omega)
  unfold orderKey
  rw [toNat_ofInt h]
  split_ifs <;> omega

theorem orderKey_ofInt_le {m n : Int} (hm : InRange m) (hn : InRange n) (h : m ≤ n) :
    (ofInt m).orderKey ≤ (ofInt n).orderKey := by
  rw [orderKey_ofInt hm, orderKey_ofInt hn]
  split_ifs with hm0 hn0 hn0
  · have := bitsOfNat_mono (m := n.natAbs) (n := m.natAbs) (by omega)
    omega
  · omega
  · omega
  · have := bitsOfNat_mono (m := m.natAbs) (n := n.natAbs) (by omega)
    omega

theorem orderKey_inj (h : x.orderKey = y.orderKey) : x = y := by
  obtain ⟨x⟩ := x
  obtain ⟨y⟩ := y
  have hx := x.toNat_lt
  have hy := y.toNat_lt
  have hbits : x.toNat = y.toNat := by
    unfold orderKey at h
    simp only at h
    split_ifs at h <;> omega
  rw [UInt64.toNat_inj.1 hbits]

/-! ### The integer that a datum stands for -/

theorem fields_lt (x : Binary64) : x.exponentField < 2048 ∧ x.fractionField < 0x10000000000000 :=
  ⟨Nat.mod_lt _ (by decide), Nat.mod_lt _ (by decide)⟩

theorem toNat_mod_eq (x : Binary64) :
    x.bits.toNat % 0x8000000000000000 = x.exponentField * 0x10000000000000 + x.fractionField := by
  unfold exponentField fractionField
  omega

theorem integralMagnitude?_of_le (h : 1075 ≤ x.exponentField) :
    x.integralMagnitude? = some (x.significand * 2 ^ (x.exponentField - 1075)) := by
  have hexp : x.exponent = .ofNat (x.exponentField - 1075) := by
    unfold exponent
    simp only [Int.ofNat_eq_natCast]
    omega
  unfold integralMagnitude?
  simp only [hexp, Nat.pow_eq]

theorem integralMagnitude?_of_lt (h : x.exponentField < 1075) {k : Nat}
    (hk : k = 1075 - max x.exponentField 1) :
    x.integralMagnitude? =
      if x.significand % 2 ^ k = 0 then some (x.significand / 2 ^ k) else none := by
  have hexp : x.exponent = .negSucc (k - 1) := by
    unfold exponent
    omega
  unfold integralMagnitude?
  rw [hexp]
  simp only [Nat.pow_eq, show k - 1 + 1 = k by omega]

theorem log2_eq {t : Nat} (hlo : 2 ^ t ≤ n) (hhi : n < 2 ^ (t + 1)) : n.log2 = t :=
  (Nat.log2_eq_iff (by have := Nat.two_pow_pos t; omega)).2 ⟨hlo, hhi⟩

theorem bitsOfNat_mul (hlo : 0x10000000000000 ≤ m) (hhi : m < 0x20000000000000) (k : Nat) :
    bitsOfNat (m * 2 ^ k) = (k + 1074) * 0x10000000000000 + m := by
  have hpos := Nat.two_pow_pos k
  have hlog : (m * 2 ^ k).log2 = 52 + k := by
    refine log2_eq ?_ ?_
    · rw [Nat.pow_add]
      exact Nat.mul_le_mul_right _ hlo
    · rw [show 52 + k + 1 = 53 + k by omega, Nat.pow_add]
      exact Nat.mul_lt_mul_of_pos_right hhi hpos
  have hs : roundedSignificand (m * 2 ^ k) = m := by
    unfold roundedSignificand
    rw [hlog]
    split_ifs with h
    · obtain rfl : k = 0 := by omega
      simp
    · rw [show 52 + k - 52 = k by omega, roundShift_mul]
  rw [bitsOfNat_of_pos (Nat.mul_pos (by omega) hpos), hlog, hs]
  omega

theorem bitsOfNat_of_mul_eq (hlo : 0x10000000000000 ≤ m) (hhi : m < 0x20000000000000)
    (hm : n * 2 ^ k = m) (hk : k ≤ 52) :
    bitsOfNat n = (1074 - k) * 0x10000000000000 + m := by
  have hpos := Nat.two_pow_pos k
  have hlog : n.log2 = 52 - k := by
    refine log2_eq (Nat.le_of_mul_le_mul_right ?_ hpos) (Nat.lt_of_mul_lt_mul_right (a := 2 ^ k) ?_)
    · rw [← Nat.pow_add, show 52 - k + k = 52 by omega, hm]
      exact hlo
    · rw [← Nat.pow_add, show 52 - k + 1 + k = 53 by omega, hm]
      exact hhi
  have hn : 0 < n := Nat.pos_of_ne_zero fun h => by simp [h] at hm; omega
  have hs : roundedSignificand n = m := by
    unfold roundedSignificand
    rw [hlog, if_pos (by omega), show 52 - (52 - k) = k by omega, hm]
  rw [bitsOfNat_of_pos hn, hlog, hs]
  omega

theorem significand_of_ne (h : x.exponentField ≠ 0) :
    x.significand = 0x10000000000000 + x.fractionField := if_neg h

theorem bitsOfNat_of_integralMagnitude? (h : x.integralMagnitude? = some n) :
    bitsOfNat n = x.bits.toNat % 0x8000000000000000 := by
  obtain ⟨-, hfrac⟩ := x.fields_lt
  rw [toNat_mod_eq]
  rcases Nat.lt_or_ge x.exponentField 1075 with hlt | hge
  · rw [integralMagnitude?_of_lt hlt rfl] at h
    split_ifs at h with hmod
    cases h
    generalize hk : 1075 - max x.exponentField 1 = k at *
    have hmul : x.significand / 2 ^ k * 2 ^ k = x.significand := Nat.div_mul_cancel
      (Nat.dvd_of_mod_eq_zero hmod)
    by_cases h0 : x.exponentField = 0
    · -- the only integer below the normal data is zero
      have hs : x.significand = x.fractionField := if_pos h0
      have hpow : 2 ^ 52 ≤ 2 ^ k := Nat.pow_le_pow_right (by decide) (by omega)
      rw [hs, Nat.mod_eq_of_lt (by omega)] at hmod
      simp [bitsOfNat, hs, hmod, h0]
    · have hs := significand_of_ne h0
      have hk52 : k ≤ 52 := by
        by_contra hgt
        have hpow : 2 ^ 53 ≤ 2 ^ k := Nat.pow_le_pow_right (by decide) (by omega)
        have hle := Nat.le_of_dvd (by omega) (Nat.dvd_of_mod_eq_zero hmod)
        omega
      rw [bitsOfNat_of_mul_eq (by omega) (by omega) hmul hk52]
      omega
  · rw [integralMagnitude?_of_le hge] at h
    obtain rfl := Option.some.inj h
    have hs := significand_of_ne (x := x) (by omega)
    rw [bitsOfNat_mul (by omega) (by omega)]
    omega

theorem toInt64?_eq_some {n : Int64} (h : x.toInt64? = some n) :
    ∃ m, x.integralMagnitude? = some m ∧
      if x.isNegative then m ≠ 0 ∧ n.toInt = -(m : Int) else n.toInt = m := by
  unfold toInt64? at h
  split at h
  · cases hm : x.integralMagnitude? with
    | none => simp [hm] at h
    | some m =>
      simp only [hm] at h
      refine ⟨m, rfl, ?_⟩
      split_ifs at h ⊢ with hneg hrange hrange
      · obtain rfl := Option.some.inj h
        exact ⟨hrange.1, Int64.toInt_ofInt_of_le (by omega) (by omega)⟩
      · obtain rfl := Option.some.inj h
        exact Int64.toInt_ofInt_of_le (by omega) (by omega)
  · cases h

theorem ofInt_of_toInt64? {n : Int64} (h : x.toInt64? = some n) : ofInt n.toInt = x := by
  obtain ⟨m, hm, hn⟩ := toInt64?_eq_some h
  have hword := bitsOfNat_of_integralMagnitude? hm
  have hx := x.bits.toNat_lt
  have hbits : (ofInt n.toInt).bits.toNat = x.bits.toNat := by
    rw [toNat_ofInt (inRange_toInt n)]
    split_ifs at hn with hneg
    · rw [hn.2, if_pos (by omega), Int.natAbs_neg, Int.natAbs_natCast, hword]
      simp only [isNegative, decide_eq_true_eq] at hneg
      omega
    · rw [hn, if_neg (by omega), Int.natAbs_natCast, hword]
      simp only [isNegative, decide_eq_true_eq] at hneg
      omega
  exact congrArg mk (UInt64.toNat_inj.1 hbits)

/-- The nearest datum to a number is integral. -/
theorem integralMagnitude?_isSome (hn : 0 < n)
    (hx : x.bits.toNat % 0x8000000000000000 = bitsOfNat n) : x.integralMagnitude?.isSome := by
  obtain ⟨-, hfrac⟩ := x.fields_lt
  obtain ⟨hlo, hhi⟩ := roundedSignificand_bounds hn
  rw [toNat_mod_eq, bitsOfNat_of_pos hn] at hx
  rcases Nat.lt_or_ge n.log2 52 with hlt | hge
  · have hs : roundedSignificand n = n * 2 ^ (52 - n.log2) := if_pos (by omega)
    have hfull : roundedSignificand n < 0x20000000000000 := by
      calc roundedSignificand n
        _ < 2 ^ (n.log2 + 1) * 2 ^ (52 - n.log2) :=
          hs ▸ Nat.mul_lt_mul_of_pos_right (log2_bounds hn).2 (Nat.two_pow_pos _)
        _ = 0x20000000000000 := by
          rw [← Nat.pow_add, show n.log2 + 1 + (52 - n.log2) = 53 by omega]
    have hexp : x.exponentField = n.log2 + 1023 := by omega
    have hsig : x.significand = n * 2 ^ (52 - n.log2) := by
      rw [significand_of_ne (by omega), ← hs]
      omega
    rw [integralMagnitude?_of_lt (by omega) (show 52 - n.log2 = _ by omega), hsig,
      if_pos (Nat.mul_mod_left n _)]
    rfl
  · rw [integralMagnitude?_of_le (by omega)]
    rfl

theorem natAbs_le {n : Int} (h : InRange n) : n.natAbs ≤ 0x8000000000000000 := by
  obtain ⟨_, _⟩ := h
  omega

theorem toNat_ofInt_mod {n : Int} (h : InRange n) :
    (ofInt n).bits.toNat % 0x8000000000000000 = bitsOfNat n.natAbs := by
  have hle := bitsOfNat_le (natAbs_le h)
  rw [toNat_ofInt h]
  split_ifs <;> omega

theorem isNegative_ofInt {n : Int} (h : InRange n) : (ofInt n).isNegative = decide (n < 0) := by
  have hle := bitsOfNat_le (natAbs_le h)
  unfold isNegative
  rw [toNat_ofInt h]
  split_ifs <;> simp <;> omega

/-- The magnitude of the nearest datum leaves the range only by rounding up to `2 ^ 63`. -/
theorem magnitude_bounds {n : Int} (h : InRange n) (h0 : n ≠ 0)
    (hm : (ofInt n).integralMagnitude? = some m) :
    m ≠ 0 ∧ m ≤ 0x8000000000000000 ∧ (n < 0x7ffffffffffffe00 → 0 < n → m < 0x8000000000000000) := by
  have hbits : bitsOfNat m = bitsOfNat n.natAbs :=
    (bitsOfNat_of_integralMagnitude? hm).trans (toNat_ofInt_mod h)
  have hpos : 0 < n.natAbs := by omega
  have hmin := bitsOfNat_of_pos hpos
  have hle := bitsOfNat_le (natAbs_le h)
  have htop : bitsOfNat 0x8000000000000000 = 0x43e0000000000000 := by decide
  refine ⟨?_, ?_, fun hn hn0 => ?_⟩
  · rintro rfl
    have := (roundedSignificand_bounds hpos).1
    rw [show bitsOfNat 0 = 0 from rfl] at hbits
    omega
  · by_contra hgt
    -- the bits are those of `2 ^ 63`, so this is the magnitude
    have hge := bitsOfNat_mono (m := 0x8000000000000000) (n := m) (by omega)
    have hx := toNat_ofInt_mod h
    have hfields := toNat_mod_eq (ofInt n)
    have hfrac := (ofInt n).fields_lt
    have hexp : (ofInt n).exponentField = 1086 := by omega
    rw [integralMagnitude?_of_le (by omega), significand_of_ne (by omega), hexp,
      show (ofInt n).fractionField = 0 by omega] at hm
    simp only [Option.some.injEq] at hm
    omega
  · by_contra hge
    have hge := bitsOfNat_mono (m := 0x8000000000000000) (n := m) (by omega)
    have hlt := bitsOfNat_mono (m := n.natAbs) (n := 0x7ffffffffffffdff) (by omega)
    rw [show bitsOfNat 0x7ffffffffffffdff = 0x43dfffffffffffff by decide] at hlt
    omega

/-- The nearest datum to a 64-bit integer stands for an integer, unless it lies above them all. -/
theorem toInt64?_ofInt_isSome {n : Int} (h : InRange n) (hn : n < 0x7ffffffffffffe00) :
    (ofInt n).toInt64?.isSome := by
  by_cases h0 : n = 0
  · subst h0
    decide +kernel
  · have hpos : 0 < n.natAbs := by omega
    have hword := toNat_ofInt_mod h
    obtain ⟨m, hm⟩ := Option.isSome_iff_exists.1 (integralMagnitude?_isSome hpos hword)
    obtain ⟨hm0, hmle, hmlt⟩ := magnitude_bounds h h0 hm
    have hfin : (ofInt n).isFinite := by
      have hle := bitsOfNat_le (natAbs_le h)
      have := toNat_mod_eq (ofInt n)
      have := (ofInt n).fields_lt
      simp only [isFinite, decide_eq_true_eq]
      omega
    unfold toInt64?
    rw [if_pos hfin]
    simp only [hm, isNegative_ofInt h, decide_eq_true_eq]
    split_ifs with hneg <;> first | rfl | omega

theorem ofInt_eq_twoPow63 {n : Int} (h : InRange n) :
    ofInt n = twoPow63 ↔ 0x7ffffffffffffe00 ≤ n := by
  constructor
  · intro heq
    by_contra hlt
    have hsome := toInt64?_ofInt_isSome h (by omega)
    rw [heq] at hsome
    exact absurd hsome (by decide)
  · intro hle
    have hmin := bitsOfNat_mono (m := 0x7ffffffffffffe00) (n := n.natAbs) (by omega)
    rw [show bitsOfNat 0x7ffffffffffffe00 = 0x43e0000000000000 by decide] at hmin
    have hmax := bitsOfNat_le (natAbs_le h)
    refine orderKey_inj ?_
    rw [orderKey_ofInt h, if_neg (by omega),
      show twoPow63.orderKey = 0x43e0000000000000 from rfl]
    omega

theorem toInt64?_ofInt_eq_none {n : Int} (h : InRange n) :
    (ofInt n).toInt64? = none ↔ ofInt n = twoPow63 := by
  constructor
  · intro hnone
    refine (ofInt_eq_twoPow63 h).2 (Int.not_lt.1 fun hlt => ?_)
    have hsome := toInt64?_ofInt_isSome h hlt
    simp [hnone] at hsome
  · intro heq
    rw [heq]
    decide

end RelPlan.Binary64

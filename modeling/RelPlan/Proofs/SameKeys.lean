import Mathlib.Data.List.Zip
import RelPlan.KeyMap
import RelPlan.Proofs.Results
import RelPlan.Proofs.ValueOrder

/-!
# Values that are the same key

A datum that stands for an integer is the same key as the integer, so a key has a canonical form in
which it is the integer (`Value.canon`).  Values hash alike and are equal exactly if their canonical
forms are one (`sameKeys_iff_canon`).  Being equal says as much, except that the datum `2 ^ 63` is
equal to each integer that rounds up to it, and hashes like none (`Value.same_iff_canon`).
-/

namespace RelPlan

namespace Value

open Binary64

variable {a b : Value}

/-- The integer that a value stands for, or else the value. -/
def canon : Value → Value
  | float x => (x.toInt64?.map int).getD (float x)
  | v => v

/-- An integer and the datum `2 ^ 63`, which it becomes when it is rounded. -/
def RoundsUp : Value → Value → Prop
  | int n, float x => x = twoPow63 ∧ 0x7ffffffffffffe00 ≤ n.toInt
  | _, _ => False

instance : (a b : Value) → Decidable (a.RoundsUp b)
  | int n, float x => inferInstanceAs (Decidable (x = twoPow63 ∧ 0x7ffffffffffffe00 ≤ n.toInt))
  | null, _ | bool _, _ | float _, _ | text _, _ | int _, null | int _, bool _ | int _, int _
  | int _, text _ => .isFalse id

theorem roundsUp_iff : RoundsUp a b ↔
    ∃ n : Int64, a = int n ∧ b = float twoPow63 ∧ 0x7ffffffffffffe00 ≤ n.toInt := by
  constructor
  · intro h
    match a, b, h with
    | int n, float x, ⟨hx, hn⟩ => exact ⟨n, rfl, by rw [hx], hn⟩
  · rintro ⟨n, rfl, rfl, hn⟩
    exact ⟨rfl, hn⟩

theorem canon_of_exact (h : a.isExact) : a.canon = a := by
  cases a <;> first | rfl | cases h

theorem canon_eq (a : Value) :
    a.canon = a ∨ ∃ x n, a = float x ∧ x.toInt64? = some n ∧ a.canon = int n := by
  cases a with
  | float x =>
    cases h : x.toInt64? with
    | none => exact .inl (by simp [canon, h])
    | some n => exact .inr ⟨x, n, rfl, h, by simp [canon, h]⟩
  | _ => exact .inl rfl

@[simp] theorem rank_canon (a : Value) : a.canon.rank = a.rank := by
  rcases canon_eq a with h | ⟨x, n, rfl, -, h⟩ <;> rw [h]
  rfl

@[simp] theorem place_canon (a : Value) : a.canon.place = a.place := by
  rcases canon_eq a with h | ⟨x, n, rfl, hn, h⟩ <;> rw [h]
  exact congrArg orderKey (ofInt_of_toInt64? hn)

@[simp] theorem integer?_canon (a : Value) : a.canon.integer? = a.integer? := by
  rcases canon_eq a with h | ⟨x, n, rfl, hn, h⟩ <;> rw [h]
  exact hn.symm

@[simp] theorem bucketKey_canon (a : Value) : a.canon.bucketKey = a.bucketKey := by
  rcases canon_eq a with h | ⟨x, n, rfl, hn, h⟩ <;> rw [h]
  simp [bucketKey, hn]

@[simp] theorem order_canon (a b : Value) : a.canon.order b = a.order b := by
  by_cases hr : a.rank = b.rank
  · by_cases ha : a.rank = 2
    · rw [order_eq_then ((rank_canon a).trans ha) (hr ▸ ha), order_eq_then ha (hr ▸ ha),
        place_canon, integer?_canon]
    · rw [canon_of_exact (isExact_of_rank_ne ha)]
  · rw [order_of_rank_ne (by rwa [rank_canon]), order_of_rank_ne hr, rank_canon]

@[simp] theorem order_canon_right (a b : Value) : a.order b.canon = a.order b := by
  rw [← order_swap, order_canon, order_swap]

theorem canon_of_integer? {n : Int64} (h : a.integer? = some n) : a.canon = int n := by
  cases a with
  | int m => exact congrArg int (Option.some.inj h)
  | float x => simp [canon, show x.toInt64? = some n from h]
  | _ => cases h

theorem same_of_roundsUp (h : RoundsUp a b) : a.same b := by
  obtain ⟨n, rfl, rfl, hn⟩ := roundsUp_iff.1 h
  simp [same, order_twoPow63 hn]

/-- The hash of the datum `2 ^ 63` is far from that of the integers that round up to it. -/
theorem bucketKey_ne_of_roundsUp (h : RoundsUp a b) : a.bucketKey ≠ b.bucketKey := by
  obtain ⟨n, rfl, rfl, hn⟩ := roundsUp_iff.1 h
  intro heq
  have hword : n.toUInt64 = 0x43e0000000000000 := by
    have hnone : twoPow63.toInt64? = none := by decide
    simp only [bucketKey, hnone] at heq
    exact BucketKey.number.inj heq
  have hint : n = 0x43e0000000000000 := by
    rw [← Int64.toInt64_toUInt64 n, hword]
    rfl
  rw [hint] at hn
  exact absurd hn (by decide)

theorem eq_float_of_integer? (ha : a.rank = 2) (h : a.integer? = none) :
    ∃ x, a = float x ∧ x.toInt64? = none := by
  cases a <;> simp only [rank, Nat.reduceEqDiff, reduceCtorEq] at ha
  case int n => cases h
  case float x => exact ⟨x, rfl, h⟩

theorem roundsUp_of_place_eq {n : Int64} (hb : b.rank = 2) (hia : a.integer? = some n)
    (hib : b.integer? = none) (h : a.place = b.place) : RoundsUp a b := by
  obtain ⟨x, rfl, hx⟩ := eq_float_of_integer? hb hib
  obtain ⟨rfl, rfl⟩ := eq_int_of_place_eq hx hia h
  have hedge := (toInt64?_ofInt_eq_none (inRange_toInt n)).1 hx
  exact ⟨hedge, (ofInt_eq_twoPow63 (inRange_toInt n)).1 hedge⟩

theorem same_iff_canon : a.same b ↔ a.canon = b.canon ∨ RoundsUp a b ∨ RoundsUp b a := by
  constructor
  · intro h
    have h : a.order b = .eq := by simpa [same] using h
    have hr := rank_eq_of_order_eq h
    by_cases ha : a.rank = 2
    · have hb : b.rank = 2 := hr ▸ ha
      rw [order_eq_then ha hb, Ordering.then_eq_eq] at h
      -- numbers at one place differ in form only, unless just one of them is an integer
      have hplace : a.place = b.place := Std.LawfulEqCmp.compare_eq_iff_eq.1 h.1
      cases hia : a.integer? with
      | some m =>
        cases hib : b.integer? with
        | some n =>
          have hmn := h.2
          rw [hia, hib] at hmn
          have hmn := Std.LawfulEqCmp.compare_eq_iff_eq.1
            (show compare m.toInt n.toInt = .eq from hmn)
          exact .inl (by rw [canon_of_integer? hia, canon_of_integer? hib, Int64.toInt_inj.1 hmn])
        | none => exact .inr (.inl (roundsUp_of_place_eq hb hia hib hplace))
      | none =>
        cases hib : b.integer? with
        | some n => exact .inr (.inr (roundsUp_of_place_eq ha hib hia hplace.symm))
        | none =>
          obtain ⟨x, rfl, -⟩ := eq_float_of_integer? ha hia
          obtain ⟨y, rfl, -⟩ := eq_float_of_integer? hb hib
          exact .inl (by rw [orderKey_inj hplace])
    · exact .inl (by rw [(order_eq_iff (isExact_of_rank_ne ha)
        (isExact_of_rank_ne (hr ▸ ha))).1 h])
  · rintro (h | h | h)
    · rw [same, ← order_canon, ← order_canon_right, h, order_self]
      rfl
    · exact same_of_roundsUp h
    · exact same_symm b a ▸ same_of_roundsUp h

theorem canon_eq_iff : a.canon = b.canon ↔ a.bucketKey = b.bucketKey ∧ a.same b := by
  constructor
  · intro h
    exact ⟨by rw [← bucketKey_canon a, h, bucketKey_canon], same_iff_canon.2 (.inl h)⟩
  · rintro ⟨hkey, hsame⟩
    rcases same_iff_canon.1 hsame with h | h | h
    · exact h
    · exact absurd hkey (bucketKey_ne_of_roundsUp h)
    · exact absurd hkey.symm (bucketKey_ne_of_roundsUp h)

end Value

theorem sameKeys_iff_canon {vs ws : List Value} :
    sameKeys vs ws ↔ vs.map Value.canon = ws.map Value.canon := by
  fun_induction sameKeys vs ws with
  | case1 => simp
  | case2 a as b bs ih => simp [ih, Value.canon_eq_iff]
  | case3 as bs hnil hcons =>
    cases as with
    | nil => cases bs <;> simp_all
    | cons a as =>
      cases bs with
      | nil => simp
      | cons b bs => exact (hcons a as b bs rfl rfl).elim

/-! ### Keys that are equal -/

/-- Equal component by component, however they hash. -/
def EqualKeys (vs ws : List Value) : Prop := List.Forall₂ (fun v w => v.same w) vs ws

instance (vs ws : List Value) : Decidable (EqualKeys vs ws) :=
  inferInstanceAs (Decidable (List.Forall₂ (fun v w => v.same w) vs ws))

/-- Of equal keys among them none has an integer where the other has the datum `2 ^ 63`, to which it
rounds up.  What a hash table does with such keys is left open. -/
def Unrounded (keys : List (List Value)) : Prop :=
  ∀ vs ∈ keys, ∀ ws ∈ keys, EqualKeys vs ws → ∀ p ∈ vs.zip ws, ¬ p.1.RoundsUp p.2

instance (keys : List (List Value)) : Decidable (Unrounded keys) :=
  inferInstanceAs (Decidable (∀ vs ∈ keys, ∀ ws ∈ keys, EqualKeys vs ws →
    ∀ p ∈ vs.zip ws, ¬ p.1.RoundsUp p.2))

variable {vs ws : List Value} {keys : List (List Value)}

theorem EqualKeys.symm (h : EqualKeys vs ws) : EqualKeys ws vs :=
  h.flip.imp fun _ _ hsame => (Value.same_symm _ _).trans hsame

theorem equalKeys_of_sameKeys (h : sameKeys vs ws) : EqualKeys vs ws := by
  rw [sameKeys_iff_canon, map_eq_iff_forall₂] at h
  exact h.imp fun _ _ hcanon => Value.same_iff_canon.2 (.inl hcanon)

theorem Unrounded.sameKeys_eq (h : Unrounded keys) (hv : vs ∈ keys) (hw : ws ∈ keys) :
    sameKeys vs ws = decide (EqualKeys vs ws) := by
  refine Bool.eq_iff_iff.2 ⟨fun hsame => decide_eq_true (equalKeys_of_sameKeys hsame),
    fun heq => ?_⟩
  have heq : EqualKeys vs ws := of_decide_eq_true heq
  rw [sameKeys_iff_canon, map_eq_iff_forall₂, List.forall₂_iff_zip]
  obtain ⟨hlen, hsame⟩ := List.forall₂_iff_zip.1 heq
  refine ⟨hlen, fun {v w} hmem => ?_⟩
  rcases Value.same_iff_canon.1 (hsame hmem) with hcanon | hup | hup
  · exact hcanon
  · exact absurd hup (h vs hv ws hw heq (v, w) hmem)
  · refine absurd hup (h ws hw vs hv heq.symm (w, v) ?_)
    rw [← List.zip_swap]
    exact List.mem_map.2 ⟨(v, w), hmem, rfl⟩

end RelPlan

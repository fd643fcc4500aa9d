import RelPlan.Proofs.KeyOrder
import RelPlan.Proofs.Worth
import RelPlan.SortOrder

/-!
# Sorted by an order

The order of lists of sort values is linear where the values are exact.  Of two environments one is
not above the other (`SortOrder.Le`) if both have sort values and those of the one are not above
those of the other.  What is sorted by an order is sorted by every order that it subsumes
(`Sorted.of_subsumes`), and constant keys do not matter (`Sorted.of_fold`).
-/

namespace RelPlan

variable {env env' a b c : Env} {vs ws : List Value} {ks : List SortKey} {n : Nat}

/-- No constant of the order is a binary64 datum. -/
def SortOrder.IsExact (o : SortOrder) : Prop := ∀ k ∈ o.keys, k.expr.isExact

instance (o : SortOrder) : Decidable o.IsExact :=
  inferInstanceAs (Decidable (∀ k ∈ o.keys, k.expr.isExact))

namespace SortKey

variable {k : SortKey} {u v w : Value}

theorem order_swap (k : SortKey) (v w : Value) : (k.order v w).swap = k.order w v := by
  unfold order
  split <;> simp [Value.order_swap]

@[simp] theorem order_self (k : SortKey) (v : Value) : k.order v v = .eq := by
  unfold order
  split <;> simp

theorem order_eq_iff (hv : v.isExact) (hw : w.isExact) : k.order v w = .eq ↔ v = w := by
  unfold order
  split
  · rw [Ordering.swap_eq_eq, Value.order_eq_iff hv hw]
  · exact Value.order_eq_iff hv hw

theorem order_isLE_trans (hu : u.isExact) (hv : v.isExact) (hw : w.isExact)
    (huv : (k.order u v).isLE) (hvw : (k.order v w).isLE) : (k.order u w).isLE := by
  unfold order at huv hvw ⊢
  split
  · next hdesc =>
    simp only [hdesc, if_true, Value.order_swap] at huv hvw ⊢
    exact Value.order_isLE_trans hw hv hu hvw huv
  · next hasc =>
    simp only [hasc] at huv hvw
    exact Value.order_isLE_trans hu hv hw huv hvw

end SortKey

namespace SortOrder

theorem compareBy_swap (ks : List SortKey) (vs ws : List Value) :
    (compareBy ks vs ws).swap = compareBy ks ws vs := by
  induction ks generalizing vs ws with
  | nil => rfl
  | cons k ks ih =>
    match vs, ws with
    | v :: vs, w :: ws => simp only [compareBy, Ordering.swap_then, k.order_swap, ih]
    | [], [] | [], _ :: _ | _ :: _, [] => rfl

@[simp] theorem compareBy_self (ks : List SortKey) (vs : List Value) :
    compareBy ks vs vs = .eq := by
  induction ks generalizing vs with
  | nil => rfl
  | cons k ks ih => cases vs <;> simp [compareBy, ih]

theorem compareBy_isLE_trans {us : List Value} (hu : IsKey ks.length us) (hv : IsKey ks.length vs)
    (hw : IsKey ks.length ws) (huv : (compareBy ks us vs).isLE) (hvw : (compareBy ks vs ws).isLE) :
    (compareBy ks us ws).isLE := by
  induction ks generalizing us vs ws with
  | nil => rfl
  | cons k ks ih =>
    match us, vs, ws, hu, hv, hw with
    | u :: us, v :: vs, w :: ws, hu, hv, hw =>
      simp only [compareBy] at huv hvw ⊢
      by_cases huw : k.order u w = .eq
      · obtain rfl := (SortKey.order_eq_iff hu.head hw.head).1 huw
        rw [← k.order_swap u v] at hvw
        rw [huw]
        cases h : k.order u v <;> simp [h] at huv hvw
        exact ih hu.tail hv.tail hw.tail huv hvw
      · have huw' := SortKey.order_isLE_trans hu.head hv.head hw.head
          (Ordering.isLE_left_of_isLE_then huv) (Ordering.isLE_left_of_isLE_then hvw)
        cases h : k.order u w <;> simp_all
    | [], _, _, hu, _, _ => exact absurd hu.length (by simp)
    | _ :: _, [], _, _, hv, _ => exact absurd hv.length (by simp)
    | _ :: _, _ :: _, [], _, _, hw => exact absurd hw.length (by simp)

theorem compareBy_ascending {es : List Expr} {vs ws : List Value} (hv : vs.length = es.length) :
    compareBy (ascending es).keys vs ws = orderKeys vs ws := by
  induction es generalizing vs ws with
  | nil =>
    obtain rfl := List.length_eq_zero_iff.1 hv
    rfl
  | cons e es ih =>
    match vs, ws with
    | v :: vs, w :: ws =>
      have hrest : compareBy (ascending es).keys vs ws = orderKeys vs ws := ih (by simpa using hv)
      simp_all [ascending, compareBy, orderKeys, SortKey.order]
    | _ :: _, [] => rfl

theorem compareBy_reversed (ks : List SortKey) (vs ws : List Value) :
    compareBy (reversed ⟨ks⟩).keys vs ws = compareBy ks ws vs := by
  induction ks generalizing vs ws with
  | nil => rfl
  | cons k ks ih =>
    match vs, ws with
    | v :: vs, w :: ws =>
      have := ih vs ws
      simp only [reversed] at this
      simp only [reversed, List.map_cons, compareBy, this, SortKey.order]
      cases k.descending <;> simp [Value.order_swap]
    | [], [] | [], _ :: _ | _ :: _, [] => rfl

/-! ### Environments -/

/-- The values of the sort keys. -/
def Worths (o : SortOrder) (env : Env) (vs : List Value) : Prop :=
  List.Forall₂ (fun k v => k.expr.worth env = some v) o.keys vs

/-- Both sides have sort values, and those of the first are not above those of the second. -/
def Le (o : SortOrder) (a b : Env) : Prop :=
  ∃ vs ws, o.Worths a vs ∧ o.Worths b ws ∧ (o.compare vs ws).isLE

variable {o p : SortOrder}

theorem worths_ascending {es : List Expr} :
    (ascending es).Worths env vs ↔ List.Forall₂ (fun e v => e.worth env = some v) es vs := by
  simp [Worths, ascending, List.forall₂_map_left_iff]

theorem worths_reversed : o.reversed.Worths env vs ↔ o.Worths env vs := by
  simp [Worths, reversed, List.forall₂_map_left_iff]

theorem Worths.isKey (h : o.Worths env vs) (ho : o.IsExact) (henv : env.IsExact) :
    IsKey o.keys.length vs := by
  refine ⟨h.length_eq.symm, fun v hv => ?_⟩
  obtain ⟨i, hi, rfl⟩ := List.mem_iff_getElem.1 hv
  have hk : i < o.keys.length := by rw [h.length_eq]; exact hi
  exact Expr.worth_isExact (ho _ (List.getElem_mem hk)) henv (h.get hk hi)

theorem Worths.le_self (h : o.Worths env vs) : o.Le env env :=
  ⟨vs, vs, h, h, by simp [SortOrder.compare]⟩

theorem le_of_isEmpty (h : o.isEmpty) (a b : Env) : o.Le a b := by
  have hkeys : o.keys = [] := List.isEmpty_iff.1 h
  refine ⟨[], [], ?_, ?_, ?_⟩
  · rw [Worths, hkeys]; exact .nil
  · rw [Worths, hkeys]; exact .nil
  · rw [SortOrder.compare, hkeys]; rfl

/-- Keys that are worth the same, in the same directions, give the same order. -/
theorem Le.of_worth {a' b' : Env} (h : List.Forall₂ (fun k k' => k'.descending = k.descending ∧
      k'.expr.worth a' = k.expr.worth a ∧ k'.expr.worth b' = k.expr.worth b) o.keys p.keys)
    (hle : p.Le a' b') : o.Le a b := by
  obtain ⟨vs, ws, hv, hw, hle⟩ := hle
  suffices o.Worths a vs ∧ o.Worths b ws ∧ o.compare vs ws = p.compare vs ws from
    ⟨vs, ws, this.1, this.2.1, this.2.2 ▸ hle⟩
  clear hle
  unfold Worths SortOrder.compare at *
  generalize o.keys = ks, p.keys = ks' at h hv hw
  induction h generalizing vs ws with
  | nil => cases hv; cases hw; exact ⟨.nil, .nil, rfl⟩
  | @cons k k' ks ks' hk _ ih =>
    obtain ⟨hdesc, ha, hb⟩ := hk
    cases hv with | @cons _ v _ vs hv hvs =>
    cases hw with | @cons _ w _ ws hw hws =>
    obtain ⟨hvs', hws', hcompare⟩ := ih vs ws hvs hws
    have horder : k.order v w = k'.order v w := by rw [SortKey.order, SortKey.order, hdesc]
    exact ⟨.cons (ha ▸ hv) hvs', .cons (hb ▸ hw) hws',
      by rw [compareBy, compareBy, horder, hcompare]⟩

/-- What is in an order is in the orders that it subsumes. -/
theorem Le.of_subsumes (h : o.subsumes p) (hle : o.Le a b) : p.Le a b := by
  obtain ⟨vs, ws, hv, hw, hle⟩ := hle
  unfold subsumes at h
  unfold Worths SortOrder.compare at *
  suffices ∃ vs' ws', List.Forall₂ (fun k v => k.expr.worth a = some v) p.keys vs' ∧
      List.Forall₂ (fun k v => k.expr.worth b = some v) p.keys ws' ∧
      ((compareBy o.keys vs ws).isLE → (compareBy p.keys vs' ws').isLE) by
    obtain ⟨vs', ws', hv', hw', himp⟩ := this
    exact ⟨vs', ws', hv', hw', himp hle⟩
  clear hle
  generalize o.keys = ks, p.keys = ps at h hv hw
  induction ps generalizing ks vs ws with
  | nil => exact ⟨[], [], .nil, .nil, fun _ => rfl⟩
  | cons k ps ih =>
    match ks, h with
    | k' :: ks, h =>
      simp only [isPrefix, SortKey.equiv, Bool.and_eq_true, decide_eq_true_eq] at h
      obtain ⟨⟨hdesc, hequiv⟩, hrest⟩ := h
      cases hv with | @cons _ v _ vs hv hvs =>
      cases hw with | @cons _ w _ ws hw hws =>
      obtain ⟨vs', ws', hv', hw', himp⟩ := ih _ _ _ hrest hvs hws
      refine ⟨v :: vs', w :: ws', .cons ?_ hv', .cons ?_ hw', fun hle => ?_⟩
      · rw [Expr.worth_eq_of_equiv _ hequiv, hv]
      · rw [Expr.worth_eq_of_equiv _ hequiv, hw]
      · have horder : k.order v w = k'.order v w := by rw [SortKey.order, SortKey.order, hdesc]
        rw [compareBy] at hle ⊢
        rw [horder]
        cases h : k'.order v w <;> simp_all

theorem fold_cons (k : SortKey) (ks : List SortKey) : fold ⟨k :: ks⟩ =
    if k.expr.fold.isConst then fold ⟨ks⟩
    else ⟨{ k with expr := k.expr.fold } :: (fold ⟨ks⟩).keys⟩ := by
  simp only [fold, map, List.map_cons, List.filter_cons]
  cases k.expr.fold.isConst <;> rfl

theorem Le.of_fold (hle : o.fold.Le a b) : o.Le a b := by
  obtain ⟨vs, ws, hv, hw, hle⟩ := hle
  obtain ⟨ks⟩ := o
  suffices ∃ vs' ws', Worths ⟨ks⟩ a vs' ∧ Worths ⟨ks⟩ b ws' ∧
      compareBy ks vs' ws' = (fold ⟨ks⟩).compare vs ws by
    obtain ⟨vs', ws', hv', hw', heq⟩ := this
    exact ⟨vs', ws', hv', hw', by rw [SortOrder.compare, heq]; exact hle⟩
  clear hle
  induction ks generalizing vs ws with
  | nil => exact ⟨[], [], .nil, .nil, rfl⟩
  | cons k ks ih =>
    rw [fold_cons] at hv hw ⊢
    split at hv
    · next hconst =>
      obtain ⟨vs', ws', hv', hw', heq⟩ := ih vs ws hv (by simpa [hconst] using hw)
      obtain ⟨v, hv₀⟩ := Expr.eq_const_of_isConst hconst
      have hworth (env : Env) : k.expr.worth env = some v := by
        rw [← Expr.worth_fold, hv₀, Expr.worth]
      refine ⟨v :: vs', v :: ws', .cons (hworth a) hv', .cons (hworth b) hw', ?_⟩
      rw [compareBy, SortKey.order_self, heq, if_pos hconst]
      rfl
    · next hconst =>
      rw [if_neg hconst] at hw ⊢
      cases hv with | @cons _ v _ vs hv hvs =>
      cases hw with | @cons _ w _ ws hw hws =>
      obtain ⟨vs', ws', hv', hw', heq⟩ := ih vs ws hvs hws
      rw [Expr.worth_fold] at hv hw
      exact ⟨v :: vs', w :: ws', .cons hv hv', .cons hw hw', by rw [compareBy, heq]; rfl⟩

/-- No environment comes after a greater one, and all have sort values. -/
structure Sorted (o : SortOrder) (envs : List Env) : Prop where
  self : ∀ a ∈ envs, o.Le a a
  pairwise : envs.Pairwise o.Le

namespace Sorted

variable {envs envs' : List Env}

theorem sublist (h : o.Sorted envs) (hs : envs'.Sublist envs) : o.Sorted envs' :=
  ⟨fun a ha => h.self a (hs.mem ha), h.pairwise.sublist hs⟩

theorem imp (h : o.Sorted envs) (himp : ∀ a ∈ envs, ∀ b ∈ envs, o.Le a b → p.Le a b) :
    p.Sorted envs :=
  ⟨fun a ha => himp a ha a ha (h.self a ha),
    h.pairwise.imp_of_mem fun ha hb hle => himp _ ha _ hb hle⟩

theorem of_isEmpty (h : o.isEmpty) (envs : List Env) : o.Sorted envs :=
  ⟨fun a _ => le_of_isEmpty h a a, List.pairwise_of_forall fun a b => le_of_isEmpty h a b⟩

theorem of_fold (h : o.fold.Sorted envs) : o.Sorted envs := h.imp fun _ _ _ _ hle => hle.of_fold

theorem of_subsumes (h : o.Sorted envs) (hsub : o.subsumes p) : p.Sorted envs :=
  h.imp fun _ _ _ _ => Le.of_subsumes hsub

theorem of_map {α : Type} {f g : α → Env} {xs : List α} (h : p.Sorted (xs.map f))
    (himp : ∀ x ∈ xs, ∀ y ∈ xs, p.Le (f x) (f y) → o.Le (g x) (g y)) : o.Sorted (xs.map g) := by
  obtain ⟨hself, hpair⟩ := h
  refine ⟨List.forall_mem_map.2 fun x hx => himp x hx x hx (hself _ (List.mem_map_of_mem hx)), ?_⟩
  rw [List.pairwise_map] at hpair ⊢
  exact hpair.imp_of_mem fun hx hy hle => himp _ hx _ hy hle

end Sorted

end SortOrder

end RelPlan

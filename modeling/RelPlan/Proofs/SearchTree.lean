import Mathlib.Data.List.Perm.Basic
import RelPlan.Index.Tree
import RelPlan.Proofs.KeyOrder

/-!
# Search trees in order

A tree is `Ordered` if its entries, read in order, have keys of one length that never descend.
Equal keys may stand on both sides of a node, and still a key that is in the tree is met on the path
by which it would be inserted (`meets_iff`).  Every operation is described by what it does to the
list of entries, and a range scan is a filter of that list (`scan_eq`).  What is in a tree is found
again already where the order is transitive among the values of its keys (`OrderedIn`).
-/

namespace RelPlan

/-- The entry is not above the other one. -/
def Entry.le (x y : Entry) : Prop := (orderKeys x.key y.key).isLE

namespace Tree

variable {n : Nat} {t l r : Tree} {x e : Entry} {key : List Value} {s tid : Nat}

/-- Keys of `n` exact values that do not descend. -/
structure Ordered (n : Nat) (t : Tree) : Prop where
  keys : ∀ x ∈ t.toList, IsKey n x.key
  sorted : t.toList.Pairwise Entry.le

/-- Keys of `n` of these values that do not descend. -/
structure OrderedIn (S : Value → Prop) (n : Nat) (t : Tree) : Prop where
  keys : ∀ x ∈ t.toList, IsKeyIn S n x.key
  sorted : t.toList.Pairwise Entry.le

theorem ordered_iff : Ordered n t ↔ OrderedIn (·.isExact) n t :=
  ⟨fun ⟨hk, hs⟩ => ⟨fun x hx => isKey_iff.1 (hk x hx), hs⟩,
    fun ⟨hk, hs⟩ => ⟨fun x hx => isKey_iff.2 (hk x hx), hs⟩⟩

theorem ordered_leaf : Ordered n leaf := ⟨by simp [toList], by simp [toList]⟩

section
variable {S : Value → Prop}

theorem orderedIn_leaf : OrderedIn S n leaf := ⟨by simp [toList], by simp [toList]⟩

theorem orderedIn_node (hS : Value.Chained S) :
    OrderedIn S n (node s l e r) ↔ OrderedIn S n l ∧ OrderedIn S n r ∧ IsKeyIn S n e.key ∧
      (∀ x ∈ l.toList, x.le e) ∧ ∀ x ∈ r.toList, e.le x := by
  constructor
  · rintro ⟨hk, hs⟩
    simp only [toList, List.pairwise_append, List.pairwise_cons, List.mem_append,
      List.mem_cons] at hk hs
    exact ⟨⟨fun x hx => hk x (.inl hx), hs.1⟩, ⟨fun x hx => hk x (.inr (.inr hx)), hs.2.1.2⟩,
      hk e (.inr (.inl rfl)), fun x hx => hs.2.2 x hx e (.inl rfl), hs.2.1.1⟩
  · rintro ⟨hl, hr, he, hle, her⟩
    refine ⟨?_, ?_⟩
    · simp only [toList, List.mem_append, List.mem_cons]
      rintro x (hx | rfl | hx)
      exacts [hl.keys x hx, he, hr.keys x hx]
    · simp only [toList, List.pairwise_append, List.pairwise_cons, List.mem_cons]
      refine ⟨hl.sorted, ⟨her, hr.sorted⟩, ?_⟩
      rintro x hx y (rfl | hy)
      · exact hle x hx
      · exact orderKeys_isLE_trans_in hS (hl.keys x hx) he (hr.keys y hy) (hle x hx) (her y hy)

end

theorem ordered_node :
    Ordered n (node s l e r) ↔ Ordered n l ∧ Ordered n r ∧ IsKey n e.key ∧
      (∀ x ∈ l.toList, x.le e) ∧ ∀ x ∈ r.toList, e.le x := by
  simp only [ordered_iff, isKey_iff, orderedIn_node Value.chained_isExact]

theorem toList_insert_perm (slot : Nat) (x : Entry) (t : Tree) :
    (t.insert slot x).toList.Perm (x :: t.toList) := by
  induction t with
  | leaf => simp [insert, toList]
  | node s l e r ihl ihr =>
    have hright := (ihr.cons e).trans (List.Perm.swap x e r.toList)
    unfold insert
    split
    · exact (hright.append_left l.toList).trans List.perm_middle
    · exact ihl.append_right _

theorem OrderedIn.insert {S : Value → Prop} {slot : Nat} (hS : Value.Chained S)
    (h : OrderedIn S n t) (hx : IsKeyIn S n x.key) : OrderedIn S n (t.insert slot x) := by
  induction t with
  | leaf => exact ⟨by simpa [Tree.insert, toList] using hx, by simp [Tree.insert, toList]⟩
  | node s l e r ihl ihr =>
    obtain ⟨hl, hr, he, hle, her⟩ := (orderedIn_node hS).1 h
    unfold Tree.insert
    split
    · next hgt =>
      refine (orderedIn_node hS).2 ⟨hl, ihr hr, he, hle, fun y hy => ?_⟩
      rcases List.mem_cons.1 ((toList_insert_perm slot x r).mem_iff.1 hy) with rfl | hy
      exacts [isLE_of_orderKeys_gt hgt, her y hy]
    · next hgt =>
      refine (orderedIn_node hS).2 ⟨ihl hl, hr, he, fun y hy => ?_, her⟩
      rcases List.mem_cons.1 ((toList_insert_perm slot x l).mem_iff.1 hy) with rfl | hy
      · exact Ordering.isLE_iff_ne_gt.2 hgt
      · exact hle y hy

theorem Ordered.insert {slot : Nat} (h : Ordered n t) (hx : IsKey n x.key) :
    Ordered n (t.insert slot x) :=
  ordered_iff.2 ((ordered_iff.1 h).insert Value.chained_isExact (isKey_iff.1 hx))

/-- A key is in the tree exactly if it is met on its path. -/
theorem meets_iff (h : Ordered n t) (hk : IsKey n key) :
    t.meets key ↔ ∃ x ∈ t.toList, x.key = key := by
  induction t with
  | leaf => simp [meets, toList]
  | node s l e r ihl ihr =>
    obtain ⟨hl, hr, he, hle, her⟩ := ordered_node.1 h
    simp only [toList, List.mem_append, List.mem_cons]
    unfold meets
    split
    · next hlt =>
      rw [ihl hl]
      refine exists_congr fun x => and_congr_left fun hxk => ⟨.inl, ?_⟩
      rintro (hx | rfl | hx)
      · exact hx
      · rw [hxk, orderKeys_self] at hlt; cases hlt
      · have := orderKeys_lt_of_lt_of_isLE hk he (hr.keys x hx) hlt (her x hx)
        rw [hxk, orderKeys_self] at this; cases this
    · next heq =>
      exact ⟨fun _ => ⟨e, .inr (.inl rfl), ((orderKeys_eq_iff hk he).1 heq).symm⟩, fun _ => rfl⟩
    · next hgt =>
      rw [ihr hr]
      refine exists_congr fun x => and_congr_left fun hxk => ⟨fun hx => .inr (.inr hx), ?_⟩
      rintro (hx | rfl | hx)
      · have := hle x hx
        simp [Entry.le, hxk, hgt] at this
      · rw [hxk, orderKeys_self] at hgt; cases hgt
      · exact hx

theorem toList_takeFirst (slot : Nat) (l : Tree) (e : Entry) (r : Tree) :
    (takeFirst slot l e r).1.2 :: (takeFirst slot l e r).2.toList = l.toList ++ e :: r.toList := by
  induction l generalizing slot e r with
  | leaf => rfl
  | node s l e' r' ihl _ => simp [takeFirst, toList, ← ihl s e' r']

theorem toList_removeRoot (slot : Nat) (l r : Tree) :
    (removeRoot slot l r).1.toList = l.toList ++ r.toList := by
  unfold removeRoot
  split
  · rfl
  · simp [toList]
  · next s rl e rr _ =>
    simp [toList, toList_takeFirst s rl e rr]

/-- Removal takes one entry out, with the key and the tid asked for. -/
theorem toList_erase {t' : Tree} {freed : Nat} (h : t.erase key tid = some (t', freed)) :
    ∃ before x after, t.toList = before ++ x :: after ∧ t'.toList = before ++ after ∧
      orderKeys key x.key = .eq ∧ x.tid = tid := by
  induction t generalizing t' freed with
  | leaf => simp [erase] at h
  | node s l e r ihl ihr =>
    have left {q : Tree × Nat} (hq : l.erase key tid = some q) (ht : t' = node s q.1 e r) :
        ∃ before x after, (node s l e r).toList = before ++ x :: after ∧
          t'.toList = before ++ after ∧ orderKeys key x.key = .eq ∧ x.tid = tid := by
      obtain ⟨b, x, a, hl, hl', hx⟩ := ihl hq
      exact ⟨b, x, a ++ e :: r.toList, by simp [toList, hl], by simp [ht, toList, hl'], hx⟩
    have right {q : Tree × Nat} (hq : r.erase key tid = some q) (ht : t' = node s l e q.1) :
        ∃ before x after, (node s l e r).toList = before ++ x :: after ∧
          t'.toList = before ++ after ∧ orderKeys key x.key = .eq ∧ x.tid = tid := by
      obtain ⟨b, x, a, hr, hr', hx⟩ := ihr hq
      exact ⟨l.toList ++ e :: b, x, a, by simp [toList, hr], by simp [ht, toList, hr'], hx⟩
    unfold erase at h
    split at h
    · obtain ⟨q, hq, heq⟩ := Option.map_eq_some_iff.1 h
      exact left hq (by simp_all)
    · obtain ⟨q, hq, heq⟩ := Option.map_eq_some_iff.1 h
      exact right hq (by simp_all)
    · next heq =>
      split at h
      · next htid =>
        refine ⟨l.toList, e, r.toList, rfl, ?_, heq, htid⟩
        have := toList_removeRoot s l r
        simp_all
      · split at h
        · next hq => exact left hq (by simp_all)
        · obtain ⟨q, hq, heq⟩ := Option.map_eq_some_iff.1 h
          exact right hq (by simp_all)

/-- What is in the tree is found: among equal keys both sides are searched. -/
theorem OrderedIn.erase_isSome {S : Value → Prop} (hS : Value.Chained S) (h : OrderedIn S n t)
    (hx : x ∈ t.toList) : (t.erase x.key x.tid).isSome := by
  induction t with
  | leaf => simp [toList] at hx
  | node s l e r ihl ihr =>
    obtain ⟨hl, hr, he, hle, her⟩ := (orderedIn_node hS).1 h
    simp only [toList, List.mem_append, List.mem_cons] at hx
    unfold Tree.erase
    split
    · next hlt =>
      rcases hx with hx | rfl | hx
      · simpa using ihl hl hx
      · rw [orderKeys_self] at hlt; cases hlt
      · have := orderKeys_lt_of_lt_of_isLE_in hS (hr.keys x hx) he (hr.keys x hx) hlt (her x hx)
        rw [orderKeys_self] at this; cases this
    · next hgt =>
      rcases hx with hx | rfl | hx
      · have := hle x hx
        simp [Entry.le, hgt] at this
      · rw [orderKeys_self] at hgt; cases hgt
      · simpa using ihr hr hx
    · split
      · rfl
      · next htid =>
        rcases hx with hx | rfl | hx
        · obtain ⟨q, hq⟩ := Option.isSome_iff_exists.1 (ihl hl hx)
          simp [hq]
        · exact absurd rfl htid
        · split
          · rfl
          · simpa using ihr hr hx

theorem erase_isSome (h : Ordered n t) (hx : x ∈ t.toList) : (t.erase x.key x.tid).isSome :=
  (ordered_iff.1 h).erase_isSome Value.chained_isExact hx

theorem OrderedIn.erase {S : Value → Prop} {t' : Tree} {freed : Nat} (h : OrderedIn S n t)
    (he : t.erase key tid = some (t', freed)) : OrderedIn S n t' := by
  obtain ⟨b, x, a, ht, ht', -⟩ := toList_erase he
  have hsub : t'.toList.Sublist t.toList := by
    rw [ht, ht']; exact (List.sublist_cons_self x a).append_left b
  exact ⟨fun y hy => h.keys y (hsub.mem hy), h.sorted.sublist hsub⟩

theorem Ordered.erase {t' : Tree} {freed : Nat} (h : Ordered n t)
    (he : t.erase key tid = some (t', freed)) : Ordered n t' :=
  ordered_iff.2 ((ordered_iff.1 h).erase he)

end Tree

end RelPlan

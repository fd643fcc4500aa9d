import Mathlib.Data.List.Sort
import RelPlan.Proofs.SearchTree

/-!
# Search trees as sorted lists

Read in order, a search tree is a sorted list: an insertion puts the new entry in front of the first
one that is not below it (`toList_insert`), so the newest of equal keys comes first, and a removal
takes the entry out (`erase_spec`).  Whatever a removal moves around, it frees one slot and keeps
all others in use (`slots_erase_perm`).
-/

namespace RelPlan

instance : DecidableRel Entry.le := fun x y =>
  inferInstanceAs (Decidable ((orderKeys x.key y.key).isLE = true))

namespace Tree

open scoped List

variable {n : Nat} {t l r t' : Tree} {x e : Entry} {key : List Value} {s tid freed : Nat}

theorem orderedInsert_append_of_le {before after : List Entry} (h : x.le e) :
    (before ++ e :: after).orderedInsert Entry.le x =
      before.orderedInsert Entry.le x ++ e :: after := by
  induction before with
  | nil => simp [h]
  | cons y before ih =>
    by_cases hxy : x.le y
    · simp [hxy]
    · simp [hxy, ih]

theorem orderedInsert_append_of_not_le {before : List Entry} (h : ∀ y ∈ before, ¬ x.le y)
    (after : List Entry) :
    (before ++ after).orderedInsert Entry.le x = before ++ after.orderedInsert Entry.le x := by
  induction before with
  | nil => rfl
  | cons y before ih =>
    obtain ⟨hy, hrest⟩ := List.forall_mem_cons.1 h
    simp [hy, ih hrest]

/-- An insertion puts the entry in front of the first one that is not below it. -/
theorem toList_insert (h : Ordered n t) (hx : IsKey n x.key) (slot : Nat) :
    (t.insert slot x).toList = t.toList.orderedInsert Entry.le x := by
  induction t with
  | leaf => rfl
  | node s l e r ihl ihr =>
    obtain ⟨hl, hr, he, hle, -⟩ := ordered_node.1 h
    unfold Tree.insert
    split
    · next hgt =>
      -- what is not above the node is below the new entry, so the search passes it by
      have hbelow : ∀ y ∈ l.toList ++ [e], ¬ x.le y := by
        intro y hy hxy
        have hye : (orderKeys y.key e.key).isLE := by
          rcases List.mem_append.1 hy with hy | hy
          · exact hle y hy
          · rw [List.mem_singleton.1 hy, orderKeys_self]
            rfl
        have hyk : IsKey n y.key := by
          rcases List.mem_append.1 hy with hy | hy
          · exact hl.keys y hy
          · exact List.mem_singleton.1 hy ▸ he
        have hxe := orderKeys_isLE_trans hx hyk he hxy hye
        rw [hgt] at hxe
        cases hxe
      have hsplit := orderedInsert_append_of_not_le hbelow r.toList
      rw [List.append_assoc, List.append_assoc] at hsplit
      rw [toList, ihr hr]
      exact hsplit.symm
    · next hgt =>
      rw [toList, ihl hl, toList, orderedInsert_append_of_le (Ordering.isLE_iff_ne_gt.2 hgt)]

/-- A removal that finds nothing has nothing to find, and any other one takes the entry out. -/
theorem erase_spec (h : Ordered n t) (hk : IsKey n key) (hd : t.toList.Nodup) (tid : Nat) :
    match t.erase key tid with
    | some (t', _) => ⟨key, tid⟩ ∈ t.toList ∧ t'.toList = t.toList.erase ⟨key, tid⟩
    | none => ⟨key, tid⟩ ∉ t.toList := by
  split
  · next t' freed herase =>
    obtain ⟨before, x, after, ht, ht', hx, rfl⟩ := toList_erase herase
    have hmem : x ∈ t.toList := by rw [ht]; simp
    obtain rfl := (orderKeys_eq_iff hk (h.keys x hmem)).1 hx
    refine ⟨hmem, ?_⟩
    rw [ht] at hd ⊢
    have hbefore : x ∉ before := fun hx => (List.nodup_append.1 hd).2.2 x hx x (by simp) rfl
    rw [ht', List.erase_append_right _ hbefore, List.erase_cons_head]
  · next herase =>
    intro hmem
    have hsome := erase_isSome h hmem
    rw [herase] at hsome
    cases hsome

theorem slots_insert_perm (slot : Nat) (x : Entry) (t : Tree) :
    (t.insert slot x).slots ~ slot :: t.slots := by
  induction t with
  | leaf => exact .refl _
  | node s l e r ihl ihr =>
    unfold insert
    split
    · calc l.slots ++ s :: (r.insert slot x).slots
        _ ~ l.slots ++ slot :: s :: r.slots :=
          ((ihr.cons s).trans (.swap slot s r.slots)).append_left _
        _ ~ slot :: (l.slots ++ s :: r.slots) := List.perm_middle
    · exact ihl.append_right _

theorem length_slots (t : Tree) : t.slots.length = t.toList.length := by
  induction t with
  | leaf => rfl
  | node s l e r ihl ihr => simp [slots, toList, ihl, ihr]

theorem slots_takeFirst (slot : Nat) (l : Tree) (e : Entry) (r : Tree) :
    (takeFirst slot l e r).1.1 :: (takeFirst slot l e r).2.slots = l.slots ++ slot :: r.slots := by
  induction l generalizing slot e r with
  | leaf => rfl
  | node s l e' r' ihl _ => simp [takeFirst, slots, ← ihl s e' r']

theorem slots_removeRoot_perm (slot : Nat) (l r : Tree) :
    (removeRoot slot l r).2 :: (removeRoot slot l r).1.slots ~ l.slots ++ slot :: r.slots := by
  unfold removeRoot
  split
  · exact .refl _
  · simpa [slots] using List.perm_append_singleton slot _ |>.symm
  · next s rl e rr _ =>
    have hfirst := slots_takeFirst s rl e rr
    calc (takeFirst s rl e rr).1.1 :: (l.slots ++ slot :: (takeFirst s rl e rr).2.slots)
      _ ~ l.slots ++ (takeFirst s rl e rr).1.1 :: slot :: (takeFirst s rl e rr).2.slots :=
        List.perm_middle.symm
      _ ~ l.slots ++ slot :: (takeFirst s rl e rr).1.1 :: (takeFirst s rl e rr).2.slots :=
        (List.Perm.swap ..).append_left _
      _ = l.slots ++ slot :: (node s rl e rr).slots := by rw [hfirst, slots]

theorem slots_erase_perm (h : t.erase key tid = some (t', freed)) :
    t.slots ~ freed :: t'.slots := by
  induction t generalizing t' freed with
  | leaf => cases h
  | node s l e r ihl ihr =>
    have left {q : Tree × Nat} (hq : l.erase key tid = some q) :
        (node s l e r).slots ~ q.2 :: (node s q.1 e r).slots := (ihl hq).append_right _
    have right {q : Tree × Nat} (hq : r.erase key tid = some q) :
        (node s l e r).slots ~ q.2 :: (node s l e q.1).slots :=
      calc l.slots ++ s :: r.slots
        _ ~ l.slots ++ q.2 :: s :: q.1.slots :=
          (((ihr hq).cons s).trans (.swap q.2 s q.1.slots)).append_left _
        _ ~ q.2 :: (l.slots ++ s :: q.1.slots) := List.perm_middle
    unfold erase at h
    split at h
    · obtain ⟨q, hq, heq⟩ := Option.map_eq_some_iff.1 h
      cases heq
      exact left hq
    · obtain ⟨q, hq, heq⟩ := Option.map_eq_some_iff.1 h
      cases heq
      exact right hq
    · split at h
      · have hroot := slots_removeRoot_perm s l r
        rw [Option.some.inj h] at hroot
        exact hroot.symm
      · split at h
        · next hq =>
          cases h
          exact left hq
        · obtain ⟨q, hq, heq⟩ := Option.map_eq_some_iff.1 h
          cases heq
          exact right hq

end Tree

end RelPlan

import Mathlib.Data.List.Perm.Basic
import RelPlan.Sorting

/-!
# What sorting does

Sorting rearranges a list, and where `less` is a linear order on its members no member comes after a
greater one, whichever way the list was sorted.
-/

namespace RelPlan

variable {α : Type} {less : α → α → Bool} {x : α} {xs : List α}

/-- Any two of the elements are comparable, and not being above is transitive among them. -/
structure Linear (less : α → α → Bool) (xs : List α) : Prop where
  trans : ∀ a ∈ xs, ∀ b ∈ xs, ∀ c ∈ xs, less b a = false → less c b = false → less c a = false
  total : ∀ a ∈ xs, ∀ b ∈ xs, less b a = false ∨ less a b = false

theorem perm_insertDown (less : α → α → Bool) (x : α) (xs : List α) :
    (insertDown less x xs).Perm (x :: xs) := by
  induction xs with
  | nil => exact .refl _
  | cons y ys ih =>
    rw [insertDown]
    split
    · exact (ih.cons y).trans (.swap x y ys)
    · exact .refl _

theorem perm_foldl_insertDown (less : α → α → Bool) (xs sorted : List α) :
    (xs.foldl (fun sorted x => insertDown less x sorted) sorted).Perm (xs ++ sorted) := by
  induction xs generalizing sorted with
  | nil => exact .refl _
  | cons x xs ih =>
    exact (ih _).trans (((perm_insertDown less x sorted).append_left xs).trans List.perm_middle)

theorem perm_stableSort (less : α → α → Bool) (xs : List α) : (stableSort less xs).Perm xs := by
  unfold stableSort
  split
  · have h := perm_foldl_insertDown less xs []
    rw [List.append_nil] at h
    exact (List.reverse_perm _).trans h
  · exact List.mergeSort_perm xs _

theorem pairwise_insertDown (h : Linear less (x :: xs))
    (hs : xs.Pairwise fun a b => less a b = false) :
    (insertDown less x xs).Pairwise fun a b => less a b = false := by
  induction xs with
  | nil => simp [insertDown]
  | cons y ys ih =>
    obtain ⟨hy, hys⟩ := List.pairwise_cons.1 hs
    have htail : Linear less (x :: ys) :=
      ⟨fun a ha b hb c hc => h.trans a (by grind) b (by grind) c (by grind),
        fun a ha b hb => h.total a (by grind) b (by grind)⟩
    rw [insertDown]
    split
    · next hlt =>
      refine List.pairwise_cons.2 ⟨fun z hz => ?_, ih htail hys⟩
      rcases List.mem_cons.1 ((perm_insertDown less x ys).mem_iff.1 hz) with rfl | hz
      · rcases h.total z (by simp) y (by simp) with hle | hle
        · exact hle
        · rw [hle] at hlt
          cases hlt
      · exact hy z hz
    · next hge =>
      have hxy : less x y = false := by simpa using hge
      refine List.pairwise_cons.2 ⟨fun z hz => ?_, hs⟩
      rcases List.mem_cons.1 hz with rfl | hz'
      · exact hxy
      · exact h.trans z (by simp [hz']) y (by simp) x (by simp) (hy z hz') hxy

theorem pairwise_foldl_insertDown {sorted : List α} (h : Linear less (xs ++ sorted))
    (hs : sorted.Pairwise fun a b => less a b = false) :
    (xs.foldl (fun sorted x => insertDown less x sorted) sorted).Pairwise
      fun a b => less a b = false := by
  induction xs generalizing sorted with
  | nil => exact hs
  | cons x xs ih =>
    have hmem (a : α) (ha : a ∈ xs ++ insertDown less x sorted) : a ∈ x :: xs ++ sorted := by
      rw [List.mem_append, (perm_insertDown less x sorted).mem_iff] at ha
      simp only [List.mem_cons, List.mem_append, List.cons_append] at ha ⊢
      tauto
    refine ih ⟨fun a ha b hb c hc => h.trans a (hmem a ha) b (hmem b hb) c (hmem c hc),
      fun a ha b hb => h.total a (hmem a ha) b (hmem b hb)⟩ (pairwise_insertDown ?_ hs)
    have hsub (a : α) (ha : a ∈ x :: sorted) : a ∈ x :: xs ++ sorted := by
      simp only [List.mem_cons, List.mem_append, List.cons_append] at ha ⊢
      tauto
    exact ⟨fun a ha b hb c hc => h.trans a (hsub a ha) b (hsub b hb) c (hsub c hc),
      fun a ha b hb => h.total a (hsub a ha) b (hsub b hb)⟩

/-- In a sorted list no member comes after a greater one. -/
theorem pairwise_stableSort (h : Linear less xs) :
    (stableSort less xs).Pairwise fun a b => less b a = false := by
  unfold stableSort
  split
  · rw [insertionSort, List.pairwise_reverse]
    exact pairwise_foldl_insertDown (by simpa using h) .nil
  · -- the order is linear on the members only, so they are sorted as members
    have hmap : xs.mergeSort (fun a b => !less b a) =
        (xs.attach.mergeSort fun a b => !less b.1 a.1).map Subtype.val := by
      rw [List.map_mergeSort (s := fun a b => !less b a) fun a _ b _ => rfl,
        List.attach_map_subtype_val]
    rw [hmap, List.pairwise_map]
    refine (@List.pairwise_mergeSort {x // x ∈ xs} (fun a b => !less b.1 a.1) ?_ ?_ _).imp
      fun h => by simpa using h
    · intro a b c hab hbc
      have := h.trans a a.2 b b.2 c c.2
      simp_all
    · intro a b
      have := h.total a a.2 b b.2
      simpa using this

end RelPlan

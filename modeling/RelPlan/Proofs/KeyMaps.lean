import RelPlan.Join.Hash
import RelPlan.Proofs.SameKeys

/-!
# Maps from keys

Being the same key is an equivalence, so a map is a function of keys up to it that `upsert` changes
at one place (`KeyMap.find?_upsert`).  A hash table therefore holds for each key the rows that came
with the same key, in their order (`HashTable.lookup_foldl`).  Exact keys are the same key only if
they are equal, and where no equal keys hash differently all that are equal are the same key
(`Unrounded.sameKeys_eq`).
-/

namespace RelPlan

variable {α : Type} {key other vs ws : List Value}

theorem sameKeys_iff (hv : ∀ v ∈ vs, v.isExact) (hw : ∀ w ∈ ws, w.isExact) :
    sameKeys vs ws ↔ vs = ws := by
  have hcanon {vs : List Value} (hv : ∀ v ∈ vs, v.isExact) : vs.map Value.canon = vs :=
    (List.map_congr_left fun v h => Value.canon_of_exact (hv v h)).trans (List.map_id vs)
  rw [sameKeys_iff_canon, hcanon hv, hcanon hw]

theorem sameKeys_comm (vs ws : List Value) : sameKeys vs ws = sameKeys ws vs :=
  Bool.eq_iff_iff.2 (by rw [sameKeys_iff_canon, sameKeys_iff_canon, eq_comm])

theorem sameKeys_congr {us : List Value} (h : sameKeys us vs) : sameKeys us ws = sameKeys vs ws :=
  Bool.eq_iff_iff.2 (by
    rw [sameKeys_iff_canon, sameKeys_iff_canon, sameKeys_iff_canon.1 h])

namespace KeyMap

variable {f : Option α → α} {es : List (List Value × α)} {m : KeyMap α}

theorem mem_upsertEntry {e : List Value × α} (h : e ∈ upsertEntry key f es) :
    e ∈ es ∨ ∃ o : Option (List Value × α), (∀ d ∈ o, d ∈ es) ∧
      e = ((o.map (·.1)).getD key, f (o.map (·.2))) := by
  induction es with
  | nil =>
    obtain rfl := List.mem_singleton.1 h
    exact .inr ⟨none, by simp, rfl⟩
  | cons d es ih =>
    rw [upsertEntry] at h
    split at h
    · rcases List.mem_cons.1 h with rfl | h
      · exact .inr ⟨some d, by simp, rfl⟩
      · exact .inl (List.mem_cons_of_mem _ h)
    · rcases List.mem_cons.1 h with rfl | h
      · exact .inl List.mem_cons_self
      · rcases ih h with h | ⟨o, ho, he⟩
        · exact .inl (List.mem_cons_of_mem _ h)
        · exact .inr ⟨o, fun d hd => List.mem_cons_of_mem _ (ho d hd), he⟩

theorem find?_upsertEntry (key other : List Value) (f : Option α → α)
    (es : List (List Value × α)) :
    ((upsertEntry key f es).find? fun e => sameKeys e.1 other).map (·.2) =
      if sameKeys key other then some (f ((es.find? fun e => sameKeys e.1 key).map (·.2)))
      else (es.find? fun e => sameKeys e.1 other).map (·.2) := by
  induction es with
  | nil => by_cases h : sameKeys key other <;> simp [upsertEntry, h]
  | cons e es ih =>
    rw [upsertEntry]
    by_cases h₁ : sameKeys e.1 key
    · have hsame : sameKeys e.1 other = sameKeys key other := sameKeys_congr h₁
      by_cases h₂ : sameKeys key other <;> simp [h₁, h₂, hsame]
    · by_cases h₃ : sameKeys e.1 other
      · have h₂ : ¬ sameKeys key other := fun h => h₁ (by
          rw [sameKeys_congr h₃, sameKeys_comm, h])
        simp [h₁, h₂, h₃]
      · simpa [h₁, h₃] using ih

theorem entries_empty (key : List Value) : ({} : KeyMap α).entries key = [] := by
  simp [entries]

/-- An upsert changes what the map holds for its key, and nothing else. -/
theorem find?_upsert (m : KeyMap α) (key other : List Value) (f : Option α → α) :
    (m.upsert key f).find? other =
      if sameKeys key other then some (f (m.find? key)) else m.find? other := by
  unfold find?
  rw [entries_upsert]
  split
  · next hslot =>
    have hentries : m.entries key = m.entries other := by rw [entries, entries, hslot]
    rw [find?_upsertEntry, hentries]
  · next hslot => rw [if_neg fun h => hslot (slot_eq h)]

theorem contains_empty (key : List Value) : ({} : KeyMap α).contains key = false := by
  simp [contains, find?, entries_empty]

theorem contains_upsert (m : KeyMap α) (key other : List Value) (f : Option α → α) :
    (m.upsert key f).contains other = (sameKeys key other || m.contains other) := by
  simp only [contains, find?_upsert]
  split <;> simp_all

end KeyMap

namespace HashTable

variable {table : HashTable} {x : Keyed} {xs : List Keyed}

theorem lookup_empty (key : List Value) : ({} : HashTable).lookup key = [] := by
  simp [lookup, KeyMap.find?, KeyMap.entries_empty]

theorem lookup_congr (h : sameKeys key other) (table : HashTable) :
    table.lookup key = table.lookup other := by
  have hentries : table.groups.entries key = table.groups.entries other := by
    rw [KeyMap.entries, KeyMap.entries, KeyMap.slot_eq h]
  have hsame : (fun e : List Value × List Row => sameKeys e.1 key) = fun e => sameKeys e.1 other :=
    funext fun e => by rw [sameKeys_comm, sameKeys_congr h, sameKeys_comm]
  simp only [lookup, KeyMap.find?, hentries, hsame]

theorem lookup_add (table : HashTable) (x : Keyed) (key : List Value) :
    (table.add x).lookup key =
      table.lookup key ++ if sameKeys x.key key then [x.row] else [] := by
  by_cases h : sameKeys x.key key
  · rw [← lookup_congr h table]
    simp [lookup, add, KeyMap.find?_upsert, h]
  · simp [lookup, add, KeyMap.find?_upsert, h]

/-- A table holds for each key the rows that were added with the same key, in order. -/
theorem lookup_foldl (table : HashTable) (xs : List Keyed) (key : List Value) :
    (xs.foldl (fun table x => table.add x) table).lookup key =
      table.lookup key ++ (xs.filter fun x => sameKeys x.key key).map Keyed.row := by
  induction xs generalizing table with
  | nil => simp
  | cons x xs ih =>
    rw [List.foldl_cons, ih, lookup_add, List.append_assoc]
    by_cases h : sameKeys x.key key <;> simp [h]

theorem lookup_foldl_of_exact (table : HashTable) (hx : ∀ x ∈ xs, ∀ v ∈ x.key, v.isExact)
    (hk : ∀ v ∈ key, v.isExact) :
    (xs.foldl (fun table x => table.add x) table).lookup key =
      table.lookup key ++ (xs.filter fun x => x.key = key).map Keyed.row := by
  rw [lookup_foldl]
  congr 2
  exact List.filter_congr fun x hmem =>
    Bool.eq_iff_iff.2 (by simpa using sameKeys_iff (hx x hmem) hk)

end HashTable

end RelPlan

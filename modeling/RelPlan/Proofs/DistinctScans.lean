import RelPlan.Proofs.KeyMaps
import RelPlan.Proofs.Records

/-!
# Scans without repetitions

Dropping every row that has the key of a row before it shows the first record of each key
(`shows_distinct`), and the key of a record is its cells in canonical form.  Where a condition does
not tell records of one key apart, the keys that meet it are the same whether records are dropped
before or after (`perm_map_filter_firstOfKeys`).
-/

namespace RelPlan

section
variable {α κ : Type} [DecidableEq κ]

theorem nodup_eraseDups (xs : List κ) : xs.eraseDups.Nodup := by
  induction hn : xs.length using Nat.strongRecOn generalizing xs with
  | _ n ih =>
    subst hn
    cases xs with
    | nil => simp
    | cons x xs =>
      rw [List.eraseDups_cons, List.nodup_cons]
      refine ⟨by simp [List.mem_eraseDups], ih _ ?_ _ rfl⟩
      exact Nat.lt_succ_of_le (List.length_filter_le _ _)

theorem eraseDupsBy_subset (r : α → α → Bool) (xs : List α) : xs.eraseDupsBy r ⊆ xs := by
  induction hn : xs.length using Nat.strongRecOn generalizing xs with
  | _ n ih =>
    subst hn
    cases xs with
    | nil => simp
    | cons x xs =>
      rw [List.eraseDupsBy_cons]
      refine List.cons_subset_cons _ fun y hy => List.mem_of_mem_filter (ih _ ?_ _ rfl hy)
      exact Nat.lt_succ_of_le (List.length_filter_le _ _)

theorem eraseDupsBy_congr {r r' : α → α → Bool} {xs : List α}
    (h : ∀ x ∈ xs, ∀ y ∈ xs, r x y = r' x y) : xs.eraseDupsBy r = xs.eraseDupsBy r' := by
  induction hn : xs.length using Nat.strongRecOn generalizing xs with
  | _ n ih =>
    subst hn
    cases xs with
    | nil => rfl
    | cons x xs =>
      rw [List.eraseDupsBy_cons, List.eraseDupsBy_cons]
      have hx : (xs.filter fun y => r y x = false) = xs.filter fun y => r' y x = false :=
        List.filter_congr fun y hy => by rw [h y (List.mem_cons_of_mem _ hy) x List.mem_cons_self]
      rw [hx, ih _ (Nat.lt_succ_of_le (List.length_filter_le _ _)) (fun y hy z hz => ?_) rfl]
      exact h y (List.mem_cons_of_mem _ (List.mem_of_mem_filter hy)) z
        (List.mem_cons_of_mem _ (List.mem_of_mem_filter hz))

/-- The members that do not have the key of a member before them. -/
def firstOfKeys (key : α → κ) (xs : List α) : List α := xs.eraseDupsBy fun y x => key y == key x

theorem firstOfKeys_cons (key : α → κ) (x : α) (xs : List α) :
    firstOfKeys key (x :: xs) = x :: firstOfKeys key (xs.filter fun y => key y ≠ key x) := by
  rw [firstOfKeys, List.eraseDupsBy_cons, firstOfKeys]
  congr 3
  funext y
  by_cases h : key y = key x <;> simp [h]

theorem map_firstOfKeys (key : α → κ) (xs : List α) :
    (firstOfKeys key xs).map key = (xs.map key).eraseDups := by
  induction hn : xs.length using Nat.strongRecOn generalizing xs with
  | _ n ih =>
    subst hn
    cases xs with
    | nil => rfl
    | cons x xs =>
      rw [firstOfKeys_cons, List.map_cons, List.map_cons, List.eraseDups_cons,
        ih _ (Nat.lt_succ_of_le (List.length_filter_le _ _)) _ rfl, List.filter_map]
      congr 4
      funext y
      by_cases h : key y = key x <;> simp [h]

theorem firstOfKeys_eq_eraseDups [DecidableEq α] {key : α → κ} {xs : List α}
    (h : ∀ x ∈ xs, ∀ y ∈ xs, key x = key y → x = y) : firstOfKeys key xs = xs.eraseDups :=
  eraseDupsBy_congr fun x hx y hy => by
    rw [Bool.eq_iff_iff, beq_iff_eq, beq_iff_eq]
    exact ⟨h x hx y hy, congrArg key⟩

theorem mem_map_filter_firstOfKeys {key : α → κ} {xs : List α} {p : α → Bool}
    (hp : ∀ x ∈ xs, ∀ y ∈ xs, key x = key y → p x → p y) {k : κ} :
    k ∈ ((firstOfKeys key xs).filter p).map key ↔ k ∈ (xs.filter p).map key := by
  simp only [List.mem_map, List.mem_filter]
  constructor
  · rintro ⟨x, ⟨hx, hpx⟩, rfl⟩
    exact ⟨x, ⟨eraseDupsBy_subset _ xs hx, hpx⟩, rfl⟩
  · rintro ⟨x, ⟨hx, hpx⟩, rfl⟩
    have hkey : key x ∈ (firstOfKeys key xs).map key := by
      rw [map_firstOfKeys, List.mem_eraseDups]
      exact List.mem_map_of_mem hx
    obtain ⟨y, hy, hyx⟩ := List.mem_map.1 hkey
    exact ⟨y, ⟨hy, hp x hx y (eraseDupsBy_subset _ xs hy) hyx.symm hpx⟩, hyx⟩

/-- What remains of lists without repeated keys has the same keys if it is the same with them. -/
theorem perm_map_filter_firstOfKeys {key : α → κ} {xs ys : List α} {p q : α → Bool}
    (hp : ∀ x ∈ xs, ∀ y ∈ xs, key x = key y → p x → p y)
    (hq : ∀ x ∈ ys, ∀ y ∈ ys, key x = key y → q x → q y) (h : (xs.filter p).Perm (ys.filter q)) :
    (((firstOfKeys key xs).filter p).map key).Perm (((firstOfKeys key ys).filter q).map key) := by
  have hnodup (zs : List α) (r : α → Bool) : (((firstOfKeys key zs).filter r).map key).Nodup :=
    (map_firstOfKeys key zs ▸ nodup_eraseDups _).sublist (List.filter_sublist.map key)
  -- which member of a key is kept differs between the lists, but each key is left at most once
  refine (List.perm_ext_iff_of_nodup (hnodup xs p) (hnodup ys q)).2 fun k => ?_
  rw [mem_map_filter_firstOfKeys hp, mem_map_filter_firstOfKeys hq]
  exact (h.map key).mem_iff

theorem perm_eraseDups_filter {xs ys : List κ} {p q : κ → Bool}
    (h : (xs.filter p).Perm (ys.filter q)) :
    (xs.eraseDups.filter p).Perm (ys.eraseDups.filter q) := by
  have heq (zs : List κ) : firstOfKeys id zs = zs.eraseDups :=
    firstOfKeys_eq_eraseDups fun _ _ _ _ => id
  have hsame {zs : List κ} {r : κ → Bool} : ∀ x ∈ zs, ∀ y ∈ zs, id x = id y → r x → r y := by
    rintro x - y - rfl hx
    exact hx
  have hkeys := perm_map_filter_firstOfKeys hsame hsame h
  rwa [List.map_id, List.map_id, heq, heq] at hkeys

end

/-- The cells of a record in canonical form. -/
def Record.key (x : Record) : List (Option Value) := x.cells.map (Option.map Value.canon)

theorem Record.Fits.key {columns : List Column} {x : Record} (h : x.Fits columns) :
    x.key = x.cells := by
  refine (List.map_congr_left fun c hc => ?_).trans (List.map_id _)
  cases c with
  | none => rfl
  | some v => exact congrArg some (Value.canon_of_exact (h.exact v hc))

theorem Row.key_record (row : Row) : row.record.key = row.values.map (some ∘ Value.canon) := by
  simp [Record.key, record]

theorem Row.sameKeys_iff_key {row row' : Row} :
    sameKeys row.values row'.values ↔ row.record.key = row'.record.key := by
  rw [sameKeys_iff_canon, key_record, key_record, ← List.map_map, ← List.map_map,
    List.map_inj_right fun _ _ => Option.some.inj]

/-- The rows that remain when each one is dropped whose key agrees with that of one before it. -/
theorem Scan.drain_distinct {α : Type} (key : α → List Value) (seen : KeyMap Unit) (s : Scan α) :
    (s.distinct key seen).drain = ⟨s.drain.notes, (fun as =>
      (as.filter fun a => !seen.contains (key a)).eraseDupsBy
        fun b a => sameKeys (key b) (key a)) <$> s.drain.result⟩ := by
  induction s generalizing seen with
  | done => rfl
  | fail e => rfl
  | note n s ih => simp [Scan.distinct, ih]
  | row a s ih =>
    rw [Scan.distinct]
    split
    · next hin =>
      rw [ih, drain_row]
      cases (s ()).drain.result <;> simp [hin]
    · next hout =>
      rw [drain_row, ih, drain_row]
      cases (s ()).drain.result with
      | error e => rfl
      | ok as =>
        simp [hout, List.eraseDupsBy_cons, List.filter_filter, KeyMap.contains_upsert,
          sameKeys_comm (key a)]

variable {columns : List Column} {T : List Record} {seen : KeyMap Unit}

/-- The map holds the keys, and no others. -/
def KeyMap.Marks (seen : KeyMap Unit) (K : List (List (Option Value))) : Prop :=
  ∀ row : Row, seen.contains row.values ↔ row.record.key ∈ K

theorem KeyMap.marks_empty : ({} : KeyMap Unit).Marks [] := fun _ => by simp [contains_empty]

theorem KeyMap.Marks.upsert {K : List (List (Option Value))} (h : seen.Marks K) (row : Row) :
    (seen.upsert row.values fun _ => ()).Marks (row.record.key :: K) := by
  intro row'
  rw [contains_upsert, Bool.or_eq_true, List.mem_cons, h row', Row.sameKeys_iff_key, eq_comm]

theorem shows_distinct {s : Scan Row} {K : List (List (Option Value))}
    (hs : s.Shows (Row.Stands columns) T) (hseen : seen.Marks K) :
    (s.distinct Row.values seen).Shows (Row.Stands columns)
      (firstOfKeys Record.key (T.filter fun x => x.key ∉ K)) := by
  induction hs generalizing seen K with
  | done => exact .done
  | fail e T => exact .fail e _
  | note _ ih => exact .note (ih hseen)
  | @row row x s T hrow _ ih =>
    have hmem := hseen row
    rw [hrow.2] at hmem
    rw [Scan.distinct]
    split
    · next hin =>
      rw [List.filter_cons_of_neg (by simpa using hmem.1 hin)]
      exact ih hseen
    · next hout =>
      rw [List.filter_cons_of_pos (by simpa using mt hmem.2 hout), firstOfKeys_cons]
      refine .row hrow ?_
      -- the key of this row is marked for the rest, which the recursion on `firstOfKeys` filters
      have hrest := ih (hseen.upsert row)
      rw [hrow.2] at hrest
      have hfilter : ((T.filter fun x => x.key ∉ K).filter fun y => y.key ≠ x.key) =
          T.filter fun y => y.key ∉ x.key :: K := by
        rw [List.filter_filter]
        refine List.filter_congr fun y _ => ?_
        by_cases h : y.key = x.key <;> simp [h]
      rw [hfilter]
      exact hrest

theorem shows_distinct_empty {s : Scan Row} (hs : s.Shows (Row.Stands columns) T) :
    (s.distinct Row.values {}).Shows (Row.Stands columns) (firstOfKeys Record.key T) := by
  have h := shows_distinct hs KeyMap.marks_empty
  simpa using h

end RelPlan

import RelPlan.Proofs.AccessRows
import RelPlan.Proofs.IndexUndo
import RelPlan.Proofs.SortedIndexes

/-!
# Hashed indexes as lists

Whatever rows come and go, a hashed index keeps a list of tids with their values, in buckets whose
order does not matter (`Keeps`).  A hash that is the same for values that are equal in a comparison
decides only where to look, so a lookup gives the tids of the values equal to the probe, however
values collide (`run_lookup`).
-/

namespace RelPlan

open scoped List

namespace HashedIndex

open OrderedIndex (Call run)

/-- What the index keeps of a row. -/
def pairOf (i : HashedIndex) (row : Row) : Result (Nat × Value) := do
  let tid ← row.requireTid
  return (tid, ← i.valueOf row)

def step (i : HashedIndex) : Call → HashedIndex × Result Bool
  | .insert row =>
    match i.insert row with
    | .ok i => (i, .ok true)
    | .error e => (i, .error e)
  | .delete row =>
    match i.delete row with
    | .ok (i, found) => (i, .ok found)
    | .error e => (i, .error e)

/-- The call on the list of what is kept. -/
def stepList (i : HashedIndex) (xs : List (Nat × Value)) (c : Call) :
    List (Nat × Value) × Result Bool :=
  match i.pairOf c.row, c with
  | .error e, _ => (xs, .error e)
  | .ok x, .insert _ => (xs ++ [x], .ok true)
  | .ok x, .delete _ => (xs.erase x, .ok (x ∈ xs))

/-- A tid that comes is not there, and one that goes has the value with which it came. -/
def IsFair (i : HashedIndex) (xs : List (Nat × Value)) : Call → Prop
  | .insert row => ∀ x ∈ (i.pairOf row).toOption, ∀ y ∈ xs, y.1 ≠ x.1
  | .delete row => ∀ x ∈ (i.pairOf row).toOption, ∀ y ∈ xs, y.1 = x.1 → y = x

def FairRun (i : HashedIndex) : List Call → List (Nat × Value) → Prop
  | [], _ => True
  | c :: cs, xs => i.IsFair xs c ∧ FairRun i cs (i.stepList xs c).1

instance (i : HashedIndex) (xs : List (Nat × Value)) : (c : Call) → Decidable (i.IsFair xs c)
  | .insert row => inferInstanceAs (Decidable (∀ x ∈ (i.pairOf row).toOption, ∀ y ∈ xs, y.1 ≠ x.1))
  | .delete row =>
    inferInstanceAs (Decidable (∀ x ∈ (i.pairOf row).toOption, ∀ y ∈ xs, y.1 = x.1 → y = x))

instance (i : HashedIndex) : (cs : List Call) → (xs : List (Nat × Value)) →
    Decidable (i.FairRun cs xs)
  | [], _ => .isTrue trivial
  | c :: cs, xs =>
    have := instDecidableFairRun i cs (i.stepList xs c).1
    inferInstanceAs (Decidable (_ ∧ _))

variable {i j : HashedIndex} {xs : List (Nat × Value)} {x : Nat × Value} {row : Row} {c : Call}
  {e : QueryError}

theorem pairOf_eq_ok :
    i.pairOf row = .ok x ↔ row.requireTid = .ok x.1 ∧ i.valueOf row = .ok x.2 := by
  obtain ⟨tid, v⟩ := x
  unfold pairOf
  cases row.requireTid <;> cases i.valueOf row <;> simp

theorem insert_of_pairOf_eq_error (h : i.pairOf row = .error e) : i.insert row = .error e := by
  unfold pairOf at h
  unfold insert
  cases ht : row.requireTid with
  | error e' => simpa [ht] using h
  | ok tid => cases hv : i.valueOf row <;> simp_all

theorem delete_of_pairOf_eq_error (h : i.pairOf row = .error e) : i.delete row = .error e := by
  unfold pairOf at h
  unfold delete
  cases ht : row.requireTid with
  | error e' => simpa [ht] using h
  | ok tid => cases hv : i.valueOf row <;> simp_all

/-- The index keeps what is on the list. -/
structure Keeps (i : HashedIndex) (xs : List (Nat × Value)) (j : HashedIndex) : Prop where
  blank : j.blank = i.blank
  placed : j.Placed
  pairs : j.pairs ~ xs
  distinct : (xs.map Prod.fst).Nodup
  size : j.size = xs.length
  full : j.Full

theorem blank_eq_iff : j.blank = i.blank ↔
    j.name = i.name ∧ j.key = i.key ∧ j.hash = i.hash ∧ j.keyType = i.keyType := by
  simp [blank]

theorem keeps_blank (i : HashedIndex) : i.Keeps [] i.blank :=
  ⟨rfl, ⟨.nil, by simp [blank]⟩, .nil, .nil, rfl, by simp [Full, blank]⟩

theorem pairOf_eq_of_blank (h : j.blank = i.blank) : j.pairOf = i.pairOf := by
  funext row
  simp only [pairOf, valueOf, (blank_eq_iff.1 h).2.1]

theorem Keeps.insert (h : i.Keeps xs j) (hx : i.pairOf row = .ok x) (hnew : ∀ y ∈ xs, y.1 ≠ x.1) :
    ∃ j', j.insert row = .ok j' ∧ i.Keeps (xs ++ [x]) j' := by
  obtain ⟨ht, hv⟩ := pairOf_eq_ok.1 (pairOf_eq_of_blank h.blank ▸ hx)
  refine ⟨_, insert_eq ht hv, h.blank, ?_, ?_, ?_, ?_, setBucket_full h.full⟩
  · exact (h.placed.insert (insert_eq ht hv)).1
  · calc _ ~ x :: j.pairs := j.pairs_insert_perm _ x
      _ ~ x :: xs := h.pairs.cons x
      _ ~ xs ++ [x] := (List.perm_append_singleton x xs).symm
  · rw [List.map_append, List.nodup_append_comm]
    refine List.nodup_cons.2 ⟨fun hmem => ?_, h.distinct⟩
    obtain ⟨y, hy, hyx⟩ := List.mem_map.1 hmem
    exact hnew y hy hyx
  · rw [List.length_append, ← h.size]
    rfl

theorem Keeps.delete (h : i.Keeps xs j) (hx : i.pairOf row = .ok x)
    (hold : ∀ y ∈ xs, y.1 = x.1 → y = x) :
    ∃ j', j.delete row = .ok (j', decide (x ∈ xs)) ∧ i.Keeps (xs.erase x) j' := by
  obtain ⟨ht, hv⟩ := pairOf_eq_ok.1 (pairOf_eq_of_blank h.blank ▸ hx)
  match hfind : (j.bucket (j.hash x.2)).findIdx? (·.1 = x.1) with
  | none =>
    have hmem : x ∉ xs := by
      intro hmem
      have hbucket := h.placed.mem_bucket_iff.2 ⟨h.pairs.mem_iff.2 hmem, rfl⟩
      simpa using List.findIdx?_eq_none_iff.1 hfind x hbucket
    refine ⟨j, by simp [HashedIndex.delete, ht, hv, hfind, hmem], ?_⟩
    rwa [List.erase_of_not_mem hmem]
  | some k =>
    obtain ⟨hk, htid, -⟩ := List.findIdx?_eq_some_iff_getElem.1 hfind
    -- among the rows that are there only the one that goes has its tid
    have hxk : (j.bucket (j.hash x.2))[k] = x := by
      refine hold _ (h.pairs.mem_iff.1 ?_) (by simpa using htid)
      exact mem_pairs_of_mem_bucket (List.getElem_mem hk)
    have hmem : x ∈ xs := by
      rw [← h.pairs.mem_iff, ← hxk]
      exact mem_pairs_of_mem_bucket (List.getElem_mem hk)
    have hdel := delete_eq ht hv hfind
    have hperm := j.pairs_erase_perm hk
    rw [hxk] at hperm
    rw [decide_eq_true hmem]
    refine ⟨_, hdel, h.blank, (h.placed.delete hdel).1, ?_, ?_, ?_, setBucket_full h.full⟩
    · exact (List.perm_cons x).1 (hperm.symm.trans (h.pairs.trans (List.perm_cons_erase hmem)))
    · exact (List.erase_sublist.map Prod.fst).nodup h.distinct
    · rw [List.length_erase_of_mem hmem, ← h.size]

theorem Keeps.step (h : i.Keeps xs j) (hfair : i.IsFair xs c) :
    ∃ xs' j' answer, i.stepList xs c = (xs', answer) ∧ j.step c = (j', answer) ∧
      i.Keeps xs' j' := by
  have hpair := pairOf_eq_of_blank h.blank
  unfold stepList HashedIndex.step
  cases c with
  | insert row =>
    dsimp only [Call.row]
    cases hx : i.pairOf row with
    | error e =>
      rw [insert_of_pairOf_eq_error (hpair ▸ hx)]
      exact ⟨_, _, _, rfl, rfl, h⟩
    | ok x =>
      obtain ⟨j', hj, h'⟩ := h.insert hx (hfair x (Expr.toOption_eq_some.2 hx))
      rw [hj]
      exact ⟨_, _, _, rfl, rfl, h'⟩
  | delete row =>
    dsimp only [Call.row]
    cases hx : i.pairOf row with
    | error e =>
      rw [delete_of_pairOf_eq_error (hpair ▸ hx)]
      exact ⟨_, _, _, rfl, rfl, h⟩
    | ok x =>
      obtain ⟨j', hj, h'⟩ := h.delete hx (hfair x (Expr.toOption_eq_some.2 hx))
      rw [hj]
      exact ⟨_, _, _, rfl, rfl, h'⟩

theorem Keeps.run {cs : List Call} (h : i.Keeps xs j) (hfair : i.FairRun cs xs) :
    ∃ xs' j' answers, OrderedIndex.run i.stepList cs xs = (xs', answers) ∧
      OrderedIndex.run HashedIndex.step cs j = (j', answers) ∧ i.Keeps xs' j' := by
  induction cs generalizing xs j with
  | nil => exact ⟨xs, j, [], rfl, rfl, h⟩
  | cons c cs ih =>
    obtain ⟨hf, hfs⟩ := hfair
    obtain ⟨xs₁, j₁, answer, hlist, hindex, h₁⟩ := h.step hf
    rw [hlist] at hfs
    obtain ⟨xs', j', answers, hlist', hindex', h'⟩ := ih h₁ hfs
    refine ⟨xs', j', answer :: answers, ?_, ?_, h'⟩
    · simp only [OrderedIndex.run, hlist, hlist']
    · simp only [OrderedIndex.run, hindex, hindex']

/-- A lookup goes to one bucket, in which all values stand that the probe hits. -/
theorem Keeps.scan {probe : Expr} {scope : Scope} {tids : List Nat} (h : i.Keeps xs j)
    (hhash : ∀ v w, v.compareSql w = .ok (some .eq) → i.hash v = i.hash w)
    (hscan : j.scan probe scope = .ok tids) :
    ∃ v, probe.eval scope = .ok v ∧
      tids ~ (xs.filter fun x => x.2.compareSql v = .ok (some .eq)).map Prod.fst := by
  obtain ⟨v, hv, rfl⟩ := scan_eq_ok hscan
  refine ⟨v, hv, ?_⟩
  have hbucket : (j.bucket (j.hash v)).filter (fun x => hits v x.2) ~
      xs.filter fun x => x.2.compareSql v = .ok (some .eq) := by
    simp only [hits_eq]
    refine (h.placed.filter_bucket_perm fun x _ hx => ?_).trans (h.pairs.filter _)
    rw [(blank_eq_iff.1 h.blank).2.2.1]
    exact hhash x.2 v (by simpa using hx)
  split
  · next hnull =>
    have hnone : xs.filter (fun x => x.2.compareSql v = .ok (some .eq)) = [] := by
      refine List.filter_eq_nil_iff.2 fun x _ => ?_
      simp [Value.compareSql, hnull]
    rw [hnone, List.map_nil]
  · exact hbucket.map Prod.fst

/-- Any calls on an empty index, none of which brings a tid that is there or takes one out with
another value, and any hash that is the same for values that are equal in a comparison: the index
answers as the list does and keeps what is on it, and a lookup gives each tid once whose value is
equal to the probe. -/
theorem run_lookup (i : HashedIndex) (cs : List Call) (hfair : i.FairRun cs [])
    (hhash : ∀ v w, v.compareSql w = .ok (some .eq) → i.hash v = i.hash w) :
    ∃ xs j answers, run i.stepList cs [] = (xs, answers) ∧ run step cs i.blank = (j, answers) ∧
      (j.pairs ~ xs ∧ (xs.map Prod.fst).Nodup ∧ j.size = xs.length ∧ ∀ b ∈ j.buckets, b.2 ≠ []) ∧
      ∀ probe scope tids, j.scan probe scope = .ok tids → ∃ v, probe.eval scope = .ok v ∧
        tids ~ (xs.filter fun x => x.2.compareSql v = .ok (some .eq)).map Prod.fst ∧ tids.Nodup ∧
        (v.isNull → tids = []) := by
  obtain ⟨xs, j, answers, hlist, hindex, h⟩ := (keeps_blank i).run hfair
  refine ⟨xs, j, answers, hlist, hindex, ⟨h.pairs, h.distinct, h.size, h.full⟩, ?_⟩
  intro probe scope tids hscan
  obtain ⟨v, hv, hperm⟩ := h.scan hhash hscan
  refine ⟨v, hv, hperm, ?_, fun hnull => ?_⟩
  · rw [hperm.nodup_iff]
    exact (List.filter_sublist.map Prod.fst).nodup h.distinct
  · simpa [Value.compareSql, hnull] using hperm

/-- Calls on values of several types that share a bucket: an entry takes the place of one that has
gone, a row without a tid is refused, and a missing value is kept. -/
def collisions : List Call :=
  let row (v : Value) (tid : Option Nat) : Row := ⟨[⟨some "t", "a", .any, true⟩], [v], tid, by simp⟩
  [.insert (row (.int 3) (some 0)), .insert (row .null (some 1)),
    .insert (row (.text "x") (some 2)), .delete (row (.int 3) (some 0)),
    .insert (row (.int 3) none), .insert (row (.int 3) (some 3)),
    .delete (row (.int 4) (some 7)), .insert (row (.int 3) (some 0))]

theorem run_lookup_collisions :
    let i : HashedIndex := { name := "i", key := .ref ⟨none, "a"⟩, hash := fun _ => .null }
    i.FairRun collisions [] ∧
      (∀ v w, v.compareSql w = .ok (some .eq) → i.hash v = i.hash w) ∧
      (run step collisions i.blank).1.scan (.const (.int 3)) .empty = .ok [3, 0] ∧
      ∃ xs j answers, run i.stepList collisions [] = (xs, answers) ∧
        run step collisions i.blank = (j, answers) ∧
        (j.pairs ~ xs ∧ (xs.map Prod.fst).Nodup ∧ j.size = xs.length ∧
          ∀ b ∈ j.buckets, b.2 ≠ []) ∧
        ∀ probe scope tids, j.scan probe scope = .ok tids → ∃ v, probe.eval scope = .ok v ∧
          tids ~ (xs.filter fun x => x.2.compareSql v = .ok (some .eq)).map Prod.fst ∧ tids.Nodup ∧
          (v.isNull → tids = []) := by
  intro i
  have hfair : i.FairRun collisions [] := by decide
  have hhash : ∀ v w, v.compareSql w = .ok (some .eq) → i.hash v = i.hash w := fun _ _ _ => rfl
  exact ⟨hfair, hhash, by decide, run_lookup i collisions hfair hhash⟩

end HashedIndex

end RelPlan

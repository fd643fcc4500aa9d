import RelPlan.Proofs.IndexRows

/-!
# Insertions taken back

An entry that was just put into an index is found again where it was put, whatever the order of the
values does, and taking it out leaves the index with the contents it had: the tree with its slots,
the buckets with the order in them (`Index.delete_of_insert`).  Only the list of free slots may have
grown.
-/

namespace RelPlan

theorem Tree.erase_insert {t : Tree} {x : Entry} (hnew : ∀ y ∈ t.toList, y.tid ≠ x.tid)
    (slot : Nat) : (t.insert slot x).erase x.key x.tid = some (t, slot) := by
  induction t with
  | leaf => simp [insert, erase, removeRoot]
  | node s l e r ihl ihr =>
    simp only [toList, List.mem_append, List.mem_cons] at hnew
    have hl := ihl fun y hy => hnew y (.inl hy)
    have hr := ihr fun y hy => hnew y (.inr (.inr hy))
    have he : e.tid ≠ x.tid := hnew e (.inr (.inl rfl))
    cases hcmp : orderKeys x.key e.key <;> simp [insert, erase, hcmp, hl, hr, he]

namespace HashedIndex

variable {b : BucketKey} {es : List (Nat × Value)} {bs : List (BucketKey × List (Nat × Value))}

theorem lookup_setBucket (hes : es ≠ []) : (setBucket b es bs).lookup b = some es := by
  induction bs with
  | nil => simp [setBucket, hes]
  | cons d bs ih =>
    simp only [setBucket]
    split
    · simp [hes]
    · next hbd => rw [List.lookup_cons, beq_false_of_ne hbd, ih]

theorem setBucket_restore (hes : es ≠ []) (hfull : ∀ c ∈ bs, c.2 ≠ []) :
    setBucket b ((bs.lookup b).getD []) (setBucket b es bs) = bs := by
  induction bs with
  | nil => simp [setBucket, hes]
  | cons d bs ih =>
    obtain ⟨d, ds⟩ := d
    obtain ⟨hds, hbs⟩ := List.forall_mem_cons.1 hfull
    by_cases hbd : b = d
    · subst hbd
      simp [setBucket, hes, hds]
    · rw [List.lookup_cons, beq_false_of_ne hbd]
      simp [setBucket, hbd, ih hbs]

theorem swapErase_concat {α : Type} (xs : List α) (x : α) :
    swapErase (xs ++ [x]) xs.length = xs := by
  simp [swapErase]

/-- No bucket is kept without entries. -/
def Full (i : HashedIndex) : Prop := ∀ b ∈ i.buckets, b.2 ≠ []

theorem setBucket_full (h : ∀ c ∈ bs, c.2 ≠ []) : ∀ c ∈ setBucket b es bs, c.2 ≠ [] := by
  induction bs with
  | nil =>
    simp only [setBucket]
    split
    · simp
    · next hes => simpa using hes
  | cons d bs ih =>
    obtain ⟨hd, hbs⟩ := List.forall_mem_cons.1 h
    simp only [setBucket]
    split
    · split
      · exact hbs
      · next hes => exact List.forall_mem_cons.2 ⟨by simpa using hes, hbs⟩
    · exact List.forall_mem_cons.2 ⟨hd, ih hbs⟩

/-- Only the bucket of the new entry has changed, and there it stands last. -/
theorem delete_of_insert {i i' : HashedIndex} {row : Row} (hins : i.insert row = .ok i')
    (hnew : ∀ y ∈ i.pairs, row.tid ≠ some y.1) (hfull : i.Full) :
    i'.delete row = .ok (i, true) := by
  obtain ⟨tid, ht, hins⟩ := Result.bind_eq_ok.1 hins
  obtain ⟨v, hv, hins⟩ := Result.bind_eq_ok.1 hins
  cases hins
  let added : HashedIndex := { i with
    buckets := setBucket (i.hash v) (i.bucket (i.hash v) ++ [(tid, v)]) i.buckets
    size := i.size + 1 }
  have hne : i.bucket (i.hash v) ++ [(tid, v)] ≠ [] := by simp
  have hbucket : added.bucket (i.hash v) = i.bucket (i.hash v) ++ [(tid, v)] := by
    rw [bucket, lookup_setBucket hne, Option.getD_some]
  have hnone : (i.bucket (i.hash v)).findIdx? (·.1 = tid) = none := by
    refine List.findIdx?_eq_none_iff.2 fun y hy => ?_
    have hy := hnew y (mem_pairs_of_mem_bucket hy)
    rw [Row.requireTid_eq_ok.1 ht] at hy
    simpa [eq_comm] using hy
  have hfound : (added.bucket (i.hash v)).findIdx? (·.1 = tid) =
      some (i.bucket (i.hash v)).length := by
    rw [hbucket, List.findIdx?_append, hnone]
    simp
  have hdel := delete_eq (i := added) ht hv hfound
  rw [hbucket, swapErase_concat] at hdel
  have hrestore := setBucket_restore (b := i.hash v) hne hfull
  have hbuckets : setBucket (added.hash v) (i.bucket (i.hash v)) added.buckets = i.buckets :=
    hrestore
  rw [hbuckets] at hdel
  exact hdel

end HashedIndex

/-- The index without its list of free slots, which nothing but an insertion reads. -/
def OrderedIndex.content (i : OrderedIndex) : OrderedIndex := { i with free := [], capacity := 0 }

theorem OrderedIndex.content_eq_iff {i i' : OrderedIndex} : i'.content = i.content ↔
    i'.blank = i.blank ∧ i'.tree = i.tree ∧ i'.size = i.size := by
  simp [content, blank_eq_iff, and_assoc]

theorem OrderedIndex.delete_of_insert {i i' : OrderedIndex} {row : Row}
    (hins : i.insert row = .ok i') (hnew : ∀ y ∈ i.tree.toList, row.tid ≠ some y.tid) :
    ∃ i'', i'.delete row = .ok (i'', true) ∧ i''.content = i.content := by
  rw [insert_eq] at hins
  obtain ⟨x, hx, hins⟩ := Result.bind_eq_ok.1 hins
  split at hins <;> cases hins
  obtain ⟨slot, hslot⟩ := i.tree_add x
  have herase : (i.add x).tree.erase x.key x.tid = some (i.tree, slot) := by
    rw [hslot]
    refine Tree.erase_insert (fun y hy heq => hnew y hy ?_) slot
    rw [(entryOf_eq_ok.1 hx).1, heq]
  have hentry : (i.add x).entryOf row = .ok x := by
    rw [entryOf_eq_of_blank (i.blank_add x), hx]
  refine ⟨{ i.add x with
    tree := i.tree, free := slot :: (i.add x).free, size := (i.add x).size - 1 }, ?_, ?_⟩
  · simp [delete_eq, hentry, herase]
  · unfold add
    split <;> rfl

namespace BaseIndex

variable {i i' : BaseIndex} {row : Row} {x : Entry}

def content : BaseIndex → BaseIndex
  | ordered i => ordered i.content
  | hashed i => hashed i

/-- A hashed index keeps no bucket without entries. -/
def Full : BaseIndex → Prop
  | ordered _ => True
  | hashed i => i.Full

theorem scan_content (i : BaseIndex) (probe : Probe) (scope : Scope) :
    i.content.scan probe scope = i.scan probe scope := by
  cases i <;> cases probe <;> rfl

theorem entries_content (i : BaseIndex) : i.content.entries = i.entries := by
  cases i <;> rfl

theorem blank_content (i : BaseIndex) : i.content.blank = i.blank := by
  cases i <;> rfl

theorem size_content (i : BaseIndex) : i.content.size = i.size := by
  cases i <;> rfl

theorem delete_of_insert (hins : i.insert row = .ok i')
    (hnew : ∀ x ∈ i.entries, row.tid ≠ some x.tid) (hfull : i.Full) :
    ∃ i'', i'.delete row = .ok (i'', true) ∧ i''.content = i.content := by
  cases i with
  | ordered i =>
    obtain ⟨j, hj, rfl⟩ := Result.map_eq_ok.1 hins
    obtain ⟨i'', hdel, hcontent⟩ := OrderedIndex.delete_of_insert hj hnew
    exact ⟨ordered i'', by simp [delete, hdel], congrArg ordered hcontent⟩
  | hashed i =>
    obtain ⟨j, hj, rfl⟩ := Result.map_eq_ok.1 hins
    have hdel := HashedIndex.delete_of_insert hj
      (fun y hy => hnew _ (List.mem_map_of_mem hy)) hfull
    exact ⟨hashed i, by simp [delete, hdel], rfl⟩

end BaseIndex

namespace Index

variable {i i' : Index} {row : Row}

def content (i : Index) : Index := { i with base := i.base.content }

theorem content_eq_iff : i'.content = i.content ↔
    i'.condition = i.condition ∧ i'.base.content = i.base.content := by
  simp [content]

theorem scan_eq_of_content (h : i'.content = i.content) (probe : Probe) (scope : Scope) :
    i'.scan probe scope = i.scan probe scope := by
  have hscan := i'.base.scan_content probe scope
  rw [(content_eq_iff.1 h).2, BaseIndex.scan_content] at hscan
  exact hscan.symm

theorem delete_of_insert (hins : i.insert row = .ok i')
    (hnew : ∀ x ∈ i.entries, row.tid ≠ some x.tid) (hfull : i.base.Full) :
    ∃ i'' found, i'.delete row = .ok (i'', found) ∧ i''.content = i.content := by
  rcases insert_eq_ok.1 hins with ⟨hc, rfl⟩ | ⟨base, hc, hbase, rfl⟩
  · exact ⟨i', false, by simp [delete, hc], rfl⟩
  · obtain ⟨base', hdel, hcontent⟩ := BaseIndex.delete_of_insert hbase hnew hfull
    refine ⟨{ i with base := base' }, true, ?_, content_eq_iff.2 ⟨rfl, hcontent⟩⟩
    have hc' : covers { i with base } row = .ok true := hc
    simp [delete, hc', hdel]

end Index

/-- Indexes that refuse a row have the contents that they had before, and nobody complains. -/
theorem Table.insertEach_failed {row : Row} {is : List Index} {e : QueryError}
    (h : ∀ i ∈ is, (∀ x ∈ i.entries, row.tid ≠ some x.tid) ∧ i.base.Full)
    (he : (insertEach row is).2.result = .error e) :
    (insertEach row is).2.notes = [] ∧
      (insertEach row is).1.map Index.content = is.map Index.content := by
  induction is with
  | nil => cases he
  | cons i is ih =>
    obtain ⟨⟨hnew, hfull⟩, his⟩ := List.forall_mem_cons.1 h
    unfold insertEach at he ⊢
    match hins : i.insert row with
    | .error _ => exact ⟨rfl, rfl⟩
    | .ok i' =>
      obtain ⟨i'', found, hdel, hcontent⟩ := Index.delete_of_insert hins hnew hfull
      match heach : insertEach row is with
      | (js, ⟨notes, .ok ()⟩) => simp [hins, heach] at he
      | (js, ⟨notes, .error e'⟩) =>
        obtain ⟨hnotes, hjs⟩ := ih his (by simpa [hins, heach, hdel] using he)
        rw [heach] at hnotes hjs
        simp only [hdel]
        exact ⟨hnotes, by rw [List.map_cons, List.map_cons, hcontent, hjs]⟩

end RelPlan

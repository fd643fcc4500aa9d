import Mathlib.Data.List.Perm.Basic
import RelPlan.Index
import RelPlan.Proofs.Exactness
import RelPlan.Proofs.SearchTree

/-!
# The entries of an index

Whatever its kind, an index is read as the list of its entries.  Inserting a row adds its entry and
deleting it takes the entry out again, up to the order of the list; nothing else about the index
changes (`blank`).
-/

namespace RelPlan

open scoped List

namespace HashedIndex

variable {α : Type} {b c : BucketKey} {es es' : List (Nat × Value)}
  {bs : List (BucketKey × List (Nat × Value))}

theorem flatMap_setBucket_perm (b : BucketKey) (es : List (Nat × Value))
    (bs : List (BucketKey × List (Nat × Value))) :
    ((bs.lookup b).getD [] ++ (setBucket b es bs).flatMap (·.2)).Perm (es ++ bs.flatMap (·.2)) := by
  induction bs with
  | nil => cases es <;> simp [setBucket]
  | cons d bs ih =>
    obtain ⟨d, ds⟩ := d
    by_cases hbd : b = d
    · subst hbd
      cases es with
      | nil => simp [setBucket]
      | cons e es =>
        simpa [setBucket] using List.perm_append_comm_assoc ds (e :: es) (bs.flatMap (·.2))
    · have hlookup : ((d, ds) :: bs).lookup b = bs.lookup b := by
        simp [List.lookup_cons, beq_false_of_ne hbd]
      rw [hlookup]
      simp only [setBucket, if_neg hbd, List.flatMap_cons]
      calc (bs.lookup b).getD [] ++ (ds ++ (setBucket b es bs).flatMap (·.2))
        _ ~ ds ++ ((bs.lookup b).getD [] ++ (setBucket b es bs).flatMap (·.2)) :=
          List.perm_append_comm_assoc ..
        _ ~ ds ++ (es ++ bs.flatMap (·.2)) := ih.append_left ds
        _ ~ es ++ (ds ++ bs.flatMap (·.2)) := List.perm_append_comm_assoc ..

theorem mem_setBucket (h : (c, es') ∈ setBucket b es bs) : (c = b ∧ es' = es) ∨ (c, es') ∈ bs := by
  induction bs with
  | nil =>
    simp only [setBucket] at h
    split at h <;> simp_all
  | cons d bs ih =>
    simp only [setBucket] at h
    split at h
    · split at h
      · exact .inr (by simp [h])
      · rcases List.mem_cons.1 h with h | h
        · exact .inl (by simpa using h)
        · exact .inr (by simp [h])
    · rcases List.mem_cons.1 h with h | h
      · exact .inr (by simp [h])
      · exact (ih h).imp_right (by simp +contextual)

theorem nodup_setBucket (h : (bs.map Prod.fst).Nodup) :
    ((setBucket b es bs).map Prod.fst).Nodup := by
  induction bs with
  | nil => cases es <;> simp [setBucket]
  | cons d bs ih =>
    obtain ⟨hd, hbs⟩ := List.nodup_cons.1 h
    simp only [setBucket]
    split
    · next hbd =>
      split
      · exact hbs
      · subst hbd; exact h
    · next hbd =>
      refine List.nodup_cons.2 ⟨fun hmem => ?_, ih hbs⟩
      obtain ⟨⟨c, es'⟩, hc, hcd⟩ := List.mem_map.1 hmem
      rcases mem_setBucket hc with ⟨h, -⟩ | hc
      · exact hbd (h.symm.trans hcd)
      · exact hd (hcd ▸ List.mem_map_of_mem hc)

theorem swapErase_perm {xs : List α} {k : Nat} (hk : k < xs.length) :
    xs.Perm (xs[k] :: swapErase xs k) := by
  obtain ⟨init, last, rfl⟩ : ∃ init last, xs = init ++ [last] :=
    (List.eq_nil_or_concat' xs).resolve_left (by rintro rfl; simp at hk)
  simp only [swapErase, List.getLast?_append, List.getLast?_singleton, Option.some_or]
  rcases Nat.lt_or_eq_of_le (Nat.le_of_lt_succ (by simpa using hk)) with hlt | rfl
  · rw [List.set_append_left _ _ hlt, List.dropLast_concat, List.getElem_append_left hlt]
    have hset := List.set_perm_cons_eraseIdx hlt last
    have hget := List.getElem_cons_eraseIdx_perm hlt
    calc init ++ [last]
      _ ~ last :: init := List.perm_append_comm
      _ ~ last :: init[k] :: init.eraseIdx k := (hget.symm).cons last
      _ ~ init[k] :: last :: init.eraseIdx k := List.Perm.swap ..
      _ ~ init[k] :: init.set k last := hset.symm.cons _
  · simp

/-- Each bucket stands once, and holds entries of its own hash. -/
structure Placed (i : HashedIndex) : Prop where
  nodup : (i.buckets.map Prod.fst).Nodup
  hashed : ∀ b ∈ i.buckets, ∀ x ∈ b.2, i.hash x.2 = b.1

def pairs (i : HashedIndex) : List (Nat × Value) := i.buckets.flatMap (·.2)

variable {i : HashedIndex} {x : Nat × Value}

theorem mem_of_lookup (h : bs.lookup b = some es) : (b, es) ∈ bs := by
  induction bs with
  | nil => cases h
  | cons d bs ih =>
    rw [List.lookup_cons] at h
    split at h
    · next hbd =>
      obtain rfl : b = d.1 := by simpa using hbd
      cases h
      exact List.mem_cons_self
    · exact List.mem_cons_of_mem _ (ih h)

theorem lookup_of_mem (hbs : (bs.map Prod.fst).Nodup) (h : (b, es) ∈ bs) :
    bs.lookup b = some es := by
  induction bs with
  | nil => cases h
  | cons d bs ih =>
    obtain ⟨hd, hbs⟩ := List.nodup_cons.1 hbs
    rw [List.lookup_cons]
    rcases List.mem_cons.1 h with rfl | h
    · simp
    · have hne : b ≠ d.1 := fun hbd => hd (hbd ▸ List.mem_map_of_mem h)
      simp [beq_false_of_ne hne, ih hbs h]

theorem mem_pairs_of_mem_bucket (h : x ∈ i.bucket b) : x ∈ i.pairs := by
  unfold bucket at h
  match hl : i.buckets.lookup b with
  | some es => exact List.mem_flatMap.2 ⟨_, mem_of_lookup hl, by rwa [hl] at h⟩
  | none => rw [hl] at h; cases h

theorem insert_eq {row : Row} {tid : Nat} {v : Value} (ht : row.requireTid = .ok tid)
    (hv : i.valueOf row = .ok v) :
    i.insert row = .ok { i with
      buckets := HashedIndex.setBucket (i.hash v) (i.bucket (i.hash v) ++ [(tid, v)]) i.buckets
      size := i.size + 1 } := by
  simp [HashedIndex.insert, ht, hv]

theorem delete_eq {row : Row} {tid k : Nat} {v : Value} (ht : row.requireTid = .ok tid)
    (hv : i.valueOf row = .ok v) (hk : (i.bucket (i.hash v)).findIdx? (·.1 = tid) = some k) :
    i.delete row = .ok ({ i with
      buckets := HashedIndex.setBucket (i.hash v) (swapErase (i.bucket (i.hash v)) k) i.buckets
      size := i.size - 1 }, true) := by
  simp [HashedIndex.delete, ht, hv, hk]

theorem Placed.mem_bucket_iff (h : i.Placed) : x ∈ i.bucket b ↔ x ∈ i.pairs ∧ i.hash x.2 = b := by
  simp only [bucket, pairs, List.mem_flatMap]
  constructor
  · intro hx
    match hl : i.buckets.lookup b, hx with
    | some es, hx =>
      have hmem := mem_of_lookup hl
      exact ⟨⟨_, hmem, hx⟩, h.hashed _ hmem x hx⟩
  · rintro ⟨⟨⟨c, es⟩, hc, hx⟩, rfl⟩
    rw [h.hashed _ hc x hx, lookup_of_mem h.nodup hc]
    exact hx

theorem not_mem_setBucket_nil (h : (bs.map Prod.fst).Nodup) : (b, es) ∉ setBucket b [] bs := by
  induction bs with
  | nil => simp [setBucket]
  | cons d bs ih =>
    obtain ⟨hd, hbs⟩ := List.nodup_cons.1 h
    simp only [setBucket, List.isEmpty_nil, if_true]
    split
    · next hbd => exact fun hmem => hd (hbd ▸ List.mem_map_of_mem hmem)
    · next hbd =>
      rintro (_ | ⟨_, hmem⟩)
      exacts [hbd rfl, ih hbs hmem]

/-- Entries that stand in one bucket can be looked for there alone. -/
theorem Placed.filter_bucket_perm {p : Nat × Value → Bool} (h : i.Placed)
    (hp : ∀ x ∈ i.pairs, p x → i.hash x.2 = b) :
    ((i.bucket b).filter p).Perm (i.pairs.filter p) := by
  have hperm := (flatMap_setBucket_perm b [] i.buckets).filter p
  rw [List.nil_append, List.filter_append] at hperm
  have hrest : ((HashedIndex.setBucket b [] i.buckets).flatMap (·.2)).filter p = [] := by
    refine List.filter_eq_nil_iff.2 fun x hx hpx => ?_
    obtain ⟨⟨c, es⟩, hc, hxc⟩ := List.mem_flatMap.1 hx
    have hmem := (mem_setBucket hc).resolve_left fun hnil => by simp [hnil.2] at hxc
    have hhash := hp x (List.mem_flatMap.2 ⟨_, hmem, hxc⟩) hpx
    rw [h.hashed _ hmem x hxc] at hhash
    exact not_mem_setBucket_nil h.nodup (hhash ▸ hc)
  rw [hrest, List.append_nil] at hperm
  exact hperm

theorem Placed.setBucket {size : Nat} (h : i.Placed) (hes : ∀ x ∈ es, i.hash x.2 = b) :
    Placed { i with buckets := setBucket b es i.buckets, size } := by
  refine ⟨nodup_setBucket h.nodup, ?_⟩
  rintro ⟨c, es'⟩ hc
  rcases mem_setBucket hc with ⟨rfl, rfl⟩ | hc
  exacts [hes, h.hashed _ hc]

theorem Placed.insert {i' : HashedIndex} {row : Row} (h : i.Placed) (hins : i.insert row = .ok i') :
    i'.Placed ∧ i'.hash = i.hash := by
  obtain ⟨tid, -, hins⟩ := Result.bind_eq_ok.1 hins
  obtain ⟨v, -, hins⟩ := Result.bind_eq_ok.1 hins
  cases hins
  refine ⟨h.setBucket fun y hy => ?_, rfl⟩
  rcases List.mem_append.1 hy with hy | hy
  · exact (h.mem_bucket_iff.1 hy).2
  · simp_all

theorem Placed.delete {i' : HashedIndex} {row : Row} {found : Bool} (h : i.Placed)
    (hdel : i.delete row = .ok (i', found)) : i'.Placed ∧ i'.hash = i.hash := by
  obtain ⟨tid, -, hdel⟩ := Result.bind_eq_ok.1 hdel
  obtain ⟨v, -, hdel⟩ := Result.bind_eq_ok.1 hdel
  simp only at hdel
  split at hdel
  · cases hdel
    exact ⟨h, rfl⟩
  · next k hk =>
    cases hdel
    obtain ⟨hlt, -⟩ := List.findIdx?_eq_some_iff_getElem.1 hk
    refine ⟨h.setBucket fun y hy => ?_, rfl⟩
    have hy := (swapErase_perm hlt).mem_iff.2 (List.mem_cons_of_mem _ hy)
    exact (h.mem_bucket_iff.1 hy).2

theorem pairs_insert_perm (i : HashedIndex) (b : BucketKey) (x : Nat × Value) :
    ((HashedIndex.setBucket b (i.bucket b ++ [x]) i.buckets).flatMap (·.2)).Perm
      (x :: i.pairs) := by
  have h := flatMap_setBucket_perm b (i.bucket b ++ [x]) i.buckets
  rw [List.append_assoc] at h
  exact (List.perm_append_left_iff _).1 h

theorem pairs_erase_perm {k : Nat} (hk : k < (i.bucket b).length) :
    i.pairs.Perm ((i.bucket b)[k] ::
      (HashedIndex.setBucket b (swapErase (i.bucket b) k) i.buckets).flatMap (·.2)) := by
  have h := flatMap_setBucket_perm b (swapErase (i.bucket b) k) i.buckets
  have hswap := swapErase_perm hk
  have h' := (hswap.append_right _).symm.trans h
  exact (List.perm_append_left_iff (swapErase (i.bucket b) k)).1
    (h'.symm.trans List.perm_middle.symm)

end HashedIndex

/-! ### Entries -/

theorem Row.requireTid_eq_ok {row : Row} {tid : Nat} :
    row.requireTid = .ok tid ↔ row.tid = some tid := by
  unfold Row.requireTid
  cases row.tid <;> simp

namespace OrderedIndex

variable {i i' : OrderedIndex} {row : Row} {x : Entry} {key : List Value} {tid : Nat}

/-- The entry of a row. -/
def entryOf (i : OrderedIndex) (row : Row) : Result Entry := do
  let tid ← row.requireTid
  return ⟨← i.keyOf row, tid⟩

theorem entryOf_eq_ok :
    i.entryOf row = .ok ⟨key, tid⟩ ↔ row.tid = some tid ∧ i.keyOf row = .ok key := by
  unfold entryOf Row.requireTid
  cases row.tid <;> cases i.keyOf row <;> simp [and_comm]

/-- The index without its entries. -/
def blank (i : OrderedIndex) : OrderedIndex :=
  { i with tree := .leaf, free := [], capacity := 0, size := 0 }

theorem blank_eq_iff : i'.blank = i.blank ↔
    i'.name = i.name ∧ i'.keys = i.keys ∧ i'.unique = i.unique ∧ i'.keyTypes = i.keyTypes := by
  simp [blank]

theorem entryOf_eq_of_blank (h : i'.blank = i.blank) : i'.entryOf = i.entryOf := by
  funext row
  simp only [entryOf, keyOf, (blank_eq_iff.1 h).2.1]

theorem insert_eq (i : OrderedIndex) (row : Row) :
    i.insert row = (do
      let x ← i.entryOf row
      if i.guards x.key && i.tree.meets x.key then .error (.uniqueViolation i.name x.key)
      else .ok (i.add x)) := by
  unfold insert entryOf
  cases row.requireTid with
  | error e => rfl
  | ok tid => cases i.keyOf row <;> rfl

theorem delete_eq (i : OrderedIndex) (row : Row) :
    i.delete row = (do
      let x ← i.entryOf row
      match i.tree.erase x.key x.tid with
      | some (tree, freed) =>
        .ok ({ i with tree, free := freed :: i.free, size := i.size - 1 }, true)
      | none => .ok (i, false)) := by
  unfold delete entryOf
  cases row.requireTid with
  | error e => rfl
  | ok tid => cases i.keyOf row <;> rfl

theorem tree_add (i : OrderedIndex) (x : Entry) :
    ∃ slot, (i.add x).tree = i.tree.insert slot x := by
  unfold add
  split
  exacts [⟨_, rfl⟩, ⟨_, rfl⟩]

theorem size_add (i : OrderedIndex) (x : Entry) : (i.add x).size = i.size + 1 := by
  unfold add; split <;> rfl

theorem blank_add (i : OrderedIndex) (x : Entry) : (i.add x).blank = i.blank := by
  unfold add; split <;> rfl

end OrderedIndex

namespace HashedIndex

/-- The entry of a row, whose key has one component. -/
def entryOf (i : HashedIndex) (row : Row) : Result Entry := do
  let tid ← row.requireTid
  return ⟨[← i.valueOf row], tid⟩

def entries (i : HashedIndex) : List Entry := i.pairs.map fun x => ⟨[x.2], x.1⟩

/-- A removal finds the entry of the row if no other one has its tid. -/
theorem Placed.exists_position {i : HashedIndex} {row : Row} {x : Entry} (h : i.Placed)
    (hx : i.entryOf row = .ok x) (hmem : x ∈ i.entries)
    (huniq : ∀ y ∈ i.entries, y.tid = x.tid → y = x) :
    ∃ v k, ∃ hk : k < (i.bucket (i.hash v)).length, x = ⟨[v], x.tid⟩ ∧
      row.requireTid = .ok x.tid ∧ i.valueOf row = .ok v ∧ (i.bucket (i.hash v))[k] = (x.tid, v) ∧
      (i.bucket (i.hash v)).findIdx? (·.1 = x.tid) = some k := by
  obtain ⟨tid, ht, hx⟩ := Result.bind_eq_ok.1 hx
  obtain ⟨v, hv, hx⟩ := Result.bind_eq_ok.1 hx
  cases hx
  obtain ⟨⟨tid', v'⟩, hpair, heq⟩ := List.mem_map.1 hmem
  obtain ⟨rfl, rfl⟩ : v' = v ∧ tid' = tid := by simpa using heq
  have hbucket := h.mem_bucket_iff.2 ⟨hpair, rfl⟩
  obtain ⟨k, hfind⟩ : ∃ k, (i.bucket (i.hash v')).findIdx? (·.1 = tid') = some k := by
    rw [← Option.isSome_iff_exists, List.findIdx?_isSome, List.any_eq_true]
    exact ⟨_, hbucket, by simp⟩
  obtain ⟨hk, htid, -⟩ := List.findIdx?_eq_some_iff_getElem.1 hfind
  have hfound := huniq ⟨[(i.bucket (i.hash v'))[k].2], (i.bucket (i.hash v'))[k].1⟩
    (List.mem_map_of_mem (mem_pairs_of_mem_bucket (List.getElem_mem hk))) (by simpa using htid)
  have hvalue : (i.bucket (i.hash v'))[k].2 = v' := by simpa using congrArg Entry.key hfound
  exact ⟨v', k, hk, rfl, ht, hv, Prod.ext (by simpa using htid) hvalue, hfind⟩

/-- The index without its entries. -/
def blank (i : HashedIndex) : HashedIndex := { i with buckets := [], size := 0 }

end HashedIndex

namespace BaseIndex

variable {i i' : BaseIndex} {row : Row} {x y : Entry}

def entries : BaseIndex → List Entry
  | ordered i => i.tree.toList
  | hashed i => i.entries

def entryOf (i : BaseIndex) (row : Row) : Result Entry :=
  match i with
  | ordered i => i.entryOf row
  | hashed i => i.entryOf row

/-- How many components the keys have. -/
def width : BaseIndex → Nat
  | ordered i => i.keys.length
  | hashed _ => 1

def blank : BaseIndex → BaseIndex
  | ordered i => ordered i.blank
  | hashed i => hashed i.blank

/-- Entries that a unique index does not hold together. -/
def Conflict (i : BaseIndex) (x y : Entry) : Prop :=
  match i with
  | ordered i => i.guards x.key ∧ x.key = y.key
  | hashed _ => False

/-- The entries stand where they are looked for. -/
def Placed : BaseIndex → Prop
  | ordered i => i.tree.Ordered i.keys.length
  | hashed i => i.Placed

/-- Keys that are kept in order are of these values. -/
def KeysIn (S : Value → Prop) : BaseIndex → Prop
  | ordered i => ∀ x ∈ i.tree.toList, ∀ v ∈ x.key, S v
  | hashed _ => True

/-- The entries stand where they are looked for, and keys that are kept in order are of these
values. -/
def PlacedIn (S : Value → Prop) : BaseIndex → Prop
  | ordered i => i.tree.OrderedIn S i.keys.length
  | hashed i => i.Placed

structure Sound (i : BaseIndex) : Prop where
  placed : i.Placed
  size : i.size = i.entries.length
  apart : i.entries.Pairwise fun x y => ¬ i.Conflict x y

theorem Conflict.symm (h : i.Conflict x y) : i.Conflict y x := by
  match i, h with
  | ordered i, ⟨hg, hk⟩ => exact ⟨hk ▸ hg, hk.symm⟩

/-- What the entry of a row is, and which entries exclude each other, does not depend on the
entries that there are. -/
@[simp] theorem entryOf_blank (i : BaseIndex) : i.blank.entryOf row = i.entryOf row := by
  cases i <;> rfl

@[simp] theorem width_blank (i : BaseIndex) : i.blank.width = i.width := by cases i <;> rfl

@[simp] theorem conflict_blank (i : BaseIndex) : i.blank.Conflict = i.Conflict := by
  cases i <;> rfl

theorem insert_entries (hins : i.insert row = .ok i') :
    ∃ x, i.entryOf row = .ok x ∧ i'.entries.Perm (x :: i.entries) ∧ i'.size = i.size + 1 ∧
      i'.blank = i.blank := by
  cases i with
  | ordered i =>
    obtain ⟨j, hj, rfl⟩ := Result.map_eq_ok.1 hins
    rw [OrderedIndex.insert_eq] at hj
    obtain ⟨x, hx, hj⟩ := Result.bind_eq_ok.1 hj
    split at hj <;> cases hj
    obtain ⟨slot, hslot⟩ := i.tree_add x
    refine ⟨x, hx, ?_, i.size_add x, congrArg ordered (i.blank_add x)⟩
    simp only [entries, hslot]
    exact Tree.toList_insert_perm slot x i.tree
  | hashed i =>
    obtain ⟨j, hj, rfl⟩ := Result.map_eq_ok.1 hins
    obtain ⟨tid, ht, hj⟩ := Result.bind_eq_ok.1 hj
    obtain ⟨v, hv, hj⟩ := Result.bind_eq_ok.1 hj
    cases hj
    refine ⟨⟨[v], tid⟩, ?_, (i.pairs_insert_perm _ (tid, v)).map _, rfl, rfl⟩
    simp [entryOf, HashedIndex.entryOf, ht, hv]

theorem placed_iff : i.Placed ↔ i.PlacedIn (·.isExact) := by
  cases i with
  | ordered i => exact Tree.ordered_iff
  | hashed i => exact Iff.rfl

section
variable {S : Value → Prop}

theorem PlacedIn.keysIn (h : i.PlacedIn S) : i.KeysIn S := by
  cases i with
  | ordered i => exact fun x hx => (Tree.OrderedIn.keys h x hx).mem
  | hashed i => trivial

/-- An insertion that succeeds puts the entry where it is looked for. -/
theorem PlacedIn.insert (hS : Value.Chained S) (h : i.PlacedIn S) (hins : i.insert row = .ok i')
    (hkeys : i'.KeysIn S) : i'.PlacedIn S := by
  cases i with
  | ordered i =>
    obtain ⟨j, hj, rfl⟩ := Result.map_eq_ok.1 hins
    rw [OrderedIndex.insert_eq] at hj
    obtain ⟨x, hx, hj⟩ := Result.bind_eq_ok.1 hj
    split at hj <;> cases hj
    obtain ⟨slot, hslot⟩ := i.tree_add x
    have hsame : (i.add x).keys = i.keys := (OrderedIndex.blank_eq_iff.1 (i.blank_add x)).2.1
    simp only [KeysIn, PlacedIn, hslot, hsame] at hkeys ⊢
    refine Tree.OrderedIn.insert hS h ⟨?_, hkeys x ?_⟩
    · exact (Result.mapM_eq_ok.1 (OrderedIndex.entryOf_eq_ok.1 hx).2).length_eq.symm
    · exact (Tree.toList_insert_perm slot x i.tree).mem_iff.2 List.mem_cons_self
  | hashed i =>
    obtain ⟨j, hj, rfl⟩ := Result.map_eq_ok.1 hins
    exact (HashedIndex.Placed.insert h hj).1

/-- An entry that is alone with its tid is found and taken out. -/
theorem PlacedIn.delete (hS : Value.Chained S) (h : i.PlacedIn S) (hx : i.entryOf row = .ok x)
    (hmem : x ∈ i.entries) (huniq : ∀ y ∈ i.entries, y.tid = x.tid → y = x) :
    ∃ i', i.delete row = .ok (i', true) ∧ i'.PlacedIn S ∧ i'.size = i.size - 1 ∧
      i.entries.Perm (x :: i'.entries) ∧ i'.blank = i.blank := by
  cases i with
  | ordered i =>
    obtain ⟨⟨tree, freed⟩, hq⟩ := Option.isSome_iff_exists.1 (Tree.OrderedIn.erase_isSome hS h hmem)
    obtain ⟨before, y, after, ht, ht', hyx, hytid⟩ := Tree.toList_erase hq
    obtain rfl : y = x := huniq y (by simp [entries, ht]) hytid
    refine ⟨ordered { i with tree, free := freed :: i.free, size := i.size - 1 }, ?_,
      Tree.OrderedIn.erase h hq, rfl, ?_, rfl⟩
    · simp [BaseIndex.delete, OrderedIndex.delete_eq, show i.entryOf row = .ok y from hx, hq]
    · simp only [entries, ht, ht']
      exact List.perm_middle
  | hashed i =>
    obtain ⟨v, k, hk, hxv, ht, hv, hget, hfind⟩ :=
      HashedIndex.Placed.exists_position h hx hmem huniq
    have hdel := HashedIndex.delete_eq ht hv hfind
    refine ⟨hashed _, by rw [BaseIndex.delete, hdel]; rfl,
      (HashedIndex.Placed.delete h hdel).1, rfl, ?_, rfl⟩
    have hmap := (i.pairs_erase_perm hk).map fun x : Nat × Value => (⟨[x.2], x.1⟩ : Entry)
    rw [List.map_cons, hget] at hmap
    rw [hxv]
    exact hmap

end

/-- An insertion that succeeds keeps an index sound. -/
theorem Sound.insert (h : i.Sound) (hx : i.entryOf row = .ok x) (hkey : IsKey i.width x.key)
    (hins : i.insert row = .ok i') :
    i'.Sound ∧ i'.entries.Perm (x :: i.entries) ∧ i'.blank = i.blank := by
  obtain ⟨x', hx', hperm, hsize, hblank⟩ := insert_entries hins
  obtain rfl : x = x' := Except.ok.inj (hx.symm.trans hx')
  have hkeys : i'.KeysIn (·.isExact) := by
    cases i' with
    | ordered j =>
      intro y hy
      rcases List.mem_cons.1 (hperm.mem_iff.1 hy) with rfl | hy
      · exact hkey.exact
      · cases i with
        | ordered i => exact (placed_iff.1 h.placed).keysIn y hy
        | hashed i => cases hblank
    | hashed j => trivial
  have hplaced := placed_iff.2 ((placed_iff.1 h.placed).insert Value.chained_isExact hins hkeys)
  have hfree : ∀ y ∈ i.entries, ¬ i.Conflict x y := by
    cases i with
    | ordered i =>
      obtain ⟨j, hj, rfl⟩ := Result.map_eq_ok.1 hins
      rw [OrderedIndex.insert_eq, show i.entryOf row = .ok x from hx] at hj
      simp only [Result.ok_bind] at hj
      split at hj <;> cases hj
      next hguard =>
        rintro y hy ⟨hg, hxy⟩
        have hmeets := (Tree.meets_iff h.placed hkey).2 ⟨y, hy, hxy.symm⟩
        simp [hg, hmeets] at hguard
    | hashed i => exact fun _ _ hc => hc
  refine ⟨⟨hplaced, by rw [hsize, h.size, hperm.length_eq, List.length_cons], ?_⟩, hperm, hblank⟩
  have hc : i'.Conflict = i.Conflict := by rw [← conflict_blank, hblank, conflict_blank]
  rw [hc]
  exact hperm.symm.pairwise (List.pairwise_cons.2 ⟨hfree, h.apart⟩) fun hne hyx => hne hyx.symm

/-- Nothing but an entry of the same key keeps an entry out. -/
theorem Sound.insert_ok (h : i.Sound) (hx : i.entryOf row = .ok x) (hkey : IsKey i.width x.key)
    (hfree : ∀ y ∈ i.entries, ¬ i.Conflict x y) : ∃ i', i.insert row = .ok i' := by
  cases i with
  | ordered i =>
    have hguard : ¬ (i.guards x.key && i.tree.meets x.key) := by
      rintro hne
      obtain ⟨hg, hm⟩ := (Bool.and_eq_true ..).mp hne
      obtain ⟨y, hy, hyx⟩ := (Tree.meets_iff h.placed hkey).1 hm
      exact hfree y hy ⟨hg, hyx.symm⟩
    refine ⟨ordered (i.add x), ?_⟩
    rw [BaseIndex.insert, OrderedIndex.insert_eq, show i.entryOf row = .ok x from hx,
      Result.ok_bind, if_neg hguard, Result.map_ok]
  | hashed i =>
    obtain ⟨tid, ht, hx⟩ := Result.bind_eq_ok.1 hx
    obtain ⟨v, hv, -⟩ := Result.bind_eq_ok.1 hx
    exact ⟨_, by simp [BaseIndex.insert, HashedIndex.insert, ht, hv]; rfl⟩

theorem Sound.delete (h : i.Sound) (hx : i.entryOf row = .ok x) (hmem : x ∈ i.entries)
    (huniq : ∀ y ∈ i.entries, y.tid = x.tid → y = x) :
    ∃ i', i.delete row = .ok (i', true) ∧ i'.Sound ∧ i.entries.Perm (x :: i'.entries) ∧
      i'.blank = i.blank := by
  obtain ⟨i', hdel, hplaced, hsize, hperm, hblank⟩ :=
    (placed_iff.1 h.placed).delete Value.chained_isExact hx hmem huniq
  refine ⟨i', hdel, ⟨placed_iff.2 hplaced, by rw [hsize, h.size, hperm.length_eq]; simp, ?_⟩,
    hperm, hblank⟩
  have hc : i'.Conflict = i.Conflict := by rw [← conflict_blank, hblank, conflict_blank]
  rw [hc]
  exact (List.pairwise_cons.1 (hperm.pairwise h.apart fun hne hyx => hne hyx.symm)).2

end BaseIndex

end RelPlan

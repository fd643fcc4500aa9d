import RelPlan.Proofs.IndexEntries
import RelPlan.Proofs.LinkedTrees

/-!
# Ordered indexes as sorted lists

Whatever rows come and go, an ordered index of exact keys is a sorted list: of the entries with one
key the newest stands first, and a removal takes out the entry of its row (`run_sorted`).  The
linked tree in which it is stored gives the same answers, every loop over its links ends, and each
of its slots is reached by one path or is free.
-/

namespace RelPlan

open scoped List

namespace Arena

variable {a : Arena} {i : OrderedIndex} {x : Entry} {key : List Value} {tid : Nat}

/-- The arena stores the tree of the index, and what it does not use for it is free. -/
structure Mirrors (a : Arena) (i : OrderedIndex) : Prop where
  stores : a.Stores i.tree
  free : a.free = i.free
  capacity : a.nodes.length = i.capacity
  size : a.size = i.size
  slots : i.tree.slots ++ i.free ~ List.range i.capacity

theorem mirrors_blank (i : OrderedIndex) : Mirrors {} i.blank :=
  ⟨⟨rfl, trivial⟩, rfl, rfl, rfl, .refl _⟩

theorem Mirrors.nodup (h : a.Mirrors i) : (i.tree.slots ++ i.free).Nodup :=
  h.slots.nodup_iff.2 List.nodup_range

theorem Mirrors.lt_length (h : a.Mirrors i) {s : Nat} (hs : s ∈ i.tree.slots ++ i.free) :
    s < a.nodes.length := by
  rw [h.capacity]
  exact List.mem_range.1 (h.slots.mem_iff.1 hs)

theorem Mirrors.allocate (h : a.Mirrors i) (x : Entry) :
    ∃ a' slot, a.allocate x = some (a', slot) ∧ a'.Stores i.tree ∧
      (Tree.node slot .leaf x .leaf).Holds a'.nodes ∧ a'.free = (i.add x).free ∧
      a'.nodes.length = (i.add x).capacity ∧ a'.size = a.size ∧
      (i.add x).tree = i.tree.insert slot x ∧
      slot :: i.tree.slots ++ (i.add x).free ~ List.range (i.add x).capacity := by
  have hfree := h.free
  unfold Arena.allocate OrderedIndex.add
  match hi : i.free with
  | slot :: free =>
    rw [hi] at hfree
    have hperm := hi ▸ h.slots
    -- a free slot is not linked to, so what it held does not matter
    have hslot : slot ∉ i.tree.slots := fun hmem =>
      (List.nodup_append.1 (hi ▸ h.nodup)).2.2 slot hmem slot List.mem_cons_self rfl
    have hlt : slot < a.nodes.length := h.lt_length (by simp [hi])
    obtain ⟨b, hb, hst, hre⟩ := h.stores.edit_other hslot hlt fun _ => ⟨x, none, none⟩
    have hedit := edit_eq (fun _ => ⟨x, none, none⟩) (List.getElem?_eq_getElem hlt)
    refine ⟨{ b with free }, slot, by simp [hfree, hb], ⟨hst.root, hst.nodes⟩,
      ⟨?_, trivial, trivial⟩, rfl, hre.length.trans h.capacity, hre.size, rfl,
      List.perm_middle.symm.trans hperm⟩
    rw [hb] at hedit
    cases hedit
    exact List.getElem?_set_self hlt
  | [] =>
    rw [hi] at hfree
    have hperm := hi ▸ h.slots
    rw [List.append_nil] at hperm
    refine ⟨{ a with nodes := a.nodes ++ [⟨x, none, none⟩] }, a.nodes.length, by simp [hfree],
      ⟨h.stores.root, ?_⟩, ⟨List.getElem?_concat_length, trivial, trivial⟩, hfree,
      by simp [h.capacity], rfl, by rw [h.capacity], ?_⟩
    · refine h.stores.nodes.congr fun k hk => List.getElem?_append_left ?_
      exact h.lt_length (List.mem_append_left _ hk)
    · simp only [List.append_nil, List.range_succ, h.capacity]
      exact (hperm.cons _).trans (List.perm_append_singleton ..).symm

/-- An insertion does to the links what it does to the tree. -/
theorem Mirrors.insert (h : a.Mirrors i) (x : Entry) :
    if i.guards x.key && i.tree.meets x.key then a.insert x (i.guards x.key) = .some none
    else ∃ a', a.insert x (i.guards x.key) = .some (some a') ∧ a'.Mirrors (i.add x) := by
  have hdescend := descend_spec h.stores.nodes x (i.guards x.key) []
  rw [← h.stores.root, Tree.place] at hdescend
  unfold Arena.insert
  split
  · next hmet =>
    rw [if_pos hmet] at hdescend
    rw [hdescend]
    simp
  · next hmet =>
    rw [if_neg hmet] at hdescend
    obtain ⟨gs, hplace, hleaf, hnode⟩ := hdescend
    rw [List.append_nil] at hplace
    obtain ⟨b, slot, hb, hst, hnew, hfree, hlength, hsize, htree, hslots⟩ := h.allocate x
    have hnodup : (Tree.plug gs (.node slot .leaf x .leaf)).slots.Nodup := by
      rw [hnode, (Tree.slots_insert_perm ..).nodup_iff]
      exact (List.nodup_append.1 (hslots.nodup_iff.2 List.nodup_range)).1
    obtain ⟨c, hc, hst', hre⟩ := Stores.relink (hleaf.symm ▸ hst) hnew hnodup
    rw [hnode, ← htree] at hst'
    have hgraft : a.graft x (Tree.place gs) = some { c with size := c.size + 1 } := by
      rw [Tree.top_node] at hc
      simp [Arena.graft, hb, hc]
    refine ⟨{ c with size := c.size + 1 }, ?_, ⟨hst'.root, hst'.nodes⟩, ?_, ?_, ?_, ?_⟩
    · rw [hplace]
      simp [hgraft]
    · rw [hre.free, hfree]
    · rw [hre.length, hlength]
    · rw [hre.size, hsize, h.size, i.size_add]
    · rw [htree]
      exact ((Tree.slots_insert_perm ..).append_right _).trans hslots

theorem Mirrors.delete (h : a.Mirrors i) (key : List Value) (tid : Nat) :
    match i.tree.erase key tid with
    | none => a.delete key tid = .some none
    | some (tree, freed) => ∃ a', a.delete key tid = .some (some a') ∧
        a'.Mirrors { i with tree, free := freed :: i.free, size := i.size - 1 } := by
  have hfind := find_spec h.stores.nodes key tid [] []
  have hpending : pending [] i.tree ++ [] = (a.root.map fun slot => (slot, Place.root)).toList := by
    rw [h.stores.root, List.append_nil]
    rfl
  rw [hpending] at hfind
  unfold Arena.delete
  split
  · next hq =>
    rw [hq] at hfind
    rw [show a.find key tid _ = .some none from hfind.trans (loop_stop rfl)]
    simp
  · next tree freed hq =>
    rw [hq] at hfind
    obtain ⟨gs, s, l, e, r, hfound, hplug, hrest, hfreed⟩ := hfind
    rw [List.append_nil] at hfound
    have hperm := Tree.slots_erase_perm hq
    have hnodup : (Tree.plug gs (.node s l e r)).slots.Nodup := by
      rw [hplug]
      exact (List.nodup_append.1 h.nodup).1
    obtain ⟨b, hb, hst, hfree, hsize, hlength⟩ :=
      Stores.removeNode (hplug.symm ▸ h.stores) hnodup
    rw [hrest] at hst
    refine ⟨{ b with size := b.size - 1 }, ?_, ⟨hst.root, hst.nodes⟩, ?_, ?_, ?_, ?_⟩
    · rw [hfound]
      simp [hb]
    · rw [hfree, hfreed, h.free]
    · rw [hlength, h.capacity]
    · rw [hsize, h.size]
    · exact (List.perm_middle.trans (hperm.symm.append_right i.free)).trans h.slots

/-- Every slot is reached by one path or is free, once, and no path is longer than there are
nodes in use. -/
structure Tidy (a : Arena) : Prop where
  reached_or_free : ∀ s < a.nodes.length,
    (∃! path, a.follow path a.root = some s) ∧ s ∉ a.free ∨
      (∀ path, a.follow path a.root ≠ some s) ∧ a.free.count s = 1
  reached_lt : ∀ path s, a.follow path a.root = some s → s < a.nodes.length
  free_lt : ∀ s ∈ a.free, s < a.nodes.length
  ends : ∀ path s, a.follow path a.root = some s → path.length < a.size

theorem Mirrors.tidy (h : a.Mirrors i) (hsize : i.size = i.tree.toList.length) : a.Tidy := by
  have hreached {s : Nat} : (∃ path, a.follow path a.root = some s) ↔ s ∈ i.tree.slots := by
    rw [h.stores.root]
    exact exists_follow_iff h.stores.nodes
  obtain ⟨htree, hfree, hdisjoint⟩ := List.nodup_append.1 h.nodup
  refine ⟨fun s hs => ?_, fun path s hp => ?_, fun s hs => ?_, fun path s hp => ?_⟩
  · by_cases hmem : s ∈ i.tree.slots
    · obtain ⟨path, hp⟩ := hreached.2 hmem
      refine .inl ⟨⟨path, hp, fun path' hp' => ?_⟩, fun hf => ?_⟩
      · rw [h.stores.root] at hp hp'
        exact follow_inj h.stores.nodes htree hp' hp
      · exact hdisjoint s hmem s (h.free ▸ hf) rfl
    · have hf : s ∈ i.free := by
        have hall := h.slots.mem_iff.2 (List.mem_range.2 (h.capacity ▸ hs))
        exact (List.mem_append.1 hall).resolve_left hmem
      refine .inr ⟨fun path hp => hmem (hreached.1 ⟨path, hp⟩), ?_⟩
      rw [h.free]
      exact List.count_eq_one_of_mem hfree hf
  · exact h.lt_length (List.mem_append_left _ (hreached.1 ⟨path, hp⟩))
  · exact h.lt_length (List.mem_append_right _ (h.free ▸ hs))
  · rw [h.stores.root] at hp
    have hlt := length_of_follow h.stores.nodes hp
    rwa [Tree.length_slots, ← hsize, ← h.size] at hlt

end Arena

/-! ### Calls -/

namespace OrderedIndex

inductive Call
  | insert (row : Row)
  | delete (row : Row)

namespace Call

def row : Call → Row
  | insert row | delete row => row

/-- Makes the call and says whether an entry has come or gone. -/
def apply (i : OrderedIndex) : Call → OrderedIndex × Result Bool
  | insert row =>
    match i.insert row with
    | .ok i => (i, .ok true)
    | .error e => (i, .error e)
  | delete row =>
    match i.delete row with
    | .ok (i, found) => (i, .ok found)
    | .error e => (i, .error e)

def applyLinked (i : OrderedIndex) (a : Arena) : Call → Part (Arena × Result Bool)
  | insert row =>
    match i.entryOf row with
    | .error e => .some (a, .error e)
    | .ok x => (a.insert x (i.guards x.key)).map fun
      | none => (a, .error (.uniqueViolation i.name x.key))
      | some a => (a, .ok true)
  | delete row =>
    match i.entryOf row with
    | .error e => .some (a, .error e)
    | .ok x => (a.delete x.key x.tid).map fun
      | none => (a, .ok false)
      | some a => (a, .ok true)

/-- The call on the list of the entries.  A new entry is put in front of the first one whose key is
not below its own. -/
def applySorted (i : OrderedIndex) (es : List Entry) : Call → List Entry × Result Bool
  | insert row =>
    match i.entryOf row with
    | .error e => (es, .error e)
    | .ok x =>
      if i.guards x.key ∧ ∃ y ∈ es, y.key = x.key then (es, .error (.uniqueViolation i.name x.key))
      else (es.orderedInsert Entry.le x, .ok true)
  | delete row =>
    match i.entryOf row with
    | .error e => (es, .error e)
    | .ok x => (es.erase x, .ok (x ∈ es))

def IsExact (i : OrderedIndex) (c : Call) : Prop :=
  (i.entryOf c.row).toOption.all fun x => x.key.all Value.isExact

/-- No entry has the tid of one that comes. -/
def IsFresh (i : OrderedIndex) (es : List Entry) : Call → Prop
  | insert row => (applySorted i es (.insert row)).2.isOk → ∀ y ∈ es, row.tid ≠ some y.tid
  | delete _ => True

instance (i : OrderedIndex) (c : Call) : Decidable (c.IsExact i) :=
  inferInstanceAs (Decidable (_ = true))

instance (i : OrderedIndex) (es : List Entry) : (c : Call) → Decidable (c.IsFresh i es)
  | insert row => inferInstanceAs (Decidable (_ = true → ∀ y ∈ es, row.tid ≠ some y.tid))
  | delete _ => .isTrue trivial

end Call

variable {σ : Type}

def run (step : σ → Call → σ × Result Bool) : List Call → σ → σ × List (Result Bool)
  | [], s => (s, [])
  | c :: cs, s =>
    let (s, answer) := step s c
    let (s, answers) := run step cs s
    (s, answer :: answers)

def runLinked (i : OrderedIndex) : List Call → Arena → Part (Arena × List (Result Bool))
  | [], a => .some (a, [])
  | c :: cs, a => do
    let (a, answer) ← c.applyLinked i a
    let (a, answers) ← runLinked i cs a
    return (a, answer :: answers)

def FreshRun (i : OrderedIndex) : List Call → List Entry → Prop
  | [], _ => True
  | c :: cs, es => c.IsFresh i es ∧ FreshRun i cs (c.applySorted i es).1

instance (i : OrderedIndex) : (cs : List Call) → (es : List Entry) → Decidable (FreshRun i cs es)
  | [], _ => .isTrue trivial
  | c :: cs, es =>
    have := instDecidableFreshRun i cs (c.applySorted i es).1
    inferInstanceAs (Decidable (_ ∧ _))

variable {i j : OrderedIndex} {es : List Entry} {a : Arena} {x : Entry} {row : Row} {c : Call}

/-- The list, the index and its linked tree hold the same entries. -/
structure Kept (i : OrderedIndex) (es : List Entry) (j : OrderedIndex) (a : Arena) : Prop where
  blank : j.blank = i.blank
  toList : j.tree.toList = es
  ordered : j.tree.Ordered i.keys.length
  distinct : (es.map Entry.tid).Nodup
  size : j.size = es.length
  mirrors : a.Mirrors j

theorem kept_blank (i : OrderedIndex) : Kept i [] i.blank {} :=
  ⟨rfl, rfl, Tree.ordered_leaf, .nil, rfl, Arena.mirrors_blank i⟩

theorem isKey_of_isExact (h : c.IsExact i) (hx : i.entryOf c.row = .ok x) :
    IsKey i.keys.length x.key := by
  refine ⟨?_, ?_⟩
  · exact (Result.mapM_eq_ok.1 (entryOf_eq_ok.1 hx).2).length_eq.symm
  · rw [Call.IsExact, hx] at h
    simpa [Except.toOption] using h

theorem Kept.insert (h : Kept i es j a) (hexact : (Call.insert row).IsExact i)
    (hfresh : (Call.insert row).IsFresh i es) :
    ∃ es' j' a' answer, (Call.insert row).applySorted i es = (es', answer) ∧
      (Call.insert row).apply j = (j', answer) ∧
      (Call.insert row).applyLinked i a = .some (a', answer) ∧ Kept i es' j' a' := by
  obtain ⟨hname, -, hunique, -⟩ := blank_eq_iff.1 h.blank
  have hguards : j.guards = i.guards := by funext key; simp only [guards, hunique]
  unfold Call.IsFresh at hfresh
  simp only [Call.applySorted, Call.apply, Call.applyLinked, insert_eq,
    entryOf_eq_of_blank h.blank, hguards, hname] at hfresh ⊢
  cases hx : i.entryOf row with
  | error e => exact ⟨_, _, _, _, rfl, rfl, rfl, h⟩
  | ok x =>
    have hkey := isKey_of_isExact hexact hx
    -- the descent passes an entry of the key if there is one, so both refuse the same rows
    have hmeets : j.tree.meets x.key = true ↔ ∃ y ∈ es, y.key = x.key := by
      rw [Tree.meets_iff h.ordered hkey, h.toList]
    have hlinked := h.mirrors.insert x
    rw [hguards] at hlinked
    simp only [hx, ← hmeets, Result.ok_bind, Bool.and_eq_true] at hfresh hlinked ⊢
    split
    · next hmet =>
      rw [if_pos hmet] at hlinked
      exact ⟨_, _, _, _, rfl, rfl, by rw [hlinked]; rfl, h⟩
    · next hmet =>
      rw [if_neg hmet] at hlinked hfresh
      obtain ⟨a', ha', hmirrors⟩ := hlinked
      obtain ⟨slot, hslot⟩ := j.tree_add x
      have htoList := Tree.toList_insert h.ordered hkey slot
      rw [h.toList] at htoList
      refine ⟨_, _, _, _, rfl, rfl, by rw [ha']; rfl, ?_, ?_, ?_, ?_, ?_, hmirrors⟩
      · rw [blank_add, h.blank]
      · rw [hslot, htoList]
      · rw [hslot]
        exact h.ordered.insert hkey
      · rw [((List.perm_orderedInsert _ x es).map Entry.tid).nodup_iff, List.map_cons]
        refine List.nodup_cons.2 ⟨fun hmem => ?_, h.distinct⟩
        obtain ⟨y, hy, hyx⟩ := List.mem_map.1 hmem
        exact hfresh rfl y hy (by rw [(entryOf_eq_ok.1 hx).1, hyx])
      · rw [size_add, h.size, List.orderedInsert_length]

theorem Kept.delete (h : Kept i es j a) (hexact : (Call.delete row).IsExact i) :
    ∃ es' j' a' answer, (Call.delete row).applySorted i es = (es', answer) ∧
      (Call.delete row).apply j = (j', answer) ∧
      (Call.delete row).applyLinked i a = .some (a', answer) ∧ Kept i es' j' a' := by
  simp only [Call.applySorted, Call.apply, Call.applyLinked, delete_eq,
    entryOf_eq_of_blank h.blank]
  cases hx : i.entryOf row with
  | error e => exact ⟨_, _, _, _, rfl, rfl, rfl, h⟩
  | ok x =>
    have hkey := isKey_of_isExact hexact hx
    have hnodup : j.tree.toList.Nodup := h.toList ▸ h.distinct.of_map Entry.tid
    have herase := Tree.erase_spec h.ordered hkey hnodup x.tid
    have hlinked := h.mirrors.delete x.key x.tid
    rw [h.toList] at herase
    simp only [Result.ok_bind]
    match hq : j.tree.erase x.key x.tid with
    | none =>
      rw [hq] at herase hlinked
      have hmem : x ∉ es := herase
      refine ⟨es, j, a, .ok false, by simp [hmem], rfl, by rw [hlinked]; rfl, h⟩
    | some (tree, freed) =>
      rw [hq] at herase hlinked
      obtain ⟨hmem, htree⟩ : x ∈ es ∧ tree.toList = es.erase x := herase
      obtain ⟨a', ha', hmirrors⟩ := hlinked
      refine ⟨es.erase x, _, a', .ok true, by simp [hmem], rfl, by rw [ha']; rfl, h.blank, htree,
        h.ordered.erase hq, ?_, ?_, hmirrors⟩
      · exact (List.erase_sublist.map Entry.tid).nodup h.distinct
      · rw [List.length_erase_of_mem hmem, ← h.size]

theorem Kept.apply (h : Kept i es j a) (hexact : c.IsExact i) (hfresh : c.IsFresh i es) :
    ∃ es' j' a' answer, c.applySorted i es = (es', answer) ∧ c.apply j = (j', answer) ∧
      c.applyLinked i a = .some (a', answer) ∧ Kept i es' j' a' := by
  cases c with
  | insert row => exact h.insert hexact hfresh
  | delete row => exact h.delete hexact

theorem Kept.run {cs : List Call} (h : Kept i es j a) (hexact : ∀ c ∈ cs, c.IsExact i)
    (hfresh : FreshRun i cs es) :
    ∃ es' j' a' answers, OrderedIndex.run (Call.applySorted i) cs es = (es', answers) ∧
      OrderedIndex.run Call.apply cs j = (j', answers) ∧
      runLinked i cs a = .some (a', answers) ∧ Kept i es' j' a' := by
  induction cs generalizing es j a with
  | nil => exact ⟨es, j, a, [], rfl, rfl, rfl, h⟩
  | cons c cs ih =>
    obtain ⟨hc, hcs⟩ := List.forall_mem_cons.1 hexact
    obtain ⟨hf, hfs⟩ := hfresh
    obtain ⟨es₁, j₁, a₁, answer, hsorted, hindex, hlinked, h₁⟩ := h.apply hc hf
    rw [hsorted] at hfs
    obtain ⟨es', j', a', answers, hsorted', hindex', hlinked', h'⟩ := ih h₁ hcs hfs
    refine ⟨es', j', a', answer :: answers, ?_, ?_, ?_, h'⟩
    · simp only [OrderedIndex.run, hsorted, hsorted']
    · simp only [OrderedIndex.run, hindex, hindex']
    · simp [runLinked, hlinked, hlinked']

/-- Any calls on an empty index with exact keys, none of which brings a tid that is there: the index
and its linked tree answer as the sorted list does and hold its entries, in its order. -/
theorem run_sorted (i : OrderedIndex) (cs : List Call) (hexact : ∀ c ∈ cs, c.IsExact i)
    (hfresh : FreshRun i cs []) :
    ∃ es answers j a, run (Call.applySorted i) cs [] = (es, answers) ∧
      (run Call.apply cs i.blank = (j, answers) ∧ j.tree.toList = es ∧ j.size = es.length) ∧
      (runLinked i cs {} = .some (a, answers) ∧ a.walk = .some es ∧ a.size = es.length) ∧
      a.Mirrors j ∧ a.Tidy := by
  obtain ⟨es, j, a, answers, hsorted, hindex, hlinked, h⟩ := (kept_blank i).run hexact hfresh
  have hwalk : a.walk = .some es := by rw [h.mirrors.stores.walk, h.toList]
  exact ⟨es, answers, j, a, hsorted, ⟨hindex, h.toList, h.size⟩,
    ⟨hlinked, hwalk, h.mirrors.size.trans h.size⟩, h.mirrors,
    h.mirrors.tidy (by rw [h.size, h.toList])⟩

/-- A row of one column, and the calls by which a node with two sides goes and its slot is used
again; a row without a tid is refused. -/
def promotion : List Call :=
  let row (a : Int64) (tid : Option Nat) : Row :=
    ⟨[⟨some "t", "a", .int, false⟩], [.int a], tid, rfl⟩
  [.insert (row 5 (some 0)), .insert (row 2 (some 1)), .insert (row 8 (some 2)),
    .insert (row 6 (some 3)), .insert (row 5 (some 4)), .insert (row 7 none),
    .delete (row 5 (some 0)), .insert (row 6 (some 5)), .delete (row 5 (some 0)),
    .insert (row 5 (some 0)), .delete (row 6 (some 3))]

theorem run_sorted_promotion :
    let i : OrderedIndex := { name := "i", keys := [.ref ⟨none, "a"⟩], unique := false }
    (∀ c ∈ promotion, c.IsExact i) ∧ FreshRun i promotion [] ∧
      (run (Call.applySorted i) promotion []).1.map Entry.tid = [1, 0, 4, 5, 2] ∧
      ∃ es answers j a, run (Call.applySorted i) promotion [] = (es, answers) ∧
        (run Call.apply promotion i.blank = (j, answers) ∧ j.tree.toList = es ∧
          j.size = es.length) ∧
        (runLinked i promotion {} = .some (a, answers) ∧ a.walk = .some es ∧
          a.size = es.length) ∧
        a.Mirrors j ∧ a.Tidy :=
  ⟨by decide, by decide, by decide, run_sorted _ promotion (by decide) (by decide)⟩

end OrderedIndex

end RelPlan

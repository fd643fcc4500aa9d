import RelPlan.Proofs.IndexUndo
import RelPlan.Proofs.KeyLimits
import RelPlan.Proofs.SortedTrees

/-!
# Entries put back

An entry that is taken out of an index and put back later need not come to its old place.  A search
tree puts it in front of the entries with its key, a hashed index last into its bucket, where the
former last entry has filled the gap.  A bucket may hold entries with other keys, and what is given
for those may then come in another order as well.  Nothing else moves, so a scan gives the same rows
(`Index.InStep.restored`).
-/

namespace RelPlan

open scoped List

variable {row : Row} {x y : Entry} {es es' : List Entry}

/-- The entry has moved ahead of others with its key, and stands first of them. -/
def Entry.Ahead (x : Entry) (es es' : List Entry) : Prop :=
  ∃ front ties back, es = front ++ (ties ++ x :: back) ∧ es' = front ++ x :: (ties ++ back) ∧
    (∀ y ∈ ties, y.key = x.key) ∧ ∀ y ∈ front, y.key ≠ x.key

/-- The one member and what stands last have exchanged places.  Where only one of the two is in the
list, it alone has moved, past those between. -/
def Swapped {α : Type} (x : α) (as as' : List α) : Prop :=
  ∃ front a mid b, as = front ++ (a ++ (mid ++ b)) ∧ as' = front ++ (b ++ (mid ++ a)) ∧
    a <+ [x] ∧ b.length ≤ 1

namespace Entry

theorem Ahead.perm (h : x.Ahead es es') : es' ~ es := by
  obtain ⟨front, ties, back, rfl, rfl, -, -⟩ := h
  exact List.perm_middle.symm.append_left front

theorem Ahead.filter (h : x.Ahead es es') (p : List Value → Bool) :
    es'.filter (p ·.key) = es.filter (p ·.key) ∨
      x.Ahead (es.filter (p ·.key)) (es'.filter (p ·.key)) := by
  obtain ⟨front, ties, back, rfl, rfl, hties, hfront⟩ := h
  by_cases hx : p x.key
  · have hkept : ties.filter (p ·.key) = ties :=
      List.filter_eq_self.2 fun y hy => by rw [hties y hy, hx]
    refine .inr ⟨front.filter (p ·.key), ties, back.filter (p ·.key), ?_, ?_, hties,
      fun y hy => hfront y (List.mem_of_mem_filter hy)⟩ <;>
    simp [hx, hkept]
  · have hnone : ties.filter (p ·.key) = [] :=
      List.filter_eq_nil_iff.2 fun y hy => by rw [hties y hy]; exact hx
    refine .inl ?_
    simp [hx, hnone]

end Entry

namespace Swapped

variable {α β : Type} {u : α} {as as' : List α}

theorem refl (u : α) (as : List α) : Swapped u as as :=
  ⟨as, [], [], [], by simp, by simp, by simp, by simp⟩

theorem perm (h : Swapped u as as') : as' ~ as := by
  obtain ⟨front, a, mid, b, rfl, rfl, -, -⟩ := h
  refine List.Perm.append_left front ?_
  calc b ++ (mid ++ a)
    _ ~ (mid ++ a) ++ b := List.perm_append_comm
    _ ~ (a ++ mid) ++ b := List.perm_append_comm.append_right b
    _ = a ++ (mid ++ b) := List.append_assoc ..

theorem filter (h : Swapped u as as') (p : α → Bool) : Swapped u (as.filter p) (as'.filter p) := by
  obtain ⟨front, a, mid, b, rfl, rfl, ha, hb⟩ := h
  exact ⟨front.filter p, a.filter p, mid.filter p, b.filter p, by simp, by simp,
    List.filter_sublist.trans ha, (List.length_filter_le ..).trans hb⟩

theorem map (h : Swapped u as as') (f : α → β) : Swapped (f u) (as.map f) (as'.map f) := by
  obtain ⟨front, a, mid, b, rfl, rfl, ha, hb⟩ := h
  exact ⟨front.map f, a.map f, mid.map f, b.map f, by simp, by simp, ha.map f, by simpa using hb⟩

end Swapped

/-! ### Ordered indexes -/

theorem Entry.key_eq_of_le {n : Nat} (hx : IsKey n x.key) (hy : IsKey n y.key) (hxy : x.le y)
    (hyx : y.le x) : x.key = y.key := by
  refine (orderKeys_eq_iff hx hy).1 ?_
  unfold Entry.le at hxy hyx
  rw [← orderKeys_swap] at hyx
  cases h : orderKeys x.key y.key <;> simp [h] at hxy hyx ⊢

namespace OrderedIndex

variable {n : Nat} {i j₁ j₂ j₃ : OrderedIndex}

/-- An entry that is put back comes to stand first among those with its key. -/
theorem ahead_orderedInsert {before after : List Entry}
    (hkeys : ∀ y ∈ before ++ x :: after, IsKey n y.key)
    (hsorted : (before ++ x :: after).Pairwise Entry.le) :
    x.Ahead (before ++ x :: after) ((before ++ after).orderedInsert Entry.le x) := by
  induction before with
  | nil =>
    refine ⟨[], [], after, rfl, ?_, by simp, by simp⟩
    match after with
    | [] => rfl
    | y :: after =>
      have hle : x.le y := (List.pairwise_cons.1 hsorted).1 y List.mem_cons_self
      simp [hle]
  | cons y before ih =>
    obtain ⟨hy, hkeys⟩ := List.forall_mem_cons.1 hkeys
    obtain ⟨hfirst, hsorted⟩ := List.pairwise_cons.1 hsorted
    have hxkey : IsKey n x.key := hkeys x (by simp)
    by_cases hle : x.le y
    · -- what stands between the first entry not below it and its old place has its key
      have htie : ∀ z ∈ y :: before, z.key = x.key := by
        refine List.forall_mem_cons.2 ⟨Entry.key_eq_of_le hy hxkey (hfirst x (by simp)) hle,
          fun z hz => ?_⟩
        have hzkey : IsKey n z.key := hkeys z (by simp [hz])
        have hzx : z.le x := (List.pairwise_append.1 hsorted).2.2 z hz x (by simp)
        exact Entry.key_eq_of_le hzkey hxkey hzx
          (orderKeys_isLE_trans hxkey hy hzkey hle (hfirst z (by simp [hz])))
      exact ⟨[], y :: before, after, rfl, by simp [hle], htie, by simp⟩
    · obtain ⟨front, ties, back, heq, heq', hties, hfront⟩ := ih hkeys hsorted
      refine ⟨y :: front, ties, back, by rw [List.cons_append, heq, List.cons_append], ?_, hties,
        List.forall_mem_cons.2 ⟨fun hkey => hle ?_, hfront⟩⟩
      · simp [hle, heq']
      · unfold Entry.le
        rw [hkey, orderKeys_self]
        rfl

theorem ahead_of_restore (h : i.tree.Ordered n) (hsize : i.size = i.tree.toList.length)
    (hx : i.entryOf row = .ok x) (hkey : IsKey n x.key)
    (hmem : x ∈ i.tree.toList) (huniq : ∀ y ∈ i.tree.toList, y.tid = x.tid → y = x)
    {found : Bool} (hdel : i.delete row = .ok (j₁, found)) (hcontent : j₂.content = j₁.content)
    (hins : j₂.insert row = .ok j₃) :
    j₃.blank = i.blank ∧ j₃.size = i.size ∧ j₃.tree.Ordered n ∧
      x.Ahead i.tree.toList j₃.tree.toList := by
  obtain ⟨⟨tree, freed⟩, hq⟩ := Option.isSome_iff_exists.1 (Tree.erase_isSome h hmem)
  obtain ⟨before, y, after, ht, ht', -, hytid⟩ := Tree.toList_erase hq
  obtain rfl : y = x := huniq y (by simp [ht]) hytid
  rw [delete_eq, hx] at hdel
  simp only [Result.ok_bind, hq, Except.ok.injEq, Prod.mk.injEq] at hdel
  obtain ⟨rfl, -⟩ := hdel
  obtain ⟨hblank₂, htree₂, hsize₂⟩ := content_eq_iff.1 hcontent
  rw [insert_eq, entryOf_eq_of_blank (hblank₂.trans rfl : j₂.blank = i.blank), hx] at hins
  simp only [Result.ok_bind] at hins
  split at hins <;> cases hins
  obtain ⟨slot, hslot⟩ := j₂.tree_add y
  have hpos : i.size ≠ 0 := by rw [hsize, ht]; simp
  have hordered : tree.Ordered n := h.erase hq
  rw [hslot, htree₂]
  refine ⟨(blank_add ..).trans hblank₂, ?_, hordered.insert hkey, ?_⟩
  · rw [size_add, hsize₂]
    exact Nat.succ_pred hpos
  · rw [Tree.toList_insert hordered hkey, ht']
    have hahead := ahead_orderedInsert (ht ▸ h.keys) (ht ▸ h.sorted)
    rwa [← ht] at hahead

theorem isSharp_limits {scope : Scope} {r : KeyRange} {types : List DataType} {limits : List Limits}
    (h : r.IsSharp scope) (hlimits : Limits.ofRanges scope types r.columns = .ok (some limits)) :
    ∀ b ∈ limits, b.IsSharp := by
  have hvalue := Limits.value_of_ofRanges hlimits
  have hne {L : Limits} (hL : L ∈ limits) {l : Limit} (hl : l ∈ L.lower.toList ++ L.upper.toList) :
      l.value ≠ .float Binary64.twoPow63 := by
    intro heq
    obtain ⟨c, hc, b, hb, heval⟩ := hvalue L hL l hl
    exact h c hc b hb (heq ▸ heval)
  exact fun L hL => ⟨fun l hl => hne hL (by simp [Option.mem_def.1 hl]),
    fun l hl => hne hL (by simp [Option.mem_def.1 hl])⟩

def inDirection (r : KeyRange) (es : List Entry) : List Entry :=
  match r.direction with
  | .forward => es
  | .backward => es.reverse

/-- The entries between limits; there are none if a bound is `NULL`. -/
def between (limits? : Option (List Limits)) (es : List Entry) : List Entry :=
  limits?.elim [] fun limits => es.filter (Limits.allowKey limits ·.key)

theorem scan_eq_between (h : i.tree.Ordered n) {r : KeyRange} {scope : Scope}
    (hsharp : r.IsSharp scope) :
    i.scan r scope = (fun o => (inDirection r (between o i.tree.toList)).map Entry.tid) <$>
      Limits.ofRanges scope i.checkedTypes r.columns := by
  unfold scan
  match hlimits : Limits.ofRanges scope i.checkedTypes r.columns with
  | .error e => rfl
  | .ok none => cases hd : r.direction <;> simp [inDirection, between, hd]
  | .ok (some limits) =>
    have hscan := Tree.scan_eq h (isSharp_limits hsharp hlimits)
    cases hd : r.direction <;>
      simp [inDirection, between, hd, hscan, Tree.scanBackward_eq, List.map_reverse]

theorem scan_restored {j : OrderedIndex} (hblank : j.blank = i.blank) (hsize : j.size = i.size)
    (hi : i.tree.Ordered n) (hj : j.tree.Ordered n) (h : x.Ahead i.tree.toList j.tree.toList)
    {r : KeyRange} {scope : Scope} (hsharp : r.IsSharp scope) :
    (∃ e, i.scan r scope = .error e ∧ j.scan r scope = .error e) ∨
      ∃ es es', i.scan r scope = .ok ((inDirection r es).map Entry.tid) ∧
        j.scan r scope = .ok ((inDirection r es').map Entry.tid) ∧
        (∀ y ∈ es, y ∈ i.tree.toList) ∧ (es' = es ∨ x.Ahead es es') := by
  have htypes : j.checkedTypes = i.checkedTypes := by
    unfold checkedTypes
    rw [hsize, (blank_eq_iff.1 hblank).2.2.2]
  rw [scan_eq_between hi hsharp, scan_eq_between hj hsharp, htypes]
  match Limits.ofRanges scope i.checkedTypes r.columns with
  | .error e => exact .inl ⟨e, rfl, rfl⟩
  | .ok none => exact .inr ⟨[], [], rfl, rfl, by simp, .inl rfl⟩
  | .ok (some limits) =>
    exact .inr ⟨_, _, rfl, rfl, fun y => List.mem_of_mem_filter, h.filter (Limits.allowKey limits)⟩

end OrderedIndex

/-! ### Hashed indexes -/

namespace HashedIndex

variable {i j₁ j₂ j₃ : HashedIndex} {b c : BucketKey} {xs : List (Nat × Value)}
  {bs : List (BucketKey × List (Nat × Value))}

theorem lookup_setBucket_of_ne (h : c ≠ b) : (setBucket b xs bs).lookup c = bs.lookup c := by
  induction bs with
  | nil => cases xs <;> simp [setBucket, List.lookup_cons, beq_false_of_ne h]
  | cons d bs ih =>
    obtain ⟨d, ds⟩ := d
    by_cases hbd : b = d
    · subst hbd
      cases xs <;> simp [setBucket, List.lookup_cons, beq_false_of_ne h]
    · simp [setBucket, hbd, List.lookup_cons, ih]

theorem bucket_setBucket (h : (i.buckets.map Prod.fst).Nodup) (b c : BucketKey)
    (xs : List (Nat × Value)) (size : Nat) :
    bucket { i with buckets := setBucket b xs i.buckets, size } c =
      if c = b then xs else i.bucket c := by
  unfold bucket
  split
  · next heq =>
    subst heq
    by_cases hxs : xs = []
    · subst hxs
      match hl : (setBucket c [] i.buckets).lookup c with
      | none => rfl
      | some es => exact absurd (mem_of_lookup hl) (not_mem_setBucket_nil h)
    · rw [lookup_setBucket hxs, Option.getD_some]
  · next hne => rw [lookup_setBucket_of_ne hne]

theorem swapErase_append {α : Type} (front : List α) (u : α) (rest : List α) :
    swapErase (front ++ u :: rest) front.length =
      front ++ (rest.getLast?.toList ++ rest.dropLast) := by
  rcases List.eq_nil_or_concat' rest with rfl | ⟨init, l, rfl⟩
  · simp [swapErase]
  · have hlist : front ++ u :: (init ++ [l]) = (front ++ u :: init) ++ [l] := by simp
    rw [hlist]
    simp only [swapErase, List.getLast?_concat]
    rw [List.set_append_left _ _ (by simp), List.dropLast_concat]
    simp

theorem swapped_swapErase {k : Nat} (hk : k < xs.length) :
    Swapped xs[k] xs (swapErase xs k ++ [xs[k]]) := by
  have hxs : xs = xs.take k ++ xs[k] :: xs.drop (k + 1) := by
    rw [List.cons_getElem_drop_succ, List.take_append_drop]
  have hlen : (xs.take k).length = k := List.length_take_of_le (by omega)
  have hrest : xs.drop (k + 1) =
      (xs.drop (k + 1)).dropLast ++ (xs.drop (k + 1)).getLast?.toList := by
    rcases List.eq_nil_or_concat' (xs.drop (k + 1)) with h | ⟨init, l, h⟩ <;> simp [h]
  refine ⟨xs.take k, [xs[k]], (xs.drop (k + 1)).dropLast, (xs.drop (k + 1)).getLast?.toList,
    ?_, ?_, .refl _, ?_⟩
  · rw [List.singleton_append, ← hrest, ← hxs]
  · have herase := swapErase_append (xs.take k) xs[k] (xs.drop (k + 1))
    rw [hlen, ← hxs] at herase
    rw [herase]
    simp
  · cases (xs.drop (k + 1)).getLast? <;> simp

theorem swapped_of_restore (h : i.Placed) (hsize : i.size = i.entries.length)
    (hx : i.entryOf row = .ok x) (hmem : x ∈ i.entries)
    (huniq : ∀ y ∈ i.entries, y.tid = x.tid → y = x) {found : Bool}
    (hdel : i.delete row = .ok (j₁, found)) (hins : j₁.insert row = .ok j₃) :
    j₃.blank = i.blank ∧ j₃.size = i.size ∧
      ∃ v, ∀ c, j₃.bucket c = i.bucket c ∨
        (x.tid, v) ∈ i.bucket c ∧ Swapped (x.tid, v) (i.bucket c) (j₃.bucket c) := by
  obtain ⟨v, k, hk, -, ht, hv, hget, hfind⟩ := h.exists_position hx hmem huniq
  let taken : HashedIndex := { i with
    buckets := setBucket (i.hash v) (swapErase (i.bucket (i.hash v)) k) i.buckets
    size := i.size - 1 }
  obtain ⟨rfl, -⟩ : taken = j₁ ∧ true = found := by simpa [delete_eq ht hv hfind] using hdel
  let back : HashedIndex := { taken with
    buckets := setBucket (i.hash v) (taken.bucket (i.hash v) ++ [(x.tid, v)]) taken.buckets
    size := taken.size + 1 }
  obtain rfl : back = j₃ := Except.ok.inj ((insert_eq (i := taken) ht hv).symm.trans hins)
  have hpos : i.size ≠ 0 := by
    rw [hsize]
    exact (List.length_pos_of_mem hmem).ne'
  -- both changes are to the bucket of the entry
  have htaken (c : BucketKey) : taken.bucket c =
      if c = i.hash v then swapErase (i.bucket (i.hash v)) k else i.bucket c :=
    bucket_setBucket h.nodup ..
  have hback (c : BucketKey) : back.bucket c =
      if c = i.hash v then taken.bucket (i.hash v) ++ [(x.tid, v)] else taken.bucket c :=
    bucket_setBucket (i := taken) (nodup_setBucket h.nodup) ..
  refine ⟨rfl, Nat.succ_pred hpos, v, fun c => ?_⟩
  rw [hback, htaken, htaken, if_pos rfl]
  by_cases hc : c = i.hash v
  · rw [if_pos hc, hc, ← hget]
    exact .inr ⟨List.getElem_mem hk, swapped_swapErase hk⟩
  · rw [if_neg hc, if_neg hc]
    exact .inl rfl

/-- Nothing changes for a probe unless its bucket is that of the entry. -/
theorem scan_restored {j : HashedIndex} (hblank : j.blank = i.blank) (hsize : j.size = i.size)
    {x : Nat × Value} (h : ∀ c, j.bucket c = i.bucket c ∨
      x ∈ i.bucket c ∧ Swapped x (i.bucket c) (j.bucket c)) (probe : Expr) (scope : Scope) :
    j.scan probe scope = i.scan probe scope ∨
      ∃ v tids tids', probe.eval scope = .ok v ∧ x ∈ i.bucket (i.hash v) ∧
        i.scan probe scope = .ok tids ∧ j.scan probe scope = .ok tids' ∧
        Swapped x.1 tids tids' := by
  obtain ⟨hhash, htype⟩ : j.hash = i.hash ∧ j.keyType = i.keyType := by
    simp only [blank, HashedIndex.mk.injEq] at hblank
    exact ⟨hblank.2.2.1, hblank.2.2.2.1⟩
  unfold scan
  rw [hhash, htype, hsize]
  cases probe.eval scope with
  | error e => exact .inl rfl
  | ok v =>
    simp only [Result.ok_bind]
    rcases h (i.hash v) with hbucket | ⟨hmem, hswap⟩
    · exact .inl (by rw [hbucket])
    have hfound := (hswap.filter fun y => hits v y.2).map Prod.fst
    -- a probe of the wrong type fails as before, and `NULL` finds nothing as before
    split
    · cases checkComparable i.keyType v with
      | error e => exact .inl rfl
      | ok _ =>
        split
        · exact .inl rfl
        · exact .inr ⟨v, _, _, rfl, hmem, rfl, rfl, hfound⟩
    · split
      · exact .inl rfl
      · exact .inr ⟨v, _, _, rfl, hmem, rfl, rfl, hfound⟩

end HashedIndex

namespace BaseIndex

variable {i j₁ j₂ j₃ : BaseIndex} {tid : Nat} {probe : Probe} {tids tids' : List Nat}

/-- What an index gives for a probe once the row of the tid has gone and come back.  An ordered
index gives the row first among those with its key, and else the same rows in the same order.  A
hashed one gives the same, unless it looks the probe up in the bucket that has the entry of the row;
there this entry and the last one, whatever their keys, may have exchanged places. -/
def Reordered (i : BaseIndex) (tid : Nat) (probe : Probe) (scope : Scope)
    (tids tids' : List Nat) : Prop :=
  match i, probe with
  | ordered i, .range r => tids' = tids ∨ ∃ (x : Entry) (es es' : List Entry), x.tid = tid ∧
      x.Ahead es es' ∧ (∀ y ∈ es, y ∈ i.tree.toList) ∧
      tids = (OrderedIndex.inDirection r es).map Entry.tid ∧
      tids' = (OrderedIndex.inDirection r es').map Entry.tid
  | hashed i, .key e => tids' = tids ∨ ∃ v w, e.eval scope = .ok w ∧
      (tid, v) ∈ i.bucket (i.hash w) ∧ Swapped tid tids tids'
  | _, _ => tids' = tids

variable {scope : Scope}

theorem Reordered.refl (i : BaseIndex) (tid : Nat) (probe : Probe) (scope : Scope)
    (tids : List Nat) : i.Reordered tid probe scope tids tids := by
  cases i <;> cases probe
  exacts [Or.inl rfl, Eq.refl _, Eq.refl _, Or.inl rfl]

theorem Reordered.perm (h : i.Reordered tid probe scope tids tids') : tids' ~ tids := by
  unfold Reordered at h
  split at h
  · rcases h with rfl | ⟨x, es, es', -, hahead, -, rfl, rfl⟩
    · exact .refl _
    · unfold OrderedIndex.inDirection
      split
      · exact hahead.perm.map _
      · exact (((List.reverse_perm _).trans hahead.perm).trans (List.reverse_perm _).symm).map _
  · rcases h with rfl | ⟨-, -, -, -, hswap⟩
    exacts [.refl _, hswap.perm]
  · exact .of_eq h

/-- The second index answers as the first one, but for rows that have changed places. -/
def Restored (i j : BaseIndex) (tid : Nat) (probe : Probe) (scope : Scope) : Prop :=
  (∃ e, i.scan probe scope = .error e ∧ j.scan probe scope = .error e) ∨
    ∃ tids tids', i.scan probe scope = .ok tids ∧ j.scan probe scope = .ok tids' ∧
      tids' ~ tids ∧ i.Reordered tid probe scope tids tids'

theorem Restored.of_reordered {j : BaseIndex} (hscan : i.scan probe scope = .ok tids)
    (hscan' : j.scan probe scope = .ok tids') (h : i.Reordered tid probe scope tids tids') :
    i.Restored j tid probe scope :=
  .inr ⟨tids, tids', hscan, hscan', h.perm, h⟩

theorem restored_of_scan_eq {j : BaseIndex} (tid : Nat)
    (h : j.scan probe scope = i.scan probe scope) : i.Restored j tid probe scope := by
  cases hi : i.scan probe scope with
  | error e => exact .inl ⟨e, hi, h.trans hi⟩
  | ok tids => exact .of_reordered hi (h.trans hi) (.refl ..)

theorem Sound.restored (h : i.Sound) (hx : i.entryOf row = .ok x) (hkey : IsKey i.width x.key)
    (hmem : x ∈ i.entries) (huniq : ∀ y ∈ i.entries, y.tid = x.tid → y = x) {found : Bool}
    (hdel : i.delete row = .ok (j₁, found)) (hcontent : j₂.content = j₁.content)
    (hins : j₂.insert row = .ok j₃) (hsharp : probe.IsSharp scope) :
    i.Restored j₃ x.tid probe scope := by
  cases i with
  | ordered i =>
    obtain ⟨⟨j₁, found⟩, hdel, heq⟩ := Result.bind_eq_ok.1 hdel
    cases heq
    cases j₂ with
    | hashed j₂ => cases hcontent
    | ordered j₂ =>
      obtain ⟨j₃, hback, rfl⟩ := Result.map_eq_ok.1 hins
      obtain ⟨hblank, hsize, hordered, hahead⟩ := OrderedIndex.ahead_of_restore h.placed h.size hx
        hkey hmem huniq hdel (BaseIndex.ordered.inj hcontent) hback
      cases probe with
      | key e =>
        have hname : j₃.name = i.name := (OrderedIndex.blank_eq_iff.1 hblank).1
        exact restored_of_scan_eq _ (by simp only [scan, name, hname])
      | range r =>
        rcases OrderedIndex.scan_restored hblank hsize h.placed hordered hahead hsharp with
          herror | ⟨es, es', hscan, hscan', hsub, hes⟩
        · exact .inl herror
        · refine .of_reordered hscan hscan' ?_
          rcases hes with rfl | hes
          · exact .inl rfl
          · exact .inr ⟨x, es, es', rfl, hes, hsub, rfl, rfl⟩
  | hashed i =>
    obtain ⟨⟨j₁, found⟩, hdel, heq⟩ := Result.bind_eq_ok.1 hdel
    cases heq
    cases j₂ with
    | ordered j₂ => cases hcontent
    | hashed j₂ =>
      obtain rfl : j₂ = j₁ := BaseIndex.hashed.inj hcontent
      obtain ⟨j₃, hback, rfl⟩ := Result.map_eq_ok.1 hins
      obtain ⟨hblank, hsize, v, hswapped⟩ :=
        HashedIndex.swapped_of_restore h.placed h.size hx hmem huniq hdel hback
      cases probe with
      | key e =>
        rcases HashedIndex.scan_restored hblank hsize hswapped e scope with
          heq | ⟨w, tids, tids', hw, hmem, hscan, hscan', hswap⟩
        · exact restored_of_scan_eq _ heq
        · exact .of_reordered hscan hscan' (.inr ⟨v, w, hw, hmem, hswap⟩)
      | range r =>
        have hname : j₃.name = i.name := by
          simp only [HashedIndex.blank, HashedIndex.mk.injEq] at hblank
          exact hblank.1
        exact restored_of_scan_eq _ (by simp only [scan, name, hname])

end BaseIndex

/-- The entry of a row is taken out, and put back after what has left no trace. -/
theorem Index.InStep.restored {i j₁ j₂ j₃ : Index} {columns : List Column} {rows : List Row}
    {tid : Nat} (h : InStep columns (row :: rows) i) (hrow : row.IsExact)
    (htid : row.tid = some tid) (hnew : ∀ r ∈ rows, r.tid ≠ row.tid) {found : Bool}
    (hdel : i.delete row = .ok (j₁, found)) (hcontent : j₂.content = j₁.content)
    (hins : j₂.insert row = .ok j₃) {probe : Probe} {scope : Scope} (hsharp : probe.IsSharp scope) :
    i.base.Restored j₃.base tid probe scope := by
  obtain ⟨hcond, hbase⟩ := content_eq_iff.1 hcontent
  obtain ⟨o, -, ho, -⟩ := agrees_cons.1 h.agrees
  have hcovers (hc₁ : j₁.condition = i.condition) : j₂.covers row = i.covers row := by
    unfold covers
    rw [hcond, hc₁]
  rcases entryOf_eq_ok.1 ho with ⟨hc, rfl⟩ | ⟨x, hc, hx, rfl⟩
  · obtain ⟨rfl, -⟩ : i = j₁ ∧ false = found := by simpa [Index.delete, hc] using hdel
    rcases insert_eq_ok.1 hins with ⟨-, rfl⟩ | ⟨base, hc', -⟩
    · exact BaseIndex.restored_of_scan_eq tid (scan_eq_of_content hcontent probe scope)
    · rw [hcovers rfl, hc] at hc'
      cases hc'
  · obtain ⟨hmem, huniq⟩ := h.agrees.eq_entry hnew ho
    obtain rfl : x.tid = tid := Option.some.inj ((tid_of_entryOf ho).symm.trans htid)
    unfold Index.delete at hdel
    rw [hc, Result.ok_bind] at hdel
    obtain ⟨⟨base₁, found'⟩, hdel, heq⟩ := Result.bind_eq_ok.1 hdel
    cases heq
    rcases insert_eq_ok.1 hins with ⟨hc', -⟩ | ⟨base₃, -, hback, rfl⟩
    · rw [hcovers rfl, hc] at hc'
      cases hc'
    · exact h.sound.restored hx (isKey_of_entryOf h.exact hrow ho) hmem huniq hdel hbase hback
        hsharp

end RelPlan

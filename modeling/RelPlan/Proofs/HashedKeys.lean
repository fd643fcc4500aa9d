import RelPlan.Proofs.AccessRows
import RelPlan.Proofs.DistinctScans

/-!
# What is found by its hash

A hashed index, the table of a hash join and the set of a scan without repetitions look a key up in
one bucket.  They find every equal key, of whatever values, unless one of the two has the datum
`2 ^ 63` where the other has an integer that rounds up to it (`hash_agrees`).  An index never finds
such a key; of a table or a set it is not said what they do with it.
-/

namespace RelPlan

namespace Value

variable {a b : Value}

/-- Equal values that no rounding has made equal. -/
def Agrees (a b : Value) : Prop := a.same b ∧ ¬ a.RoundsUp b ∧ ¬ b.RoundsUp a

instance (a b : Value) : Decidable (a.Agrees b) :=
  inferInstanceAs (Decidable (a.same b ∧ ¬ a.RoundsUp b ∧ ¬ b.RoundsUp a))

theorem bucketKey_ne_iff : a.same b ∧ a.bucketKey ≠ b.bucketKey ↔ a.RoundsUp b ∨ b.RoundsUp a := by
  constructor
  · rintro ⟨hsame, hne⟩
    refine (same_iff_canon.1 hsame).resolve_left fun h => hne ?_
    exact (canon_eq_iff.1 h).1
  · rintro (h | h)
    · exact ⟨same_of_roundsUp h, bucketKey_ne_of_roundsUp h⟩
    · exact ⟨same_symm b a ▸ same_of_roundsUp h, (bucketKey_ne_of_roundsUp h).symm⟩

theorem agrees_iff : a.Agrees b ↔ a.bucketKey = b.bucketKey ∧ a.same b := by
  have h := bucketKey_ne_iff (a := a) (b := b)
  unfold Agrees
  tauto

end Value

theorem sameKeys_iff_forall₂ {vs ws : List Value} :
    sameKeys vs ws ↔ List.Forall₂ Value.Agrees vs ws := by
  have hagrees : (fun a b : Value => a.canon = b.canon) = Value.Agrees := by
    funext a b
    rw [Value.canon_eq_iff, Value.agrees_iff]
  rw [sameKeys_iff_canon, map_eq_iff_forall₂, hagrees]

namespace HashedIndex

/-- The index has come about by entering and removing rows. -/
inductive Reached : HashedIndex → Prop
  | new (name : String) (key : Expr) (keyType : DataType) :
    Reached { name, key, hash := Value.bucketKey, keyType }
  | insert {i i' : HashedIndex} {row : Row} : Reached i → i.insert row = .ok i' → Reached i'
  | delete {i i' : HashedIndex} {row : Row} {found : Bool} :
    Reached i → i.delete row = .ok (i', found) → Reached i'

variable {i : HashedIndex}

theorem Reached.placed (h : i.Reached) : i.Placed ∧ i.hash = Value.bucketKey := by
  induction h with
  | new => exact ⟨⟨by simp, by simp⟩, rfl⟩
  | insert _ hins ih =>
    obtain ⟨hp, hh⟩ := ih.1.insert hins
    exact ⟨hp, hh.trans ih.2⟩
  | delete _ hdel ih =>
    obtain ⟨hp, hh⟩ := ih.1.delete hdel
    exact ⟨hp, hh.trans ih.2⟩

/-- A scan gives the tids of all entries that equal the probe and agree with it. -/
theorem Reached.scan_perm (h : i.Reached) {probe : Expr} {scope : Scope} {v : Value}
    {tids : List Nat} (hv : probe.eval scope = .ok v) (hs : i.scan probe scope = .ok tids) :
    tids.Perm ((i.pairs.filter fun x => hits v x.2 && v.Agrees x.2).map (·.1)) := by
  obtain ⟨hp, hhash⟩ := h.placed
  obtain ⟨w, hw, rfl⟩ := scan_eq_ok hs
  rw [hv] at hw
  cases hw
  split
  · next hnull =>
    rw [List.filter_eq_nil_iff.2 fun x _ hx => ?_]
    · exact .nil
    · have := (hits_iff.1 (Bool.and_eq_true_iff.1 hx).1).2.1
      simp [this] at hnull
  · refine .map _ ?_
    -- within the bucket of the probe every entry that equals it agrees with it
    have hbucket : (i.bucket (i.hash v)).filter (fun x => hits v x.2) =
        (i.bucket (i.hash v)).filter fun x => hits v x.2 && v.Agrees x.2 := by
      refine List.filter_congr fun x hx => ?_
      have hkey := (hp.mem_bucket_iff.1 hx).2
      rw [hhash] at hkey
      by_cases hhit : hits v x.2
      · have hsame : x.2.same v := by simp [Value.same, (hits_iff.1 hhit).2.2]
        simp [hhit, Value.agrees_iff, hkey.symm, Value.same_symm v, hsame]
      · simp [hhit]
    rw [hbucket]
    refine hp.filter_bucket_perm fun x _ hx => ?_
    have hagrees : v.Agrees x.2 := by simpa using (Bool.and_eq_true_iff.1 hx).2
    rw [hhash]
    exact (Value.agrees_iff.1 hagrees).1.symm

end HashedIndex

/-- Two values are equal without hashing alike exactly if one of them is the datum `2 ^ 63` and the
other an integer that rounds up to it.  Everything that looks keys up by their hash finds all those
that are equal otherwise: a hashed index its entries, the table of a hash join the rows of a key,
and a scan without repetitions the row before. -/
theorem hash_agrees (a b : Value) (vs ws key : List Value) (xs : List Keyed) :
    (a.same b ∧ a.bucketKey ≠ b.bucketKey ↔ a.RoundsUp b ∨ b.RoundsUp a) ∧
    (sameKeys vs ws ↔ List.Forall₂ Value.Agrees vs ws) ∧
    (∀ (i : HashedIndex) (probe : Expr) (scope : Scope) (v : Value) (tids : List Nat), i.Reached →
      probe.eval scope = .ok v → i.scan probe scope = .ok tids →
        tids.Perm ((i.pairs.filter fun x => HashedIndex.hits v x.2 && v.Agrees x.2).map (·.1))) ∧
    (Unrounded (key :: xs.map Keyed.key) →
      (xs.foldl (fun table x => table.add x) ({} : HashTable)).lookup key =
        (xs.filter fun x => EqualKeys x.key key).map Keyed.row) ∧
    ∀ (s : Scan Row) (rows : List Row), s.drain.result = .ok rows →
      Unrounded (rows.map Row.values) →
        (s.distinct Row.values {}).drain.result =
          .ok (rows.eraseDupsBy fun later earlier => EqualKeys later.values earlier.values) := by
  refine ⟨Value.bucketKey_ne_iff, sameKeys_iff_forall₂,
    fun i probe scope v tids h hv hs => h.scan_perm hv hs, fun hkeys => ?_,
    fun s rows hs hkeys => ?_⟩
  · rw [HashTable.lookup_foldl, HashTable.lookup_empty, List.nil_append]
    congr 1
    refine List.filter_congr fun x hx => ?_
    exact hkeys.sameKeys_eq (List.mem_cons_of_mem _ (List.mem_map_of_mem hx)) List.mem_cons_self
  · have hdistinct : rows.eraseDupsBy (fun b a => sameKeys b.values a.values) =
        rows.eraseDupsBy fun b a => EqualKeys b.values a.values :=
      eraseDupsBy_congr fun b hb a ha =>
        hkeys.sameKeys_eq (List.mem_map_of_mem hb) (List.mem_map_of_mem ha)
    simp [Scan.drain_distinct, hs, KeyMap.contains_empty, hdistinct]

/-- An index gives the integer `1` for the datum `1.0`, a table the row of the one for the key of
the other, and of a row of each the first one is shown. -/
theorem hash_agrees_one :
    let one : Value := .float ⟨0x3ff0000000000000⟩
    let row (v : Value) : Row := ⟨[⟨none, "a", .any, false⟩], [v], some 0, rfl⟩
    let new : HashedIndex := { name := "h", key := .ref ⟨none, "a"⟩, hash := Value.bucketKey }
    ∃ i, new.insert (row (.int 1)) = .ok i ∧ i.scan (.const one) .empty = .ok [0] ∧
      [0].Perm ((i.pairs.filter fun x => HashedIndex.hits one x.2 && one.Agrees x.2).map (·.1)) ∧
      (({} : HashTable).add ⟨row (.int 1), [.int 1]⟩).lookup [one] = [row (.int 1)] ∧
      ((Scan.ofList [row (.int 1), row one]).distinct Row.values {}).drain.result =
        .ok [row (.int 1)] := by
  intro one row new
  obtain ⟨i, hi⟩ : ∃ i, new.insert (row (.int 1)) = .ok i := ⟨_, rfl⟩
  have hreached : i.Reached := .insert (.new ..) hi
  have hscan : i.scan (.const one) .empty = .ok [0] := by
    cases hi
    decide +kernel
  obtain ⟨-, -, hindex, htable, hdistinct⟩ :=
    hash_agrees one one [] [] [one] [⟨row (.int 1), [.int 1]⟩]
  exact ⟨i, hi, hscan, hindex i _ _ _ _ hreached rfl hscan, htable (by decide),
    (hdistinct _ [row (.int 1), row one] (by simp) (by decide)).trans (by decide)⟩

/-- The greatest integer is equal to the datum `2 ^ 63` and hashes differently. -/
theorem hash_disagrees : ¬ ∀ a b : Value, a.same b → a.bucketKey = b.bucketKey := fun h =>
  absurd (h (.int 9223372036854775807) (.float Binary64.twoPow63) (by decide)) (by decide)

end RelPlan

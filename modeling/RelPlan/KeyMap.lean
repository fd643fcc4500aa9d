import RelPlan.Value
import Std.Data.TreeMap

/-!
# Maps from keys

A map from lists of values, under which two lists are one key when `sameKeys` says so.  Every key
has a slot, which is a number read off its hash data, so one key has one slot (`slot_eq`); in a slot
keys are told apart by `sameKeys`.

Equal keys whose hash data differ are two keys here.  A table that looks only at a part of the hash
before it compares the values may take such keys for one.
-/

namespace RelPlan

namespace BucketKey

/-- A number for hash data. -/
def slot : BucketKey → Nat
  | null => 0
  | bool b => if b then 2 else 1
  | number word => word.toNat % 4294967291
  | text s => s.toList.foldl (fun n c => (n * 31 + c.toNat) % 4294967291) 3

end BucketKey

/-- The slot of a list of hash data. -/
def slotOf (ks : List BucketKey) : Nat :=
  ks.foldl (fun n k => (n * 1000003 + k.slot) % 4294967291) 0

theorem map_bucketKey_eq {a b : List Value} (h : sameKeys a b) :
    a.map Value.bucketKey = b.map Value.bucketKey := by
  fun_induction sameKeys a b with
  | case1 => rfl
  | case2 a as b bs ih =>
    simp only [Bool.and_eq_true, decide_eq_true_eq] at h
    simp [h.1.1, ih h.2]
  | case3 => simp at h

/-- The entries of each slot, and how many there are in all. -/
structure KeyMap (α : Type) where
  slots : Std.TreeMap Nat (List (List Value × α)) := ∅
  size : Nat := 0

namespace KeyMap

variable {α : Type}

def slot (key : List Value) : Nat := slotOf (key.map Value.bucketKey)

/-- One key has one slot. -/
theorem slot_eq {a b : List Value} (h : sameKeys a b) : slot a = slot b := by
  rw [slot, slot, map_bucketKey_eq h]

def entries (m : KeyMap α) (key : List Value) : List (List Value × α) := m.slots.getD (slot key) []

/-- What the map holds for a key. -/
def find? (m : KeyMap α) (key : List Value) : Option α :=
  ((m.entries key).find? fun e => sameKeys e.1 key).map (·.2)

def contains (m : KeyMap α) (key : List Value) : Bool := (m.find? key).isSome

/-- Puts an entry where the key has none, and changes the one that it has. -/
def upsertEntry (key : List Value) (f : Option α → α) :
    List (List Value × α) → List (List Value × α)
  | [] => [(key, f none)]
  | (k, a) :: es => if sameKeys k key then (k, f (some a)) :: es else (k, a) :: upsertEntry key f es

/-- Gives a key the value of `f` at what the map holds for it. -/
def upsert (m : KeyMap α) (key : List Value) (f : Option α → α) : KeyMap α :=
  let size := if m.contains key then m.size else m.size + 1
  ⟨m.slots.alter (slot key) fun es => some (upsertEntry key f (es.getD [])), size⟩

/-- The entries of a key's slot after an upsert. -/
theorem entries_upsert (m : KeyMap α) (key other : List Value) (f : Option α → α) :
    (m.upsert key f).entries other =
      if slot key = slot other then upsertEntry key f (m.entries key) else m.entries other := by
  simp only [entries, upsert, Std.TreeMap.getD_alter, Nat.compare_eq_eq]
  split <;> simp [Std.TreeMap.getD_eq_getD_getElem?]

end KeyMap

end RelPlan

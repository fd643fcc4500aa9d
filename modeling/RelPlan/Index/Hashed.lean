import RelPlan.Index.Limits

/-!
# Hashed indexes

Keeps the values of one expression in buckets and answers equality.  The hash decides only where to
look: an entry is compared with the probe before its tid is given out, so values may share a bucket
freely.
-/

namespace RelPlan

structure HashedIndex where
  name : String
  key : Expr
  hash : Value → BucketKey
  keyType : DataType := .any
  buckets : List (BucketKey × List (Nat × Value)) := []
  size : Nat := 0

namespace HashedIndex

variable {α : Type}

/-- The entries of a bucket; a missing bucket is empty. -/
def bucket (i : HashedIndex) (b : BucketKey) : List (Nat × Value) := (i.buckets.lookup b).getD []

/-- Replaces the entries of a bucket.  An empty one is dropped. -/
def setBucket (b : BucketKey) (entries : List (Nat × Value)) :
    List (BucketKey × List (Nat × Value)) → List (BucketKey × List (Nat × Value))
  | [] => if entries.isEmpty then [] else [(b, entries)]
  | (c, es) :: rest =>
    if b = c then (if entries.isEmpty then rest else (b, entries) :: rest)
    else (c, es) :: setBucket b entries rest

/-- Removes the entry at a position by moving the last one there. -/
def swapErase (xs : List α) (k : Nat) : List α :=
  match xs.getLast? with
  | none => []
  | some last => (xs.set k last).dropLast

/-- The value of a row, read without outer rows. -/
def valueOf (i : HashedIndex) (row : Row) : Result Value := i.key.evalRow .empty row

def insert (i : HashedIndex) (row : Row) : Result HashedIndex := do
  let tid ← row.requireTid
  let v ← i.valueOf row
  let b := i.hash v
  pure { i with buckets := setBucket b (i.bucket b ++ [(tid, v)]) i.buckets, size := i.size + 1 }

/-- Removes the entry of a row and says whether there was one. -/
def delete (i : HashedIndex) (row : Row) : Result (HashedIndex × Bool) := do
  let tid ← row.requireTid
  let v ← i.valueOf row
  let b := i.hash v
  match (i.bucket b).findIdx? (·.1 = tid) with
  | none => pure (i, false)
  | some k =>
    let buckets := setBucket b (swapErase (i.bucket b) k) i.buckets
    pure ({ i with buckets, size := i.size - 1 }, true)

/-- Whether a stored value equals the probe in a comparison. -/
def hits (probe v : Value) : Bool :=
  match v.compareSql probe with
  | .ok (some .eq) => true
  | _ => false

/-- The tids of the entries equal to the probe.  A missing probe equals none. -/
def scan (i : HashedIndex) (probe : Expr) (scope : Scope) : Result (List Nat) := do
  let v ← probe.eval scope
  if i.size ≠ 0 then checkComparable i.keyType v
  if v.isNull then pure []
  else pure (((i.bucket (i.hash v)).filter fun x => hits v x.2).map (·.1))

end HashedIndex

end RelPlan

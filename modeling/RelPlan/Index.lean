import RelPlan.Index.Hashed
import RelPlan.Index.Ordered
import RelPlan.Expr.Typing

/-!
# Indexes

An index is ordered or hashed, and may be restricted to the rows that satisfy a condition.  Before
it is attached to a table its expressions are given full names and checked to read nothing but the
columns of the table.
-/

namespace RelPlan

inductive BaseIndex
  | ordered (i : OrderedIndex)
  | hashed (i : HashedIndex)

/-- What an index is asked for: a range of keys, or the entries equal to a value. -/
inductive Probe
  | range (r : KeyRange)
  | key (e : Expr)
deriving DecidableEq, Repr

/-- The same question, with constants compared as keys. -/
def Probe.alike : Probe → Probe → Bool
  | range a, range b => a.alike b
  | key a, key b => a.alike b
  | _, _ => false

namespace BaseIndex

def name : BaseIndex → String
  | ordered i => i.name
  | hashed i => i.name

def size : BaseIndex → Nat
  | ordered i => i.size
  | hashed i => i.size

/-- The order of a forward scan, if the index keeps one. -/
def ordering : BaseIndex → SortOrder
  | ordered i => i.ordering
  | hashed _ => .empty

def insert (i : BaseIndex) (row : Row) : Result BaseIndex :=
  match i with
  | ordered i => ordered <$> i.insert row
  | hashed i => hashed <$> i.insert row

def delete (i : BaseIndex) (row : Row) : Result (BaseIndex × Bool) :=
  match i with
  | ordered i => do
    let (i, found) ← i.delete row
    pure (ordered i, found)
  | hashed i => do
    let (i, found) ← i.delete row
    pure (hashed i, found)

def scan (i : BaseIndex) (probe : Probe) (scope : Scope) : Result (List Nat) :=
  match i, probe with
  | ordered i, .range r => i.scan r scope
  | hashed i, .key e => i.scan e scope
  | i, _ => .error (.indexProbeMismatch i.name)

end BaseIndex

/-- An index over the rows that satisfy its condition, or over all rows. -/
structure Index where
  condition : Option Expr
  base : BaseIndex

namespace Index

def ordered (name : String) (keys : List Expr) (unique : Bool) : Index :=
  ⟨none, .ordered { name, keys, unique }⟩

/-- An equality index with a hash of one's own. -/
def hashedBy (hash : Value → BucketKey) (name : String) (key : Expr) : Index :=
  ⟨none, .hashed { name, key, hash }⟩

def hashed (name : String) (key : Expr) : Index := hashedBy Value.bucketKey name key

def name (i : Index) : String := i.base.name

def size (i : Index) : Nat := i.base.size

def ordering (i : Index) : SortOrder := i.base.ordering

/-- Restricts an index to the rows that satisfy a condition. -/
def restrict (condition : Expr) (i : Index) : Result Index :=
  match i.condition with
  | none => .ok { i with condition := some condition }
  | some _ => .error (.indexNested i.name)

/-- Whether the index holds an entry for the row.  Unknown keeps the row out. -/
def covers (i : Index) (row : Row) : Result Bool :=
  match i.condition with
  | none => .ok true
  | some c => c.holds .empty row

def insert (i : Index) (row : Row) : Result Index := do
  if ← i.covers row then return { i with base := ← i.base.insert row }
  else return i

/-- Removes the entry of a row and says whether there was one. -/
def delete (i : Index) (row : Row) : Result (Index × Bool) := do
  if ← i.covers row then
    let (base, found) ← i.base.delete row
    return ({ i with base }, found)
  else return (i, false)

/-- The tids of the rows asked for. -/
def scan (i : Index) (probe : Probe) (scope : Scope) : Result (List Nat) := i.base.scan probe scope

/-! ### Attaching -/

/-- An expression of the index with full names, read over the columns alone. -/
def attachExpr (index : String) (columns : List Column) (e : Expr) : Result Expr :=
  match e.qualify columns with
  | .error cause => .error (.indexKeyInvalid index cause)
  | .ok q =>
    match q.resolvesWithin columns with
    | .error cause => .error (.indexKeyInvalid index cause)
    | .ok true => .ok q
    | .ok false => .error (.indexKeyForeign index e)

/-- Attaches expressions one after the other; those from the first failure on stay as they are. -/
def attachExprs (index : String) (columns : List Column) : List Expr → List Expr × Result Unit
  | [] => ([], .ok ())
  | e :: es =>
    match attachExpr index columns e with
    | .error cause => (e :: es, .error cause)
    | .ok q =>
      let (qs, r) := attachExprs index columns es
      (q :: qs, r)

/-- Attaches the keys.  Their types are known once all of them are attached. -/
def attachBase (columns : List Column) : BaseIndex → BaseIndex × Result Unit
  | .ordered i =>
    if i.keys.isEmpty then (.ordered i, .error (.indexWithoutKeys i.name))
    else
      match attachExprs i.name columns i.keys with
      | (keys, .ok ()) =>
        (.ordered { i with keys, keyTypes := keys.map (Expr.typeIn columns) }, .ok ())
      | (keys, .error cause) => (.ordered { i with keys }, .error cause)
  | .hashed i =>
    match attachExpr i.name columns i.key with
    | .ok key => (.hashed { i with key, keyType := key.typeIn columns }, .ok ())
    | .error cause => (.hashed i, .error cause)

/-- Attaches the index to columns: its condition first, then its keys.  What was attached before a
failure stays so. -/
def attach (columns : List Column) (i : Index) : Index × Result Unit :=
  match i.condition with
  | none =>
    let (base, r) := attachBase columns i.base
    ({ i with base }, r)
  | some c =>
    match attachExpr i.name columns c with
    | .error cause => (i, .error cause)
    | .ok c =>
      let (base, r) := attachBase columns i.base
      ({ condition := some c, base }, r)

end Index

end RelPlan

import RelPlan.Value

/-!
# Columns

A column has a relation, which may be missing, and a name; a reference names a column, with or
without its relation.  A reference without a relation matches by name alone.
-/

namespace RelPlan

/-- Names a column: `relation.name`, or `name` alone. -/
structure ColumnRef where
  relation : Option String
  name : String
deriving DecidableEq, Repr

namespace ColumnRef

/-- The part before the first point is the relation; without a point there is none. -/
def parse (s : String) : ColumnRef :=
  let cs := s.toList
  if '.' ∈ cs then
    ⟨some (String.ofList (cs.takeWhile (· ≠ '.'))), String.ofList ((cs.dropWhile (· ≠ '.')).drop 1)⟩
  else ⟨none, s⟩

def isQualified (r : ColumnRef) : Bool := r.relation.isSome

def text (r : ColumnRef) : String :=
  match r.relation with
  | some relation => relation ++ "." ++ r.name
  | none => r.name

end ColumnRef

/-- A column produced by a plan.  An `internal` column is a helper outside the visible output. -/
structure Column where
  relation : Option String
  name : String
  dataType : DataType
  internal : Bool := false
deriving DecidableEq, Repr

namespace Column

/-- The reference that names the column with its relation. -/
def ref (c : Column) : ColumnRef := ⟨c.relation, c.name⟩

def withRelation (c : Column) (relation : Option String) : Column := { c with relation }

def text (c : Column) : String := c.ref.text

/-- Whether a reference may mean this column. -/
def answers (c : Column) (r : ColumnRef) : Bool :=
  c.name = r.name && (r.relation.isNone || r.relation = c.relation)

end Column

end RelPlan

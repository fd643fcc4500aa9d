import RelPlan.Filter

/-!
# Key ranges

What an ordered index is asked for: bounds on its leading keys, as expressions that are evaluated
once for a scan.  `KeyRange.extract` reads the bounds off the conjuncts of a filter: a conjunct
bounds a key when it compares the key with an expression foreign to the rows that are indexed.
-/

namespace RelPlan

/-- One side of a range on a key. -/
structure Bound where
  expr : Expr
  inclusive : Bool
deriving DecidableEq, Repr

/-- The bounds on one key.  A key has to respect all of them. -/
structure ColumnRange where
  lower : List Bound
  upper : List Bound
deriving DecidableEq, Repr

inductive Direction
  | forward
  | backward
deriving DecidableEq, Repr

/-- Bounds on the leading keys of an index, and the direction to read it in. -/
structure KeyRange where
  columns : List ColumnRange
  direction : Direction
deriving DecidableEq, Repr

namespace Bound

def alike (a b : Bound) : Bool := a.inclusive = b.inclusive && a.expr.alike b.expr

end Bound

/-- Lists of one length whose members are pairwise related. -/
def allPairs {α : Type} (p : α → α → Bool) : List α → List α → Bool
  | [], [] => true
  | a :: as, b :: bs => p a b && allPairs p as bs
  | _, _ => false

namespace ColumnRange

def isEmpty (r : ColumnRange) : Bool := r.lower.isEmpty && r.upper.isEmpty

def alike (a b : ColumnRange) : Bool :=
  allPairs Bound.alike a.lower b.lower && allPairs Bound.alike a.upper b.upper

end ColumnRange

namespace KeyRange

/-- The same bounds in the same direction, with constants compared as keys. -/
def alike (a b : KeyRange) : Bool :=
  allPairs ColumnRange.alike a.columns b.columns && a.direction = b.direction

end KeyRange

/-- A conjunct read as a comparison of a key with another expression. -/
structure Restriction where
  conjunct : Expr
  comparison : Comparison
  other : Expr
deriving DecidableEq, Repr

namespace Restriction

/-- The lower bound that the restriction sets. -/
def lower? (r : Restriction) : Option Bound :=
  match r.comparison with
  | .eq | .ge => some ⟨r.other, true⟩
  | .gt => some ⟨r.other, false⟩
  | _ => none

/-- The upper bound that the restriction sets. -/
def upper? (r : Restriction) : Option Bound :=
  match r.comparison with
  | .eq | .le => some ⟨r.other, true⟩
  | .lt => some ⟨r.other, false⟩
  | _ => none

/-- The restriction in a conjunct one side of which is known to be the key.  `<>` restricts to no
range. -/
def ofComparison (conjunct : Expr) (op : Option BinaryOp) (other : Expr) : Option Restriction :=
  match op with
  | some (.cmp .ne) => none
  | some (.cmp c) => some ⟨conjunct, c, other⟩
  | _ => none

/-- The restriction that a conjunct sets on `key`, if it has the key on one side and a foreign
expression on the other.  With the key on the right the comparison is flipped. -/
def ofConjunct (foreign : Expr → Result Bool) (key conjunct : Expr) : Result (Option Restriction) :=
  match conjunct with
  | .binary op l r => do
    let keyLeft ← if l.equiv key then foreign r else pure false
    if keyLeft then pure (ofComparison conjunct (some op) r)
    else
      let keyRight ← if r.equiv key then foreign l else pure false
      if keyRight then pure (ofComparison conjunct op.flip? l) else pure none
  | _ => .ok none

/-- The restrictions that a list of conjuncts sets on `key`. -/
def ofConjuncts (foreign : Expr → Result Bool) (key : Expr) :
    List Expr → Result (List Restriction)
  | [] => .ok []
  | e :: es => do
    let r ← ofConjunct foreign key e
    let rs ← ofConjuncts foreign key es
    pure (r.toList ++ rs)

end Restriction

/-- The range on a key that its restrictions describe. -/
def ColumnRange.ofRestrictions (rs : List Restriction) : ColumnRange :=
  ⟨rs.filterMap Restriction.lower?, rs.filterMap Restriction.upper?⟩

/-- The ranges on the leading keys, up to the first key without a bound, and the conjuncts that they
stand for, after those already `consumed`. -/
def KeyRange.extractFrom (foreign : Expr → Result Bool) (conjuncts consumed : List Expr) :
    List Expr → Result (List ColumnRange × List Expr)
  | [] => .ok ([], consumed)
  | key :: keys => do
    let rs ← Restriction.ofConjuncts foreign key conjuncts
    if rs.isEmpty then pure ([], consumed)
    else
      let (ranges, consumed) ←
        extractFrom foreign conjuncts (Filter.insertAll consumed (rs.map Restriction.conjunct)) keys
      pure (.ofRestrictions rs :: ranges, consumed)

/-- The ranges that a list of conjuncts sets on the leading keys, and the conjuncts used up. -/
def KeyRange.extract (foreign : Expr → Result Bool) (keys conjuncts : List Expr) :
    Result (List ColumnRange × List Expr) :=
  KeyRange.extractFrom foreign conjuncts [] keys

end RelPlan

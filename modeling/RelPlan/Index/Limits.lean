import RelPlan.Expr.Eval
import RelPlan.Index.Range

/-!
# Evaluated ranges

The values of the bounds of a key range in a scope, several bounds on one side collapsed into the
tightest.  A bound that is `NULL` is respected by no key.
-/

namespace RelPlan

/-- Fails when a value cannot be compared with a column of the given type. -/
def checkComparable (type : DataType) (v : Value) : Result Unit :=
  if v.isNull || type.compatible v.dataType then .ok ()
  else .error (.typeMismatch .comparison type v.dataType)

/-- The value of a bound. -/
structure Limit where
  value : Value
  inclusive : Bool
deriving DecidableEq, Repr

/-- The tightest bounds on one key, where there are any. -/
structure Limits where
  lower : Option Limit
  upper : Option Limit
deriving DecidableEq, Repr

namespace Limit

/-- A value of the key respects the limit as a lower bound. -/
def allowsFromBelow (l : Limit) (v : Value) : Bool :=
  match v.order l.value with
  | .lt => false
  | .eq => l.inclusive
  | .gt => true

/-- A value of the key respects the limit as an upper bound. -/
def allowsFromAbove (l : Limit) (v : Value) : Bool :=
  match v.order l.value with
  | .lt => true
  | .eq => l.inclusive
  | .gt => false

/-- The tighter of two limits; `tighter` says where the tighter value lies.  An equal value that is
excluded is the tighter one. -/
def tighten (tighter : Ordering) (best : Option Limit) (l : Limit) : Limit :=
  match best with
  | none => l
  | some b =>
    let o := l.value.order b.value
    if o = tighter || (o = .eq && !l.inclusive) then l else b

/-- Folds the values of bounds into the tightest limit.  The outer `none` says that a bound is
`NULL`; the bounds after it are not evaluated. -/
def tightestFrom (scope : Scope) (type : DataType) (tighter : Ordering) :
    Option Limit → List Bound → Result (Option (Option Limit))
  | best, [] => .ok (some best)
  | best, b :: bs => do
    let v ← b.expr.eval scope
    checkComparable type v
    if v.isNull then pure none
    else tightestFrom scope type tighter (some (tighten tighter best ⟨v, b.inclusive⟩)) bs

end Limit

namespace Limits

/-- Whether a value of the key lies between the limits. -/
def allow (b : Limits) (v : Value) : Bool :=
  !v.isNull && b.lower.all (·.allowsFromBelow v) && b.upper.all (·.allowsFromAbove v)

/-- Whether a key lies between the limits of each limited column. -/
def allowKey : List Limits → List Value → Bool
  | [], _ => true
  | b :: bs, v :: vs => b.allow v && allowKey bs vs
  | _ :: _, [] => false

/-- Some key up to the given one may respect the lower limits. -/
def reachBelow : List Limits → List Value → Bool
  | b :: bs, v :: vs =>
    match b.lower with
    | none => true
    | some l =>
      match v.order l.value with
      | .lt => false
      | .eq => l.inclusive && reachBelow bs vs
      | .gt => true
  | _, _ => true

/-- Some key from the given one on may respect the upper limits. -/
def reachAbove : List Limits → List Value → Bool
  | b :: bs, v :: vs =>
    match b.upper with
    | none => true
    | some l =>
      match v.order l.value with
      | .lt => true
      | .eq => l.inclusive && reachAbove bs vs
      | .gt => false
  | _, _ => true

/-- The limits of each column, for columns of the given types; beyond them a column has type `any`.
`none` says that some bound is `NULL`. -/
def ofRanges (scope : Scope) : List DataType → List ColumnRange → Result (Option (List Limits))
  | _, [] => .ok (some [])
  | types, c :: cs => do
    let type := types.headD .any
    let lower ← Limit.tightestFrom scope type .gt none c.lower
    let upper ← Limit.tightestFrom scope type .lt none c.upper
    let rest ← ofRanges scope types.tail cs
    match lower, upper, rest with
    | some lower, some upper, some rest => pure (some (⟨lower, upper⟩ :: rest))
    | _, _, _ => pure none

end Limits

end RelPlan

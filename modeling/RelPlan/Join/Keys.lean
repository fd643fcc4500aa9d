import RelPlan.Join.Strategy
import RelPlan.Scan

/-!
# Join keys

The key of a row is its values under the key expressions.  A row with a `NULL` among them has no key
and joins with nothing.
-/

namespace RelPlan

/-- A row with its join key. -/
structure Keyed where
  row : Row
  key : List Value
deriving DecidableEq, Repr

/-- The key of a row.  Evaluation stops at the first `NULL`. -/
def joinKey (scope : Scope) (row : Row) : List Expr → Result (Option (List Value))
  | [] => .ok (some [])
  | e :: es => do
    let v ← e.evalRow scope row
    if v.isNull then pure none else return (← joinKey scope row es).map (v :: ·)

/-- The rows that have a key, with it. -/
def Scan.keyed (scope : Scope) (keys : List Expr) : Scan Row → Scan Keyed :=
  Scan.filterMap fun row => return (← joinKey scope row keys).map (⟨row, ·⟩)

end RelPlan

import RelPlan.Scan

/-!
# Nested-loop joins

The right input is opened anew for every left row, which is then the innermost outer row of its
scope.
-/

namespace RelPlan

/-- Each left row with the rows that the right input yields for it. -/
def nestedLoop (columns : List Column) (right : Row → Logged (Unit → Scan Row))
    (left : Unit → Scan Row) : Scan Row :=
  (left ()).bind fun l => (Scan.ofLogged (right l)).map fun r => l.concat r columns

end RelPlan

import RelPlan.Plan.Run
import RelPlan.Settings

/-!
# Queries

A query says which rows are wanted, over tables and inline rows.  Running it builds a plan,
optimizes it, and collects the rows.
-/

namespace RelPlan

inductive Query
  | table (t : Table)
  | values (columns : List Column) (rows : List (List Value))
  | filter (predicate : Expr) (input : Query)
  | sort (order : SortOrder) (input : Query)
  | project (outputs : List (String × Expr)) (input : Query)
  | limit (count : Nat) (input : Query)
  | offset (count : Nat) (input : Query)
  | rename (name : String) (input : Query)
  | join (condition : Option Expr) (left right : Query)
  | union (distinct : Bool) (left right : Query)

namespace Query

/-- The plan of a query, before optimization. -/
def plan (settings : Settings) : Query → Result Plan
  | table t => .ok (.read t settings.access)
  | values columns rows => Plan.values columns rows
  | filter predicate input => return (← input.plan settings).filter predicate
  | sort order input => return (← input.plan settings).sort order
  | project outputs input => return (← input.plan settings).project outputs
  | limit count input => return (← input.plan settings).limit count
  | offset count input => return (← input.plan settings).offset count
  | rename name input => return (← input.plan settings).rename name
  | join condition left right => do
    let left ← left.plan settings
    let right ← right.plan settings
    return .join condition settings.join left right
  | union distinct left right => do
    let left ← left.plan settings
    let right ← right.plan settings
    return .union distinct left right

/-- The rows of a query. -/
def run (settings : Settings) (q : Query) : Logged (List Row) := do
  (← q.plan settings).execute.2

end Query

end RelPlan

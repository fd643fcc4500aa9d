import RelPlan.Expr

/-!
# Errors

What can go wrong while a query is planned or run.  A constructor is a cause; `message` is its
wording.
-/

namespace RelPlan

/-- The operation whose operands do not fit. -/
inductive Operation
  | truth
  | comparison
  | negation
  | binary (op : BinaryOp)
  | storing (column : ColumnRef)
deriving DecidableEq, Repr

def Operation.text : Operation → String
  | truth => "boolean test"
  | comparison => "comparison"
  | negation => "-"
  | binary op => op.symbol
  | storing c => "insert into " ++ c.text

inductive QueryError
  | unknownColumn (r : ColumnRef)
  | ambiguousColumn (r : ColumnRef)
  | incompatibleColumns (position : Nat) (left right : DataType)
  /-- A key or condition of the index cannot be read against the table's columns. -/
  | indexKeyInvalid (index : String) (cause : QueryError)
  | indexKeyForeign (index : String) (key : Expr)
  | indexWithoutKeys (index : String)
  | indexNested (index : String)
  | indexDuplicate (index table : String)
  | indexProbeMismatch (index : String)
  | notOptimized (node : String)
  | alreadyOptimized (node : String)
  | typeMismatch (operation : Operation) (left right : DataType)
  | divisionByZero
  | integerOverflow
  | missingRow (table index : String) (tid : Nat)
  | uniqueViolation (index : String) (key : List Value)
  | unstoredRow
  | arityMismatch (expected found : Nat)
  | markUnsupported
  | badSettings
deriving DecidableEq, Repr

namespace QueryError

private def invalidIndex (index reason : String) : String :=
  "invalid index `" ++ index ++ "`: " ++ reason

/-- The wording of an error. -/
def message : QueryError → String
  | unknownColumn r => "unknown field `" ++ r.text ++ "`"
  | ambiguousColumn r => "ambiguous field reference `" ++ r.text ++ "`"
  | incompatibleColumns i l r =>
    "incompatible column types at position " ++ toString i ++ ": " ++ l.name ++ " vs " ++ r.name
  | indexKeyInvalid index cause => invalidIndex index cause.message
  | indexKeyForeign index key =>
    invalidIndex index ("`" ++ key.text ++ "` references unknown fields")
  | indexWithoutKeys index => invalidIndex index "no key expressions"
  | indexNested index =>
    invalidIndex index "a partial index cannot wrap another partial index"
  | indexDuplicate index table =>
    invalidIndex index ("an index with this name already exists on `" ++ table ++ "`")
  | indexProbeMismatch index => invalidIndex index "scan options do not match the index kind"
  | notOptimized node => "node `" ++ node ++ "` has not been optimized"
  | alreadyOptimized node => "node `" ++ node ++ "` was already optimized"
  | typeMismatch op l r => "type mismatch in " ++ op.text ++ ": " ++ l.name ++ " vs " ++ r.name
  | divisionByZero => "division by zero"
  | integerOverflow => "integer overflow"
  | missingRow table index tid =>
    "index `" ++ index ++ "` on table `" ++ table ++ "` references missing row " ++ toString tid
  | uniqueViolation index key =>
    "duplicate key (" ++ String.intercalate ", " (key.map Value.display)
      ++ ") violates unique index `" ++ index ++ "`"
  | unstoredRow => "row is not stored in a table"
  | arityMismatch expected found =>
    "expected " ++ toString expected ++ " values, found " ++ toString found
  | markUnsupported => "scanner does not support mark/restore"
  | badSettings => "invalid configuration"

end QueryError

/-- A computation that may fail with a query error. -/
abbrev Result (α : Type) := Except QueryError α

end RelPlan

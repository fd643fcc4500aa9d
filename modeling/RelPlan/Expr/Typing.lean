import RelPlan.Row

/-!
# Types of expressions

The type of the values that an expression has on rows of given columns.  `any` stands where nothing
is known: a reference to no column of the row, or arithmetic on an operand of unknown type.
-/

namespace RelPlan

/-- The type of arithmetic on operands of the given types. -/
def DataType.arith : DataType → DataType → DataType
  | .int, .int => .int
  | .float, r => if r.isNumeric then .float else .any
  | l, .float => if l.isNumeric then .float else .any
  | _, _ => .any

namespace Expr

/-- The type of an expression on rows of the given columns. -/
def typeIn (columns : List Column) : Expr → DataType
  | const v => v.dataType
  | ref r =>
    match resolve columns r with
    | .ok (some i) => (columns[i]?.map Column.dataType).getD .any
    | _ => .any
  | unary .negate e => e.typeIn columns
  | unary _ _ => .bool
  | binary (.arith _) l r => (l.typeIn columns).arith (r.typeIn columns)
  | binary _ _ _ => .bool

end Expr

end RelPlan

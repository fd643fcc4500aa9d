import RelPlan.Expr.Eval

/-!
# Folding

Replaces operators on constants by their result and drops operands that cannot matter to `AND` and
`OR`.  An operator whose evaluation fails stays as it is.
-/

namespace RelPlan.Expr

/-- The constant that an expression is worth outside every row, or the expression. -/
def foldConst (e : Expr) : Expr :=
  match e.eval .empty with
  | .ok v => const v
  | .error _ => e

/-- One operator over folded operands. -/
def foldUnary (op : UnaryOp) (e : Expr) : Expr :=
  if e.isConst then (unary op e).foldConst else unary op e

/-- One operator over folded operands: an operand that decides an `AND` or `OR` is the result, a
neutral one is dropped. -/
def foldBinary (op : BinaryOp) (l r : Expr) : Expr :=
  let folded := if l.isConst && r.isConst then (binary op l r).foldConst else binary op l r
  match op with
  | .and =>
    if l.isTruth false || r.isTruth false then const (.bool false)
    else if l.isTruth true then r
    else if r.isTruth true then l
    else folded
  | .or =>
    if l.isTruth true || r.isTruth true then const (.bool true)
    else if l.isTruth false then r
    else if r.isTruth false then l
    else folded
  | _ => folded

def fold : Expr → Expr
  | unary op e => foldUnary op e.fold
  | binary op l r => foldBinary op l.fold r.fold
  | e => e

end RelPlan.Expr

import RelPlan.Row

/-!
# Evaluation

What the operators do to values, and what an expression is worth in a scope.  A truth value is an
`Option Bool`, unknown being `none`; `AND` and `OR` do not evaluate their right operand when the
left one decides.
-/

namespace RelPlan

namespace Value

/-- The value as a truth value. -/
def truth : Value → Result (Option Bool)
  | null => .ok none
  | bool b => .ok (some b)
  | v => .error (.typeMismatch .truth v.dataType .bool)

def ofTruth : Option Bool → Value
  | some b => bool b
  | none => null

/-- Comparison in a query: unknown as soon as an operand is missing, an error between kinds. -/
def compareSql (a b : Value) : Result (Option Ordering) :=
  if a.isNull || b.isNull then .ok none
  else if a.rank = b.rank then .ok (some (a.order b))
  else .error (.typeMismatch .comparison a.dataType b.dataType)

/-- A number as a datum. -/
def toBinary64? : Value → Option Binary64
  | int n => some (Binary64.ofInt n.toInt)
  | float x => some x
  | _ => none

/-- An integer that has to fit into 64 bits. -/
def ofIntChecked (n : Int) : Result Value :=
  if Int64.minValue.toInt ≤ n ∧ n ≤ Int64.maxValue.toInt then .ok (int (Int64.ofInt n))
  else .error .integerOverflow

end Value

/-- Conjunction of truth values. -/
def truthAnd : Option Bool → Option Bool → Option Bool
  | some false, _ | _, some false => some false
  | some true, some true => some true
  | _, _ => none

/-- Disjunction of truth values. -/
def truthOr : Option Bool → Option Bool → Option Bool
  | some true, _ | _, some true => some true
  | some false, some false => some false
  | _, _ => none

def UnaryOp.apply (op : UnaryOp) (v : Value) : Result Value :=
  match op with
  | .isNull => .ok (.bool v.isNull)
  | .isNotNull => .ok (.bool !v.isNull)
  | .not => return .ofTruth ((← v.truth).map (!·))
  | .negate =>
    match v with
    | .null => .ok .null
    | .int n => Value.ofIntChecked (-n.toInt)
    | .float x => .ok (.float x.neg)
    | v => .error (.typeMismatch .negation v.dataType .int)

namespace Arith

/-- Integer arithmetic; division goes toward zero. -/
def applyInt (op : Arith) (a b : Int) : Result Value :=
  match op with
  | add => Value.ofIntChecked (a + b)
  | sub => Value.ofIntChecked (a - b)
  | mul => Value.ofIntChecked (a * b)
  | div => if b = 0 then .error .divisionByZero else Value.ofIntChecked (a.tdiv b)

def applyBinary64 (op : Arith) (x y : Binary64) : Result Value :=
  match op with
  | add => .ok (.float (x.add y))
  | sub => .ok (.float (x.sub y))
  | mul => .ok (.float (x.mul y))
  | div => if y.isZero then .error .divisionByZero else .ok (.float (x.div y))

/-- Two integers give an integer, other numbers a datum, a missing operand a missing result. -/
def apply (op : Arith) (a b : Value) : Result Value :=
  match a, b with
  | .null, _ | _, .null => .ok .null
  | .int m, .int n => op.applyInt m.toInt n.toInt
  | a, b =>
    match a.toBinary64?, b.toBinary64? with
    | some x, some y => op.applyBinary64 x y
    | _, _ => .error (.typeMismatch (.binary (.arith op)) a.dataType b.dataType)

end Arith

/-- Comparison of two values as a truth value. -/
def Comparison.apply (c : Comparison) (a b : Value) : Result Value :=
  return .ofTruth ((← a.compareSql b).map c.holds)

namespace Expr

/-- The worth of an expression whose references are worth `env`. -/
def evalWith (env : ColumnRef → Result Value) : Expr → Result Value
  | const v => .ok v
  | ref r => env r
  | unary op e => do op.apply (← e.evalWith env)
  | binary .and l r => do
    let a ← (← l.evalWith env).truth
    if a = some false then pure (.bool false)
    else
      let b ← (← r.evalWith env).truth
      pure (.ofTruth (truthAnd a b))
  | binary .or l r => do
    let a ← (← l.evalWith env).truth
    if a = some true then pure (.bool true)
    else
      let b ← (← r.evalWith env).truth
      pure (.ofTruth (truthOr a b))
  | binary (.cmp c) l r => do
    let a ← l.evalWith env
    let b ← r.evalWith env
    c.apply a b
  | binary (.arith op) l r => do
    let a ← l.evalWith env
    let b ← r.evalWith env
    op.apply a b
  | binary .distinct l r => do
    let a ← l.evalWith env
    let b ← r.evalWith env
    pure (.bool !(a.same b))

/-- The worth of an expression in a scope. -/
def eval (scope : Scope) (e : Expr) : Result Value := e.evalWith scope.lookup

/-- The worth of an expression on a row, inside a scope. -/
def evalRow (scope : Scope) (row : Row) (e : Expr) : Result Value := e.eval (scope.push row)

/-- Whether a row passes a predicate; unknown does not pass. -/
def holds (scope : Scope) (row : Row) (e : Expr) : Result Bool :=
  return (← (← e.evalRow scope row).truth).getD false

/-- The worth of each expression on a row; the first failure wins. -/
def evalAll (scope : Scope) (row : Row) (es : List Expr) : Result (List Value) :=
  es.mapM (·.evalRow scope row)

end Expr

end RelPlan

import RelPlan.Column

/-!
# Scalar expressions

The syntax of expressions, their text, and the two equalities on them: `equiv` reads a tree up to
the operand order of operators that have a flipped form (`a > b` is `b < a`) and tells constants of
different types apart; `alike` reads a tree as it stands and compares constants as keys.
-/

namespace RelPlan

inductive UnaryOp
  | not
  | negate
  | isNull
  | isNotNull
deriving DecidableEq, Repr

inductive Comparison
  | eq
  | ne
  | lt
  | le
  | gt
  | ge
deriving DecidableEq, Repr

namespace Comparison

/-- The comparison that gives the same answer with its operands swapped. -/
def flip : Comparison → Comparison
  | eq => eq
  | ne => ne
  | lt => gt
  | le => ge
  | gt => lt
  | ge => le

/-- Whether the comparison holds of operands in the given order. -/
def holds : Comparison → Ordering → Bool
  | eq, o => o == .eq
  | ne, o => o != .eq
  | lt, o => o == .lt
  | le, o => o != .gt
  | gt, o => o == .gt
  | ge, o => o != .lt

def symbol : Comparison → String
  | eq => "="
  | ne => "<>"
  | lt => "<"
  | le => "<="
  | gt => ">"
  | ge => ">="

end Comparison

inductive Arith
  | add
  | sub
  | mul
  | div
deriving DecidableEq, Repr

def Arith.symbol : Arith → String
  | add => "+"
  | sub => "-"
  | mul => "*"
  | div => "/"

inductive BinaryOp
  | and
  | or
  | cmp (c : Comparison)
  | arith (a : Arith)
  | distinct
deriving DecidableEq, Repr

namespace BinaryOp

/-- The operator that gives the same result with its operands swapped, if there is one. -/
def flip? : BinaryOp → Option BinaryOp
  | and => some and
  | or => some or
  | cmp c => some (cmp c.flip)
  | arith .add => some (arith .add)
  | arith .mul => some (arith .mul)
  | arith _ => none
  | distinct => some distinct

/-- Operand order does not matter. -/
def isSymmetric (op : BinaryOp) : Bool := op.flip? = some op

def isComparison : BinaryOp → Bool
  | cmp _ => true
  | _ => false

def symbol : BinaryOp → String
  | and => "AND"
  | or => "OR"
  | cmp c => c.symbol
  | arith a => a.symbol
  | distinct => "IS DISTINCT FROM"

end BinaryOp

/-- A scalar expression over the columns in scope. -/
inductive Expr
  | const (v : Value)
  | ref (r : ColumnRef)
  | unary (op : UnaryOp) (e : Expr)
  | binary (op : BinaryOp) (l r : Expr)
deriving DecidableEq, Repr

namespace Expr

/-- The reference written as text. -/
def column (s : String) : Expr := ref (ColumnRef.parse s)

def and (l r : Expr) : Expr := binary .and l r

/-- The written form of an expression: every binary operator stands between parentheses. -/
def text : Expr → String
  | const v => v.display
  | ref r => r.text
  | unary .not e => "NOT " ++ e.text
  | unary .negate e => "-" ++ e.text
  | unary .isNull e => e.text ++ " IS NULL"
  | unary .isNotNull e => e.text ++ " IS NOT NULL"
  | binary op l r => "(" ++ l.text ++ " " ++ op.symbol ++ " " ++ r.text ++ ")"

/-- Equality up to operand order: a flipped operator with swapped operands matches as well. -/
def equiv : Expr → Expr → Bool
  | const a, const b => a.dataType = b.dataType && a.same b
  | ref a, ref b => a = b
  | unary op a, unary op' b => op = op' && a.equiv b
  | binary op a b, binary op' a' b' =>
    (op = op' && a.equiv a' && b.equiv b') || (op.flip? = some op' && a.equiv b' && b.equiv a')
  | _, _ => false

/-- The same tree, with constants compared as keys. -/
def alike : Expr → Expr → Bool
  | const a, const b => a.same b
  | ref a, ref b => a = b
  | unary op a, unary op' b => op = op' && a.alike b
  | binary op a b, binary op' a' b' => op = op' && a.alike a' && b.alike b'
  | _, _ => false

/-- The operands of the `AND`s at the top, left to right. -/
def conjuncts : Expr → List Expr
  | binary .and l r => l.conjuncts ++ r.conjuncts
  | e => [e]

/-- The references in the expression, left to right, with repetitions. -/
def refs : Expr → List ColumnRef
  | const _ => []
  | ref r => [r]
  | unary _ e => e.refs
  | binary _ l r => l.refs ++ r.refs

/-- The references in the expression, each where it first occurs. -/
def freeRefs (e : Expr) : List ColumnRef := e.refs.eraseDups

/-- Whether the expression is the constant `b`. -/
def isTruth (b : Bool) : Expr → Bool
  | const (.bool c) => c = b
  | _ => false

def isConst : Expr → Bool
  | const _ => true
  | _ => false

/-- Replaces, from the root down, each subexpression for which `f` has a replacement.  A
replacement is not searched again. -/
def replace (f : Expr → Option Expr) (e : Expr) : Expr :=
  match f e with
  | some e' => e'
  | none =>
    match e with
    | unary op a => unary op (a.replace f)
    | binary op a b => binary op (a.replace f) (b.replace f)
    | e => e

/-- `replace` with a replacement that may fail; the first failure in reading order wins. -/
def replaceM {ε : Type} (f : Expr → Except ε (Option Expr)) (e : Expr) : Except ε Expr := do
  match ← f e with
  | some e' => pure e'
  | none =>
    match e with
    | unary op a => return unary op (← a.replaceM f)
    | binary op a b => return binary op (← a.replaceM f) (← b.replaceM f)
    | e => pure e

/-- Puts an expression in the place of each reference.  The substitution is simultaneous. -/
def subst {ε : Type} (f : ColumnRef → Except ε Expr) : Expr → Except ε Expr
  | const v => pure (const v)
  | ref r => f r
  | unary op e => return unary op (← e.subst f)
  | binary op l r => return binary op (← l.subst f) (← r.subst f)

end Expr

end RelPlan

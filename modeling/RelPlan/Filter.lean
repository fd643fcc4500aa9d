import RelPlan.Expr.Fold
import RelPlan.Expr.Rename

/-!
# Filters

A filter is a predicate or nothing, read as the set of its conjuncts.  Sets keep the order in which
conjuncts occur and hold one of several equivalent ones; a set is written back as an `AND` nested to
the left.
-/

namespace RelPlan

/-- A predicate, or none. -/
abbrev Filter := Option Expr

namespace Filter

/-- Whether an equivalent conjunct is in the list. -/
def contains (conjuncts : List Expr) (e : Expr) : Bool := conjuncts.any (·.equiv e)

/-- Adds the conjuncts that have no equivalent in the list yet. -/
def insertAll (conjuncts : List Expr) : List Expr → List Expr
  | [] => conjuncts
  | e :: es => insertAll (if contains conjuncts e then conjuncts else conjuncts ++ [e]) es

/-- The conjuncts of a filter, without repetitions. -/
def conjuncts : Filter → List Expr
  | none => []
  | some e => insertAll [] e.conjuncts

def count (f : Filter) : Nat := f.conjuncts.length

/-- The filter with the given conjuncts. -/
def ofList : List Expr → Filter
  | [] => none
  | e :: es => some (es.foldl Expr.and e)

/-- The conjuncts of all filters, in order. -/
def union (fs : List Filter) : Filter :=
  ofList (insertAll [] (fs.flatMap fun f => (f.map Expr.conjuncts).getD []))

/-- The conjuncts of `f` without an equivalent in `g`. -/
def diff (f g : Filter) : Filter := ofList (f.conjuncts.filter fun e => !contains g.conjuncts e)

/-- The conjuncts of `f` with an equivalent in `g`. -/
def inter (f g : Filter) : Filter := ofList (f.conjuncts.filter fun e => contains g.conjuncts e)

/-- Adds a predicate to those already collected. -/
def push (pending : Filter) (e : Expr) : Filter := union [pending, some e]

/-- Folds a filter; the constant truth is no filter at all. -/
def fold (f : Filter) : Filter :=
  match f.map Expr.fold with
  | some (.const (.bool true)) => none
  | f => f

/-- Gives references to the columns their full names. -/
def qualify (columns : List Column) (f : Filter) : Result Filter := f.mapM (Expr.qualify columns)

/-- Moves a filter from the columns of `source` to those of `target`. -/
def rename (source target : List Column) (f : Filter) : Result Filter :=
  f.mapM (Expr.rename source target)

/-- Parts the conjuncts into those that may move from `own` to `child` and those that must stay,
because `child` would take one of their outer references for a column of its own. -/
def partCaptured (own child : List Column) : List Expr → Result (List Expr × List Expr)
  | [] => .ok ([], [])
  | e :: es => do
    let captured ← e.capturesOuter own child
    let (moving, staying) ← partCaptured own child es
    pure (if captured then (moving, e :: staying) else (e :: moving, staying))

/-- The part of a predicate that may move from `own` to `child`, and the part that must stay. -/
def splitCaptured (own child : List Column) (e : Expr) : Result (Filter × Filter) := do
  let (moving, staying) ← partCaptured own child (conjuncts (some e))
  pure (ofList moving, ofList staying)

end Filter

end RelPlan

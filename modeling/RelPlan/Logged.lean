import RelPlan.SortOrder

/-!
# Notes

Planning and running leave notes on what was decided.  A `Logged` computation yields its notes even
when it fails, and a `Change` keeps the state it has reached.
-/

namespace RelPlan

/-- A decision, with the names it was taken for. -/
inductive Note
  | indexScored (index table : String) (score : UInt32) (absorbed : Nat)
  | conditionNotImplied (index : String)
  | accessChosen (table : String) (index : Option String) (score : UInt32)
  | indexAdded (table index : String) (rows : Nat)
  | rollbackFailed (tid : Nat) (index : String) (cause : QueryError)
  | sorting (node : String)
  | orderProvided (node : String)
  | joinStrategy (node strategy : String)
  | joinResiduals (node : String) (left right : Nat)
  | unionResiduals (node : String) (reported left right : Nat)
  | hashJoinBuilt (rows buckets : Nat)
deriving DecidableEq, Repr

namespace Note

/-- The wording of a note. -/
def text : Note → String
  | indexScored index table score absorbed =>
    "index " ++ index ++ " on " ++ table ++ ": score " ++ toString score ++ " ("
      ++ toString absorbed ++ " conjuncts absorbed)"
  | conditionNotImplied index => "index " ++ index ++ ": partial condition not implied by filter"
  | accessChosen table index score =>
    let path :=
      match index with
      | some index => "index scan of " ++ table ++ " using " ++ index
      | none => "table scan of " ++ table
    "access for " ++ table ++ ": " ++ path ++ " (score " ++ toString score ++ ")"
  | indexAdded table index rows =>
    "table " ++ table ++ ": added index " ++ index ++ " over " ++ toString rows ++ " rows"
  | rollbackFailed tid index cause =>
    "rollback of tid " ++ toString tid ++ " in index " ++ index ++ " failed: " ++ cause.message
  | sorting node => node ++ ": sorting"
  | orderProvided node => node ++ ": order provided by child"
  | joinStrategy node strategy => node ++ ": " ++ strategy
  | joinResiduals node left right =>
    node ++ ": " ++ toString left ++ " residual conjunct(s) on the left, " ++ toString right
      ++ " on the right"
  | unionResiduals node reported left right =>
    node ++ ": " ++ toString reported ++ " conjunct(s) reported, " ++ toString left
      ++ " checked on the left, " ++ toString right ++ " on the right"
  | hashJoinBuilt rows buckets =>
    "hash join built " ++ toString rows ++ " row(s) in " ++ toString buckets ++ " bucket(s)"

end Note

/-- A result and the notes taken on the way to it, a failure included. -/
structure Logged (α : Type) where
  notes : List Note
  result : Result α

namespace Logged

variable {α β : Type}

def ofResult (r : Result α) : Logged α := ⟨[], r⟩

def fail (e : QueryError) : Logged α := ⟨[], .error e⟩

def note (n : Note) : Logged Unit := ⟨[n], .ok ()⟩

def bind (x : Logged α) (f : α → Logged β) : Logged β :=
  match x.result with
  | .ok a =>
    let y := f a
    ⟨x.notes ++ y.notes, y.result⟩
  | .error e => ⟨x.notes, .error e⟩

instance : Monad Logged where
  pure a := ⟨[], .ok a⟩
  bind := bind

instance : MonadLift Result Logged := ⟨ofResult⟩

end Logged

/-- An operation on a state.  The state it leaves is there after a failure too. -/
abbrev Change (σ α : Type) := σ → σ × Logged α

end RelPlan

import RelPlan.Looping
import RelPlan.Scan

/-!
# Scanners with a state

A scanner is called for one row at a time, and its state says where it has got to.  A call takes
turns until one of them comes to a row or the end, and calls are made until the end or a failure.
Nothing says that either loop ends.
-/

namespace RelPlan

/-- An operation of a scanner: on its state and the notes so far, the latest first. -/
abbrev Pull (σ α : Type) := ExceptT QueryError (StateM (σ × List Note)) α

namespace Pull

variable {σ α : Type}

def ofLogged (x : Logged α) : Pull σ α := do
  modify fun (s, notes) => (s, x.notes.reverse ++ notes)
  ofExcept x.result

/-- One more turn of a call.  A turn without an outcome is followed by another one. -/
def callTurn (turn : Pull σ (Option (Option Row))) (s : σ × List Note) :
    Part (Result (Option Row) × (σ × List Note) ⊕ σ × List Note) :=
  match turn.run.run s with
  | (.error e, s) => .some (.inl (.error e, s))
  | (.ok (some outcome), s) => .some (.inl (.ok outcome, s))
  | (.ok none, s) => .some (.inr s)

/-- The next row, or `none` at the end. -/
def call (turn : Pull σ (Option (Option Row))) :
    σ × List Note → Part (Result (Option Row) × (σ × List Note)) :=
  untilResult (callTurn turn)

def collectTurn (turn : Pull σ (Option (Option Row))) :
    (σ × List Note) × List Row → Part (Logged (List Row) ⊕ (σ × List Note) × List Row)
  | (s, rows) => do
    match ← call turn s with
    | (.error e, _, notes) => return .inl ⟨notes.reverse, .error e⟩
    | (.ok none, _, notes) => return .inl ⟨notes.reverse, .ok rows.reverse⟩
    | (.ok (some row), s) => return .inr (s, row :: rows)

/-- All rows, or the first failure. -/
def collect (turn : Pull σ (Option (Option Row))) (s : σ) : Part (Logged (List Row)) :=
  untilResult (collectTurn turn) ((s, []), [])

end Pull

end RelPlan

import RelPlan.Join.Keys

/-!
# Merge joins

Both inputs come sorted by their keys, and a group is a run of right rows with one key.  When the
next left row has the key of the group, the right input is read again from the mark that was set
behind the first row of the group, so the right input has to be kept.
-/

namespace RelPlan

/-- The first right row of a group, and what came after it. -/
structure MergeGroup where
  first : Keyed
  rest : Unit → Scan Keyed

/-- Whether the keys are equal, as far as both go. -/
def sameGroup (a b : Keyed) : Bool := orderKeys a.key b.key = .eq

/-- Joins a left row with the rest of its group, then goes on from the first row beyond it. -/
def mergeGroup (join : Row → Row → Result Row) (left first : Keyed)
    (next : (Unit → Scan Keyed) → Scan Row) : Scan Keyed → Scan Row
  | .done => next fun _ => .done
  | .fail e => .fail e
  | .note n right => .note n fun _ => mergeGroup join left first next (right ())
  | .row x right =>
    if sameGroup x first then
      .push (join left.row x.row) fun _ => mergeGroup join left first next (right ())
    else next fun _ => .row x right

/-- Joins the rest of the left input.  `notes` are still to be given out, and `group` is the group
of the left row before.  A left row below the head of the right input has no partner. -/
def mergeFrom (join : Row → Row → Result Row) (kept : Bool) :
    List Note → (Unit → Scan Keyed) → Option MergeGroup → Scan Keyed → Scan Row
  | notes, right, _, .done => .withNotes notes fun _ => (right ()).probe
  | notes, _, _, .fail e => .withNotes notes fun _ => .fail e
  | notes, right, group, .note n left =>
    .withNotes notes fun _ => .note n fun _ => mergeFrom join kept [] right group (left ())
  | notes, right, group, .row x left =>
    let joinGroup := fun (g : MergeGroup) =>
      Scan.push (join x.row g.first.row) fun _ =>
        mergeGroup join x g.first (fun beyond => mergeFrom join kept [] beyond (some g) (left ()))
          (g.rest ())
    match group.filter fun g => sameGroup x g.first with
    | some g => .withNotes notes fun _ => joinGroup g
    | none =>
      let (found, rest) := (right ()).seek fun y => orderKeys x.key y.key != .gt
      let notes := notes ++ found.notes
      match found.result with
      | .error e => .withNotes notes fun _ => .fail e
      | .ok none => .withNotes notes fun _ => .done
      | .ok (some y) =>
        if orderKeys x.key y.key = .lt then
          mergeFrom join kept notes (fun _ => .row y rest) none (left ())
        else .withNotes notes fun _ => if kept then joinGroup ⟨y, rest⟩ else .fail .markUnsupported

/-- The pairs of rows with equal keys, of inputs sorted by them. -/
def mergeJoin (scope : Scope) (columns : List Column) (pairs : List KeyPair)
    (left : Unit → Scan Row) (right : Opened) : Scan Row :=
  mergeFrom (fun l r => l.concat r columns) right.kept []
    (fun _ => (right.scan ()).keyed scope (pairs.map KeyPair.right)) none
    ((left ()).keyed scope (pairs.map KeyPair.left))

end RelPlan

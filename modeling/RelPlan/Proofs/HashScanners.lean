import RelPlan.Join.Scanners
import RelPlan.Proofs.PulledRows

/-!
# Hash joins row by row

The scanner of a hash join reads the right input at its first call.  From then on it stands for the
rows that are pending, followed by the join of what the left input still holds with the table
(`collected_built`), so its calls come to an end with what the join drains to (`collect_eq`).
-/

namespace RelPlan

section
variable {scope : Scope} {columns : List Column} {pairs : List KeyPair} {keys : List Expr}
  {notes : List Note} {rows : List Row} {table : HashTable}

theorem Scan.keyed_row (a : Row) (s : Unit → Scan Row) :
    (row a s).keyed scope keys =
      match joinKey scope a keys with
      | .ok (some key) => row ⟨a, key⟩ fun _ => (s ()).keyed scope keys
      | .ok none => (s ()).keyed scope keys
      | .error e => fail e := by
  rw [keyed, filterMap]
  rcases joinKey scope a keys with e | _ | key <;> rfl

theorem drainAfter_buildThen (probe : HashTable → Scan Row) (s : Scan Row) (notes : List Note) :
    (buildThen probe table (s.keyed scope keys)).drainAfter notes rows =
      match (table.read scope keys s).result with
      | .ok table' =>
        (probe table').drainAfter ((table.read scope keys s).notes.reverse ++ notes) rows
      | .error e => ⟨((table.read scope keys s).notes.reverse ++ notes).reverse, .error e⟩ := by
  induction s generalizing table notes with
  | done => rfl
  | fail e => rfl
  | note n s ih =>
    rw [show (Scan.note n s).keyed scope keys = .note n fun _ => (s ()).keyed scope keys from rfl]
    rw [buildThen, Scan.drainAfter, ih, HashTable.read]
    simp
  | row a s ih =>
    rw [Scan.keyed_row, HashTable.read]
    rcases joinKey scope a keys with e | _ | key
    · rfl
    · exact ih () notes
    · exact ih () notes

end

namespace HashScanner

variable {scope : Scope} {columns : List Column} {pairs : List KeyPair} {notes : List Note}
  {rows : List Row} {table : HashTable} {left : Unit → Scan Row}

theorem turn_pending (row : Row) (pending : List Row) :
    (turn scope columns pairs).run.run (⟨left, none, table, row :: pending⟩, notes) =
      (.ok (some (some row)), ⟨left, none, table, pending⟩, notes) := rfl

theorem run_nextLeft (s : HashScanner) (notes : List Note) :
    nextLeft.run.run (s, notes) = ((s.left ()).next.1.result, { s with left := (s.left ()).next.2 },
      (s.left ()).next.1.notes.reverse ++ notes) := by
  rw [nextLeft, Pull.run_bind, Pull.run_get]
  exact Pull.run_ofLogged ..

theorem run_turn :
    (turn scope columns pairs).run.run (⟨left, none, table, []⟩, notes) =
      match (left ()).next with
      | (⟨taken, .error e⟩, rest) =>
        (.error e, ⟨rest, none, table, []⟩, taken.reverse ++ notes)
      | (⟨taken, .ok none⟩, rest) =>
        (.ok (some none), ⟨rest, none, table, []⟩, taken.reverse ++ notes)
      | (⟨taken, .ok (some row)⟩, rest) =>
        match probe scope columns pairs table row with
        | .ok pending => (.ok none, ⟨rest, none, table, pending⟩, taken.reverse ++ notes)
        | .error e => (.error e, ⟨rest, none, table, []⟩, taken.reverse ++ notes) := by
  rw [turn, Pull.run_bind]
  show (nextLeft >>= _ : Pull HashScanner _).run.run (⟨left, none, table, []⟩, notes) = _
  rw [Pull.run_bind, run_nextLeft]
  rcases (left ()).next with ⟨⟨taken, e | _ | row⟩, rest⟩
  · rfl
  · rfl
  · show (ofExcept (probe scope columns pairs table row) >>= _ : Pull HashScanner _).run.run _ = _
    rw [Pull.run_bind, Pull.run_ofExcept]
    dsimp only
    rcases probe scope columns pairs table row with e | pending <;> rfl

theorem collected_pending (pending rows : List Row) :
    Pull.collected (turn scope columns pairs) (⟨left, none, table, pending⟩, notes) rows =
      Pull.collected (turn scope columns pairs) (⟨left, none, table, []⟩, notes)
        (pending.reverse ++ rows) := by
  induction pending generalizing rows with
  | nil => rfl
  | cons row pending ih =>
    rw [Pull.collected_eq, turn_pending, Pull.resumed, ih]
    simp

theorem collected_built {s : Scan Row} (h : left () = s) :
    Pull.collected (turn scope columns pairs) (⟨left, none, table, []⟩, notes) rows =
      .some (((s.keyed scope (pairs.map KeyPair.left)).bind
        (probeTable scope columns (pairs.map KeyPair.right) table)).drainAfter notes rows) := by
  induction s generalizing left notes rows with
  | done =>
    rw [Pull.collected_eq, run_turn, h]
    rfl
  | fail e =>
    rw [Pull.collected_eq, run_turn, h]
    rfl
  | note n s ih =>
    have hturn : (turn scope columns pairs).run.run (⟨left, none, table, []⟩, notes) =
        (turn scope columns pairs).run.run (⟨s, none, table, []⟩, n :: notes) := by
      rw [run_turn, run_turn, h, Scan.next, Scan.seek_note, ← Scan.next]
      rcases (s ()).next with ⟨⟨taken, e | _ | row⟩, rest⟩ <;> simp
    rw [Pull.collected_eq, hturn, ← Pull.collected_eq, ih () rfl]
    rfl
  | row a s ih =>
    rw [Pull.collected_eq, run_turn, h, Scan.next, Scan.seek_row, if_pos rfl,
      Scan.keyed_row]
    dsimp only
    rw [probe]
    cases hkey : joinKey scope a (pairs.map KeyPair.left) with
    | error e => rfl
    | ok key =>
      cases key with
      | none => exact ih () rfl
      | some key =>
        rw [Scan.bind_row, probeTable]
        simp only [Result.ok_bind]
        cases joinEach scope columns (pairs.map KeyPair.right) ⟨a, key⟩ (table.lookup key) with
        | error e => rfl
        | ok pending =>
          dsimp only
          rw [Scan.drainAfter_append, ← ih () rfl]
          exact collected_pending pending rows

theorem run_buildTable (left right : Unit → Scan Row) :
    (buildTable scope pairs).run.run (⟨left, some right, {}, []⟩, notes) =
      match HashTable.read scope (pairs.map KeyPair.right) {} (right ()) with
      | ⟨taken, .ok table⟩ => (.ok (), ⟨left, none, table, []⟩, taken.reverse ++ notes)
      | ⟨taken, .error e⟩ => (.error e, ⟨left, none, {}, []⟩, taken.reverse ++ notes) := by
  rw [buildTable, Pull.run_bind]
  show (Pull.ofLogged (HashTable.read scope (pairs.map KeyPair.right) {} (right ())) >>= _ :
    Pull HashScanner _).run.run (⟨left, none, {}, []⟩, notes) = _
  rw [Pull.run_bind, Pull.run_ofLogged]
  rcases HashTable.read scope (pairs.map KeyPair.right) {} (right ()) with ⟨taken, e | table⟩ <;>
    rfl

/-- The calls of a hash join come to an end, with what the join drains to. -/
theorem collect_eq (scope : Scope) (columns : List Column) (pairs : List KeyPair)
    (left right : Unit → Scan Row) :
    Pull.collect (turn scope columns pairs) { left, build := some right } =
      .some (hashJoin scope columns pairs left right).drain := by
  show Pull.collected _ _ _ = .some (Scan.drainAfter [] [] (buildThen _ {} _))
  rw [drainAfter_buildThen, Pull.collected_eq, turn, Pull.run_bind, run_buildTable]
  rcases HashTable.read scope (pairs.map KeyPair.right) {} (right ()) with ⟨taken, e | table⟩
  · rfl
  · dsimp only
    rw [← collected_built rfl, Pull.collected_eq, turn, Pull.run_bind]
    rfl

end HashScanner

end RelPlan

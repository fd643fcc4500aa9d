import RelPlan.Proofs.HashScanners

/-!
# Merge joins row by row

The scanner of a merge join is between groups, or in one.  Between groups it stands for the join of
the left rows to come with the right rows from the one at hand on (`BetweenRows`).  In a group it
stands for the rest of the group, and then for the left rows to come, the first of which may have
the key of the group and move the right input back (`AfterGroup`).  Both are shown by one induction
on the left input, within which a group and the rows below a left row are inductions on the right
one (`collected_group`, `collected_row`), so the calls come to an end with what the join drains to
(`collect_eq`).
-/

namespace RelPlan

section
variable {join : Row → Row → Result Row} {kept : Bool} {taken notes : List Note} {rows : List Row}
  {right left rest : Unit → Scan Keyed} {group : Option MergeGroup} {x y : Keyed}

theorem drainAfter_mergeFrom_notes (left : Scan Keyed) (notes : List Note) :
    (mergeFrom join kept taken right group left).drainAfter notes rows =
      (mergeFrom join kept [] right group left).drainAfter (taken.reverse ++ notes) rows := by
  induction left generalizing taken notes right group with
  | done => simp [mergeFrom, Scan.drainAfter_withNotes]
  | fail e => simp [mergeFrom, Scan.drainAfter_withNotes]
  | note n s ih => simp [mergeFrom, Scan.drainAfter_withNotes]
  | row x s ih =>
    simp only [mergeFrom]
    split
    · simp [Scan.drainAfter_withNotes]
    · split
      · simp [Scan.drainAfter_withNotes]
      · simp [Scan.drainAfter_withNotes]
      · split
        · rw [ih () notes, ih () (taken.reverse ++ notes)]
          simp
        · simp [Scan.drainAfter_withNotes]

theorem mergeFrom_row_same {g : MergeGroup} (h : sameGroup x g.first) :
    mergeFrom join kept [] right (some g) (.row x left) =
      .push (join x.row g.first.row) fun _ =>
        mergeGroup join x g.first (fun beyond => mergeFrom join kept [] beyond (some g) (left ()))
          (g.rest ()) := by
  simp only [mergeFrom, Option.filter_some, if_pos h]
  rfl

theorem mergeFrom_row_of_ne (h : ∀ g ∈ group, sameGroup x g.first = false) :
    mergeFrom join kept [] right group (.row x left) =
      mergeFrom join kept [] right none (.row x left) := by
  have hnone : group.filter (fun g => sameGroup x g.first) = none := by
    simpa [Option.filter_eq_none_iff] using h
  simp only [mergeFrom, hnone, Option.filter_none]

theorem drainAfter_mergeFrom_row_note {n : Note} (h : right () = .note n rest) :
    (mergeFrom join kept [] right none (.row x left)).drainAfter notes rows =
      (mergeFrom join kept [] rest none (.row x left)).drainAfter (n :: notes) rows := by
  simp only [mergeFrom, h, Scan.seek_note, Option.filter_none]
  split
  · simp [Scan.drainAfter_withNotes]
  · simp [Scan.drainAfter_withNotes]
  · split
    · rw [drainAfter_mergeFrom_notes, drainAfter_mergeFrom_notes _ (n :: notes)]
      simp
    · simp [Scan.drainAfter_withNotes]

theorem mergeFrom_row_gt (h : right () = .row y rest) (hgt : orderKeys x.key y.key = .gt) :
    mergeFrom join kept [] right none (.row x left) =
      mergeFrom join kept [] rest none (.row x left) := by
  simp only [mergeFrom, h, Scan.seek_row, hgt, Option.filter_none]
  rfl

theorem mergeFrom_row_lt (h : right () = .row y rest) (hlt : orderKeys x.key y.key = .lt) :
    mergeFrom join kept [] right none (.row x left) =
      mergeFrom join kept [] (fun _ => .row y rest) none (left ()) := by
  simp [mergeFrom, h, Scan.seek_row, hlt]

theorem mergeFrom_row_eq (h : right () = .row y rest) (heq : orderKeys x.key y.key = .eq) :
    mergeFrom join kept [] right none (.row x left) =
      if kept then
        .push (join x.row y.row) fun _ =>
          mergeGroup join x y
            (fun beyond => mergeFrom join kept [] beyond (some ⟨y, rest⟩) (left ())) (rest ())
      else .fail .markUnsupported := by
  simp [mergeFrom, h, Scan.seek_row, heq, Scan.withNotes]

theorem mergeFrom_row_done (h : right () = .done) :
    mergeFrom join kept [] right none (.row x left) = .done := by
  simp [mergeFrom, h, Scan.seek, Scan.seekAfter, Scan.withNotes]

theorem mergeFrom_row_fail {e : QueryError} (h : right () = .fail e) :
    mergeFrom join kept [] right none (.row x left) = .fail e := by
  simp [mergeFrom, h, Scan.seek, Scan.seekAfter, Scan.withNotes]

end

theorem drainAfter_probe_keyed {scope : Scope} {keys : List Expr} (s : Scan Row)
    (notes : List Note) (rows : List Row) :
    ((s.keyed scope keys).probe : Scan Row).drainAfter notes rows =
      ⟨((s.nextKeyed scope keys).1.notes.reverse ++ notes).reverse,
        (fun _ => rows.reverse) <$> (s.nextKeyed scope keys).1.result⟩ := by
  induction s generalizing notes with
  | done => rfl
  | fail e => rfl
  | note n s ih =>
    show ((s ()).keyed scope keys).probe.drainAfter (n :: notes) rows = _
    rw [ih, Scan.nextKeyed]
    simp
  | row a s ih =>
    rw [Scan.keyed_row, Scan.nextKeyed]
    rcases joinKey scope a keys with e | _ | key
    · rfl
    · exact ih () notes
    · rfl

/-! ### Turns -/

namespace MergeScanner

variable {scope : Scope} {columns : List Column} {pairs : List KeyPair} {notes : List Note}
  {rows : List Row} {left rest mark : Unit → Scan Row} {saved : Option (Unit → Scan Row)}
  {x y first : Keyed} {x? y? group : Option Keyed}

theorem run_nextLeft (s : MergeScanner) (notes : List Note) :
    (nextLeft scope pairs).run.run (s, notes) =
      match (s.left ()).nextKeyed scope (pairs.map KeyPair.left) with
      | (⟨taken, x⟩, left) => (x, { s with left }, taken.reverse ++ notes) := by
  rw [nextLeft, Pull.run_bind]
  exact Pull.run_ofLogged ..

theorem run_nextRight (s : MergeScanner) (notes : List Note) :
    (nextRight scope pairs).run.run (s, notes) =
      match (s.right.rest ()).nextKeyed scope (pairs.map KeyPair.right) with
      | (⟨taken, y⟩, rest) =>
        (y, { s with right := { s.right with rest } }, taken.reverse ++ notes) := by
  rw [nextRight, Pull.run_bind]
  exact Pull.run_ofLogged ..

theorem run_fillLeft :
    (fillLeft scope pairs).run.run (⟨left, ⟨rest, saved⟩, none, y?, group⟩, notes) =
      match (left ()).nextKeyed scope (pairs.map KeyPair.left) with
      | (⟨taken, .error e⟩, left) =>
        (.error e, ⟨left, ⟨rest, saved⟩, none, y?, group⟩, taken.reverse ++ notes)
      | (⟨taken, .ok x?⟩, left) =>
        (.ok (), ⟨left, ⟨rest, saved⟩, x?, y?, group⟩, taken.reverse ++ notes) := by
  rw [fillLeft, Pull.run_bind, Pull.run_get]
  show (nextLeft scope pairs >>= _ : Pull MergeScanner _).run.run
    (⟨left, ⟨rest, saved⟩, none, y?, group⟩, notes) = _
  rw [Pull.run_bind, run_nextLeft]
  dsimp only
  rcases (left ()).nextKeyed scope (pairs.map KeyPair.left) with ⟨⟨taken, e | x?⟩, left⟩ <;> rfl

theorem run_fillRight :
    (fillRight scope pairs).run.run (⟨left, ⟨rest, saved⟩, x?, none, group⟩, notes) =
      match (rest ()).nextKeyed scope (pairs.map KeyPair.right) with
      | (⟨taken, .error e⟩, rest) =>
        (.error e, ⟨left, ⟨rest, saved⟩, x?, none, group⟩, taken.reverse ++ notes)
      | (⟨taken, .ok y?⟩, rest) =>
        (.ok (), ⟨left, ⟨rest, saved⟩, x?, y?, group⟩, taken.reverse ++ notes) := by
  rw [fillRight, Pull.run_bind, Pull.run_get]
  show (nextRight scope pairs >>= _ : Pull MergeScanner _).run.run
    (⟨left, ⟨rest, saved⟩, x?, none, group⟩, notes) = _
  rw [Pull.run_bind, run_nextRight]
  dsimp only
  rcases (rest ()).nextKeyed scope (pairs.map KeyPair.right) with ⟨⟨taken, e | y?⟩, rest⟩ <;> rfl

theorem run_emit (x y : Keyed) (s : MergeScanner × List Note) :
    (emit columns x y).run.run s =
      match x.row.concat y.row columns with
      | .ok row => (.ok (some (some row)), s)
      | .error e => (.error e, s) := by
  rw [emit, Pull.run_bind, Pull.run_ofExcept]
  cases x.row.concat y.row columns <;> rfl

/-- Two rows at hand are joined if they have one key, else the lower one is dropped. -/
theorem run_turn_meet :
    (turn scope columns pairs).run.run (⟨left, ⟨rest, saved⟩, some x, some y, none⟩, notes) =
      match orderKeys x.key y.key with
      | .lt => (.ok none, ⟨left, ⟨rest, saved⟩, none, some y, none⟩, notes)
      | .gt => (.ok none, ⟨left, ⟨rest, saved⟩, some x, none, none⟩, notes)
      | .eq =>
        match saved with
        | none => (.error .markUnsupported, ⟨left, ⟨rest, saved⟩, some x, some y, none⟩, notes)
        | some _ =>
          match x.row.concat y.row columns with
          | .error e => (.error e, ⟨left, ⟨rest, some rest⟩, some x, none, none⟩, notes)
          | .ok row =>
            (.ok (some (some row)), ⟨left, ⟨rest, some rest⟩, some x, none, some y⟩, notes) := by
  show (meet columns).run.run (⟨left, ⟨rest, saved⟩, some x, some y, none⟩, notes) = _
  rw [meet, Pull.run_bind, Pull.run_get]
  dsimp only
  cases orderKeys x.key y.key with
  | lt => rfl
  | gt => rfl
  | eq =>
    cases saved with
    | none => rfl
    | some m =>
      show (emit columns x y >>= _ : Pull MergeScanner _).run.run
        (⟨left, ⟨rest, some rest⟩, some x, none, none⟩, notes) = _
      rw [Pull.run_bind, run_emit]
      dsimp only
      cases x.row.concat y.row columns <;> rfl

theorem run_leaveGroup (beyond : Option Keyed) :
    (leaveGroup scope columns pairs first beyond).run.run
        (⟨left, ⟨rest, some mark⟩, x?, y?, group⟩, notes) =
      match (left ()).nextKeyed scope (pairs.map KeyPair.left) with
      | (⟨taken, .error e⟩, left) =>
        (.error e, ⟨left, ⟨rest, some mark⟩, x?, beyond, group⟩, taken.reverse ++ notes)
      | (⟨taken, .ok next⟩, left) =>
        match next.filter fun x => sameGroup x first with
        | none =>
          (.ok none, ⟨left, ⟨rest, some mark⟩, next, beyond, none⟩, taken.reverse ++ notes)
        | some x =>
          match x.row.concat first.row columns with
          | .error e =>
            (.error e, ⟨left, ⟨mark, some mark⟩, x?, beyond, group⟩, taken.reverse ++ notes)
          | .ok row =>
            (.ok (some (some row)), ⟨left, ⟨mark, some mark⟩, some x, beyond, group⟩,
              taken.reverse ++ notes) := by
  rw [leaveGroup, Pull.run_bind, Pull.run_modify]
  dsimp only
  rw [Pull.run_bind, run_nextLeft]
  rcases (left ()).nextKeyed scope (pairs.map KeyPair.left) with ⟨⟨taken, e | next⟩, left⟩
  · rfl
  · dsimp only
    rcases next.filter fun x => sameGroup x first with _ | x
    · rfl
    · show (emit columns x first >>= _ : Pull MergeScanner _).run.run
        (⟨left, ⟨mark, some mark⟩, x?, beyond, group⟩, _) = _
      rw [Pull.run_bind, run_emit]
      dsimp only
      cases x.row.concat first.row columns <;> rfl

theorem run_turn_group :
    (turn scope columns pairs).run.run
        (⟨left, ⟨rest, saved⟩, some x, y?, some first⟩, notes) =
      match (rest ()).nextKeyed scope (pairs.map KeyPair.right) with
      | (⟨taken, .error e⟩, rest) =>
        (.error e, ⟨left, ⟨rest, saved⟩, some x, y?, some first⟩, taken.reverse ++ notes)
      | (⟨taken, .ok next⟩, rest) =>
        match next.filter fun y => sameGroup y first with
        | none =>
          (leaveGroup scope columns pairs first next).run.run
            (⟨left, ⟨rest, saved⟩, some x, y?, some first⟩, taken.reverse ++ notes)
        | some y =>
          match x.row.concat y.row columns with
          | .error e =>
            (.error e, ⟨left, ⟨rest, saved⟩, some x, y?, some first⟩, taken.reverse ++ notes)
          | .ok row =>
            (.ok (some (some row)), ⟨left, ⟨rest, saved⟩, some x, y?, some first⟩,
              taken.reverse ++ notes) := by
  rw [turn, Pull.run_bind, Pull.run_get]
  dsimp only
  rw [advanceGroup, Pull.run_bind, run_nextRight]
  dsimp only
  rcases (rest ()).nextKeyed scope (pairs.map KeyPair.right) with ⟨⟨taken, e | next⟩, rest⟩
  · rfl
  · dsimp only
    rcases next.filter fun y => sameGroup y first with _ | y
    · rfl
    · show (emit columns x y).run.run
        (⟨left, ⟨rest, saved⟩, some x, y?, some first⟩, taken.reverse ++ notes) = _
      rw [run_emit]
      dsimp only
      cases x.row.concat y.row columns <;> rfl

theorem run_turn_right :
    (turn scope columns pairs).run.run (⟨left, ⟨rest, saved⟩, some x, none, none⟩, notes) =
      match (rest ()).nextKeyed scope (pairs.map KeyPair.right) with
      | (⟨taken, .error e⟩, rest) =>
        (.error e, ⟨left, ⟨rest, saved⟩, some x, none, none⟩, taken.reverse ++ notes)
      | (⟨taken, .ok none⟩, rest) =>
        (.ok (some none), ⟨left, ⟨rest, saved⟩, some x, none, none⟩, taken.reverse ++ notes)
      | (⟨taken, .ok (some y)⟩, rest) =>
        (turn scope columns pairs).run.run
          (⟨left, ⟨rest, saved⟩, some x, some y, none⟩, taken.reverse ++ notes) := by
  have hleft : (fillLeft scope pairs).run.run (⟨left, ⟨rest, saved⟩, some x, none, none⟩, notes) =
      (.ok (), ⟨left, ⟨rest, saved⟩, some x, none, none⟩, notes) := rfl
  rw [turn, Pull.run_bind, Pull.run_get]
  dsimp only
  rw [Pull.run_bind, hleft]
  dsimp only
  rw [Pull.run_bind, run_fillRight]
  rcases (rest ()).nextKeyed scope (pairs.map KeyPair.right) with ⟨⟨taken, e | _ | y⟩, rest⟩ <;> rfl

/-- The left row that is missing is pulled first.  If there is none, the right input is still asked
for a row. -/
theorem run_turn_left :
    (turn scope columns pairs).run.run (⟨left, ⟨rest, saved⟩, none, y?, none⟩, notes) =
      match (left ()).nextKeyed scope (pairs.map KeyPair.left) with
      | (⟨taken, .error e⟩, left) =>
        (.error e, ⟨left, ⟨rest, saved⟩, none, y?, none⟩, taken.reverse ++ notes)
      | (⟨taken, .ok (some x)⟩, left) =>
        (turn scope columns pairs).run.run
          (⟨left, ⟨rest, saved⟩, some x, y?, none⟩, taken.reverse ++ notes)
      | (⟨taken, .ok none⟩, left) =>
        match y? with
        | some y =>
          (.ok (some none), ⟨left, ⟨rest, saved⟩, none, some y, none⟩, taken.reverse ++ notes)
        | none =>
          match (rest ()).nextKeyed scope (pairs.map KeyPair.right) with
          | (⟨taken', .error e⟩, rest) =>
            (.error e, ⟨left, ⟨rest, saved⟩, none, none, none⟩,
              taken'.reverse ++ (taken.reverse ++ notes))
          | (⟨taken', .ok y?⟩, rest) =>
            (.ok (some none), ⟨left, ⟨rest, saved⟩, none, y?, none⟩,
              taken'.reverse ++ (taken.reverse ++ notes)) := by
  rw [turn, Pull.run_bind, Pull.run_get]
  dsimp only
  rw [Pull.run_bind, run_fillLeft]
  rcases (left ()).nextKeyed scope (pairs.map KeyPair.left) with ⟨⟨taken, e | _ | x⟩, left⟩
  · rfl
  · cases y? with
    | some y => rfl
    | none =>
      dsimp only
      rw [Pull.run_bind, run_fillRight]
      rcases (rest ()).nextKeyed scope (pairs.map KeyPair.right) with ⟨⟨taken', e | y?⟩, rest⟩ <;>
        rfl
  · rfl

/-! ### Runs -/

/-- The right rows with a key, from the one at hand on. -/
def ahead (scope : Scope) (pairs : List KeyPair) (y? : Option Keyed) (rest : Unit → Scan Row) :
    Unit → Scan Keyed :=
  match y? with
  | some y => fun _ => .row y fun _ => (rest ()).keyed scope (pairs.map KeyPair.right)
  | none => fun _ => (rest ()).keyed scope (pairs.map KeyPair.right)

/-- The group whose first row stands before the mark. -/
def groupAt (scope : Scope) (pairs : List KeyPair) (first : Keyed) (mark : Unit → Scan Row) :
    MergeGroup :=
  ⟨first, fun _ => (mark ()).keyed scope (pairs.map KeyPair.right)⟩

/-- The join of the left rows to come. -/
def onward (scope : Scope) (columns : List Column) (pairs : List KeyPair) (kept : Bool)
    (left : Unit → Scan Row) (group : Option MergeGroup) (right : Unit → Scan Keyed) : Scan Row :=
  mergeFrom (fun l r => l.concat r columns) kept [] right group
    ((left ()).keyed scope (pairs.map KeyPair.left))

/-- With no left row at hand the scanner stands for the join of those to come. -/
def BetweenRows (scope : Scope) (columns : List Column) (pairs : List KeyPair)
    (left : Unit → Scan Row) : Prop :=
  ∀ rest saved y? notes rows,
    Pull.collected (turn scope columns pairs) (⟨left, ⟨rest, saved⟩, none, y?, none⟩, notes) rows =
      .some ((onward scope columns pairs saved.isSome left none
        (ahead scope pairs y? rest)).drainAfter notes rows)

/-- Where a group has come to an end the scanner stands for the join of the left rows to come, which
may have the key of the group. -/
def AfterGroup (scope : Scope) (columns : List Column) (pairs : List KeyPair)
    (left : Unit → Scan Row) : Prop :=
  ∀ rest mark x? y? beyond first notes rows,
    Pull.resumed (turn scope columns pairs) rows
        ((leaveGroup scope columns pairs first beyond).run.run
          (⟨left, ⟨rest, some mark⟩, x?, y?, some first⟩, notes)) =
      .some ((onward scope columns pairs true left (some (groupAt scope pairs first mark))
        (ahead scope pairs beyond rest)).drainAfter notes rows)

/-- In a group the scanner stands for the rest of the group, and the left rows to come. -/
theorem collected_group (h : AfterGroup scope columns pairs left) (mark : Unit → Scan Row)
    {s : Scan Row} (hs : rest () = s) (notes : List Note) (rows : List Row) :
    Pull.collected (turn scope columns pairs)
        (⟨left, ⟨rest, some mark⟩, some x, y?, some first⟩, notes) rows =
      .some ((mergeGroup (fun l r => l.concat r columns) x first
        (onward scope columns pairs true left (some (groupAt scope pairs first mark)))
        (s.keyed scope (pairs.map KeyPair.right))).drainAfter notes rows) := by
  induction s generalizing rest notes rows with
  | done =>
    rw [Pull.collected_eq, run_turn_group, hs]
    exact h _ mark _ _ none first notes rows
  | fail e =>
    rw [Pull.collected_eq, run_turn_group, hs]
    rfl
  | note n s ih =>
    have hturn : (turn scope columns pairs).run.run
          (⟨left, ⟨rest, some mark⟩, some x, y?, some first⟩, notes) =
        (turn scope columns pairs).run.run
          (⟨left, ⟨s, some mark⟩, some x, y?, some first⟩, n :: notes) := by
      rw [run_turn_group, run_turn_group, hs, Scan.nextKeyed]
      rcases (s ()).nextKeyed scope (pairs.map KeyPair.right) with ⟨⟨taken, e | y?⟩, rest⟩ <;> simp
    rw [Pull.collected_eq, hturn, ← Pull.collected_eq, ih () rfl]
    rfl
  | row a s ih =>
    rw [Pull.collected_eq, run_turn_group, hs, Scan.nextKeyed, Scan.keyed_row]
    rcases joinKey scope a (pairs.map KeyPair.right) with e | _ | key
    · rfl
    · dsimp only
      rw [← run_turn_group, ← Pull.collected_eq]
      exact ih () rfl _ _
    · dsimp only
      rw [mergeGroup, Option.filter_some]
      by_cases hsame : sameGroup ⟨a, key⟩ first
      · rw [if_pos hsame, if_pos hsame]
        dsimp only
        cases x.row.concat a columns with
        | error e => rfl
        | ok row => exact ih () rfl _ _
      · rw [if_neg hsame, if_neg hsame]
        exact h _ mark _ _ (some ⟨a, key⟩) first notes rows

theorem collected_meet (hbetween : BetweenRows scope columns pairs left)
    (hafter : AfterGroup scope columns pairs left) (y : Keyed) (notes : List Note) (rows : List Row)
    (hdropped : ∀ notes rows, Pull.collected (turn scope columns pairs)
        (⟨left, ⟨rest, saved⟩, some x, none, none⟩, notes) rows =
      .some ((mergeFrom (fun l r => l.concat r columns) saved.isSome []
        (ahead scope pairs none rest) none
        (.row x fun _ => (left ()).keyed scope (pairs.map KeyPair.left))).drainAfter notes rows)) :
    Pull.collected (turn scope columns pairs)
        (⟨left, ⟨rest, saved⟩, some x, some y, none⟩, notes) rows =
      .some ((mergeFrom (fun l r => l.concat r columns) saved.isSome []
        (ahead scope pairs (some y) rest) none
        (.row x fun _ => (left ()).keyed scope (pairs.map KeyPair.left))).drainAfter notes
          rows) := by
  rw [Pull.collected_eq, run_turn_meet]
  cases hcmp : orderKeys x.key y.key with
  | lt =>
    rw [mergeFrom_row_lt rfl hcmp]
    exact hbetween rest saved (some y) notes rows
  | gt =>
    rw [mergeFrom_row_gt rfl hcmp]
    exact hdropped notes rows
  | eq =>
    rw [mergeFrom_row_eq rfl hcmp]
    cases saved with
    | none => rfl
    | some m =>
      dsimp only
      cases x.row.concat y.row columns with
      | error e => rfl
      | ok row => exact collected_group hafter rest rfl notes (row :: rows)

theorem collected_row (hbetween : BetweenRows scope columns pairs left)
    (hafter : AfterGroup scope columns pairs left) (x : Keyed) (y? : Option Keyed)
    (notes : List Note) (rows : List Row) :
    Pull.collected (turn scope columns pairs)
        (⟨left, ⟨rest, saved⟩, some x, y?, none⟩, notes) rows =
      .some ((mergeFrom (fun l r => l.concat r columns) saved.isSome [] (ahead scope pairs y? rest)
        none (.row x fun _ => (left ()).keyed scope (pairs.map KeyPair.left))).drainAfter notes
          rows) := by
  have hnone {s : Scan Row} (hs : rest () = s) (notes : List Note) (rows : List Row) :
    Pull.collected (turn scope columns pairs)
        (⟨left, ⟨rest, saved⟩, some x, none, none⟩, notes) rows =
      .some ((mergeFrom (fun l r => l.concat r columns) saved.isSome []
        (fun _ => s.keyed scope (pairs.map KeyPair.right))
        none (.row x fun _ => (left ()).keyed scope (pairs.map KeyPair.left))).drainAfter notes
          rows) := by
    induction s generalizing rest notes rows with
    | done =>
      rw [Pull.collected_eq, run_turn_right, hs, mergeFrom_row_done rfl]
      rfl
    | fail e =>
      rw [Pull.collected_eq, run_turn_right, hs, mergeFrom_row_fail rfl]
      rfl
    | note n s ih =>
      have hturn : (turn scope columns pairs).run.run
            (⟨left, ⟨rest, saved⟩, some x, none, none⟩, notes) =
          (turn scope columns pairs).run.run
            (⟨left, ⟨s, saved⟩, some x, none, none⟩, n :: notes) := by
        rw [run_turn_right, run_turn_right, hs, Scan.nextKeyed]
        rcases (s ()).nextKeyed scope (pairs.map KeyPair.right) with ⟨⟨taken, e | _ | y⟩, rest⟩ <;>
          simp
      rw [Pull.collected_eq, hturn, ← Pull.collected_eq, ih () rfl]
      exact congrArg Part.some (drainAfter_mergeFrom_row_note rfl).symm
    | row a s ih =>
      rw [Pull.collected_eq, run_turn_right, hs, Scan.nextKeyed, Scan.keyed_row]
      rcases joinKey scope a (pairs.map KeyPair.right) with e | _ | key
      · rw [mergeFrom_row_fail rfl]
        rfl
      · dsimp only
        rw [← run_turn_right, ← Pull.collected_eq]
        exact ih () rfl _ _
      · dsimp only
        rw [← Pull.collected_eq]
        exact collected_meet hbetween hafter ⟨a, key⟩ notes rows (ih () rfl)
  cases y? with
  | none => exact hnone rfl notes rows
  | some y => exact collected_meet hbetween hafter y notes rows (hnone rfl)

theorem betweenRows_done (hs : left () = .done) : BetweenRows scope columns pairs left := by
  intro rest saved y? notes rows
  rw [Pull.collected_eq, run_turn_left, onward, hs]
  cases y? with
  | some y => rfl
  | none =>
    show _ = Part.some (Scan.drainAfter notes rows
      ((rest ()).keyed scope (pairs.map KeyPair.right)).probe)
    rw [drainAfter_probe_keyed, Scan.nextKeyed]
    dsimp only
    rcases (rest ()).nextKeyed scope (pairs.map KeyPair.right) with ⟨⟨taken, e | y?⟩, rest⟩ <;> rfl

theorem betweenRows_note {n : Note} {s : Unit → Scan Row} (hs : left () = .note n s)
    (h : BetweenRows scope columns pairs s) : BetweenRows scope columns pairs left := by
  intro rest saved y? notes rows
  have hturn : (turn scope columns pairs).run.run (⟨left, ⟨rest, saved⟩, none, y?, none⟩, notes) =
      (turn scope columns pairs).run.run (⟨s, ⟨rest, saved⟩, none, y?, none⟩, n :: notes) := by
    rw [run_turn_left, run_turn_left, hs, Scan.nextKeyed]
    rcases (s ()).nextKeyed scope (pairs.map KeyPair.left) with ⟨⟨taken, e | _ | x⟩, left⟩ <;>
      cases y? <;> simp
  rw [Pull.collected_eq, hturn, ← Pull.collected_eq, h, onward, onward, hs]
  rfl

theorem afterGroup_note {n : Note} {s : Unit → Scan Row} (hs : left () = .note n s)
    (h : AfterGroup scope columns pairs s) : AfterGroup scope columns pairs left := by
  intro rest mark x? y? beyond first notes rows
  have hleave : (leaveGroup scope columns pairs first beyond).run.run
        (⟨left, ⟨rest, some mark⟩, x?, y?, some first⟩, notes) =
      (leaveGroup scope columns pairs first beyond).run.run
        (⟨s, ⟨rest, some mark⟩, x?, y?, some first⟩, n :: notes) := by
    rw [run_leaveGroup, run_leaveGroup, hs, Scan.nextKeyed]
    rcases (s ()).nextKeyed scope (pairs.map KeyPair.left) with ⟨⟨taken, e | x?⟩, left⟩ <;> simp
  rw [hleave, h, onward, onward, hs]
  rfl

theorem betweenRows_row {a : Row} {s : Unit → Scan Row} (hs : left () = .row a s)
    (hbetween : BetweenRows scope columns pairs s) (hafter : AfterGroup scope columns pairs s) :
    BetweenRows scope columns pairs left := by
  intro rest saved y? notes rows
  rw [Pull.collected_eq, run_turn_left, onward, hs, Scan.nextKeyed, Scan.keyed_row]
  rcases joinKey scope a (pairs.map KeyPair.left) with e | _ | key
  · rfl
  · dsimp only
    rw [← run_turn_left, ← Pull.collected_eq]
    exact hbetween rest saved y? notes rows
  · dsimp only
    rw [← Pull.collected_eq]
    exact collected_row hbetween hafter ⟨a, key⟩ y? notes rows

theorem afterGroup_row {a : Row} {s : Unit → Scan Row} (hs : left () = .row a s)
    (hbetween : BetweenRows scope columns pairs s) (hafter : AfterGroup scope columns pairs s) :
    AfterGroup scope columns pairs left := by
  intro rest mark x? y? beyond first notes rows
  rw [run_leaveGroup, onward, hs, Scan.nextKeyed, Scan.keyed_row]
  rcases joinKey scope a (pairs.map KeyPair.left) with e | _ | key
  · rfl
  · dsimp only
    rw [← run_leaveGroup]
    exact hafter rest mark x? y? beyond first notes rows
  · dsimp only
    rw [Option.filter_some]
    by_cases hsame : sameGroup ⟨a, key⟩ first
    · rw [if_pos hsame, mergeFrom_row_same hsame]
      dsimp only [groupAt]
      cases a.concat first.row columns with
      | error e => rfl
      | ok row => exact collected_group hafter mark rfl notes (row :: rows)
    · rw [if_neg hsame, mergeFrom_row_of_ne (by simpa [groupAt] using hsame)]
      exact collected_row hbetween hafter ⟨a, key⟩ beyond notes rows

theorem betweenRows_afterGroup {s : Scan Row} (hs : left () = s) :
    BetweenRows scope columns pairs left ∧ AfterGroup scope columns pairs left := by
  induction s generalizing left with
  | done =>
    refine ⟨betweenRows_done hs, fun rest mark x? y? beyond first notes rows => ?_⟩
    rw [run_leaveGroup, onward, hs]
    exact betweenRows_done rfl rest (some mark) beyond notes rows
  | fail e =>
    refine ⟨fun rest saved y? notes rows => ?_, fun rest mark x? y? beyond first notes rows => ?_⟩
    · rw [Pull.collected_eq, run_turn_left, onward, hs]
      rfl
    · rw [run_leaveGroup, onward, hs]
      rfl
  | note n s ih =>
    obtain ⟨hbetween, hafter⟩ := ih () rfl
    exact ⟨betweenRows_note hs hbetween, afterGroup_note hs hafter⟩
  | row a s ih =>
    obtain ⟨hbetween, hafter⟩ := ih () rfl
    exact ⟨betweenRows_row hs hbetween hafter, afterGroup_row hs hbetween hafter⟩

/-- The calls of a merge join come to an end, with what the join drains to. -/
theorem collect_eq (scope : Scope) (columns : List Column) (pairs : List KeyPair)
    (left : Unit → Scan Row) (right : Opened) :
    Pull.collect (turn scope columns pairs) { left, right := .start right } =
      .some (mergeJoin scope columns pairs left right).drain := by
  obtain ⟨hbetween, -⟩ : BetweenRows scope columns pairs left ∧ _ := betweenRows_afterGroup rfl
  have hstart := hbetween right.scan (if right.kept then some right.scan else none) none [] []
  have hkept : (if right.kept then some right.scan else none).isSome = right.kept := by
    cases right.kept <;> rfl
  rw [hkept] at hstart
  exact hstart

end MergeScanner

end RelPlan

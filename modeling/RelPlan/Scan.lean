import RelPlan.KeyMap
import RelPlan.Logged

/-!
# Scans

A scan is what pulling rows one by one brings to light: rows, notes, and the end or a failure.  What
comes after a row is worked out when it is pulled, so a scan of any length can be opened, and one of
which only the first rows are wanted costs no more than they do.  A function from `Unit` is a scan
of which nothing has been pulled yet.  What a scan means is the list that it drains to, and there
the time of working out plays no part (`drain_append`).

A cursor is a place in a scan; if the rows are kept, it can be marked and moved back.
-/

namespace RelPlan

/-- Rows and notes in the order in which pulling meets them. -/
inductive Scan (α : Type)
  | done
  | fail (e : QueryError)
  | note (n : Note) (rest : Unit → Scan α)
  | row (a : α) (rest : Unit → Scan α)

namespace Scan

variable {α β : Type}

def ofList : List α → Scan α
  | [] => done
  | a :: as => row a fun _ => ofList as

/-- A row in front, or the failure to compute it. -/
def push (r : Result α) (rest : Unit → Scan α) : Scan α :=
  match r with
  | .ok a => row a rest
  | .error e => fail e

/-- Puts notes in front. -/
def withNotes : List Note → (Unit → Scan α) → Scan α
  | [], s => s ()
  | n :: ns, s => note n fun _ => withNotes ns s

/-- The notes on the way to a scan, then the scan or the failure to open it. -/
def ofLogged (x : Logged (Unit → Scan α)) : Scan α :=
  withNotes x.notes (match x.result with | .ok s => s | .error e => fun _ => fail e)

/-- One scan after the other. -/
def append : Scan α → (Unit → Scan α) → Scan α
  | done, t => t ()
  | fail e, _ => fail e
  | note n s, t => note n fun _ => (s ()).append t
  | row a s, t => row a fun _ => (s ()).append t

/-- A scan for each row, one after the other. -/
def bind (f : α → Scan β) : Scan α → Scan β
  | done => done
  | fail e => fail e
  | note n s => note n fun _ => (s ()).bind f
  | row a s =>
    match f a with
    | done => (s ()).bind f
    | fail e => fail e
    | note n t => note n fun _ => (t ()).append fun _ => (s ()).bind f
    | row b t => row b fun _ => (t ()).append fun _ => (s ()).bind f

theorem bind_row (f : α → Scan β) (a : α) (s : Unit → Scan α) :
    (row a s).bind f = (f a).append fun _ => (s ()).bind f := by
  rw [bind]
  cases f a <;> rfl

/-- Replaces or drops each row.  The first failure ends the scan. -/
def filterMap (f : α → Result (Option β)) : Scan α → Scan β
  | done => done
  | fail e => fail e
  | note n s => note n fun _ => (s ()).filterMap f
  | row a s =>
    match f a with
    | .ok (some b) => row b fun _ => (s ()).filterMap f
    | .ok none => (s ()).filterMap f
    | .error e => fail e

def map (f : α → Result β) : Scan α → Scan β := filterMap fun a => some <$> f a

def filter (p : α → Result Bool) : Scan α → Scan α :=
  filterMap fun a => return if ← p a then some a else none

/-- The first `k` rows.  Nothing after them is pulled. -/
def take : Nat → Scan α → Scan α
  | 0, _ => done
  | _ + 1, done => done
  | _ + 1, fail e => fail e
  | k + 1, note n s => note n fun _ => take (k + 1) (s ())
  | k + 1, row a s => row a fun _ => if k = 0 then done else take k (s ())

theorem take_row (k : Nat) (a : α) (s : Unit → Scan α) :
    take (k + 1) (row a s) = row a fun _ => take k (s ()) := by
  cases k <;> simp [take]

/-- The rows after the first `k`. -/
def drop : Nat → Scan α → Scan α
  | 0, s => s
  | _ + 1, done => done
  | _ + 1, fail e => fail e
  | k + 1, note n s => note n fun _ => drop (k + 1) (s ())
  | k + 1, row _ s => drop k (s ())

/-- Drops each row whose key is that of a row before it, or is seen already. -/
def distinct (key : α → List Value) : KeyMap Unit → Scan α → Scan α
  | _, done => done
  | _, fail e => fail e
  | seen, note n s => note n fun _ => distinct key seen (s ())
  | seen, row a s =>
    if seen.contains (key a) then distinct key seen (s ())
    else
      let seen := seen.upsert (key a) fun _ => ()
      row a fun _ => distinct key seen (s ())

/-- Pulls once and throws the row away: only notes and a failure stay. -/
def probe : Scan α → Scan β
  | done | row _ _ => done
  | fail e => fail e
  | note n s => note n fun _ => (s ()).probe

/-- `seek` after the given notes, the latest one first. -/
def seekAfter (p : α → Bool) : List Note → Scan α → Logged (Option α) × (Unit → Scan α)
  | ns, done => (⟨ns.reverse, .ok none⟩, fun _ => done)
  | ns, fail e => (⟨ns.reverse, .error e⟩, fun _ => fail e)
  | ns, note n s => seekAfter p (n :: ns) (s ())
  | ns, row a s => if p a then (⟨ns.reverse, .ok (some a)⟩, s) else seekAfter p ns (s ())

/-- Pulls up to the first row that passes, `none` at the end, and says what is left. -/
def seek (p : α → Bool) (s : Scan α) : Logged (Option α) × (Unit → Scan α) := seekAfter p [] s

/-- Pulls one row, `none` at the end, and says what is left. -/
def next (s : Scan α) : Logged (Option α) × (Unit → Scan α) := s.seek fun _ => true

/-- `drain` after the given notes and rows, the latest ones first. -/
def drainAfter : List Note → List α → Scan α → Logged (List α)
  | ns, as, done => ⟨ns.reverse, .ok as.reverse⟩
  | ns, _, fail e => ⟨ns.reverse, .error e⟩
  | ns, as, note n s => drainAfter (n :: ns) as (s ())
  | ns, as, row a s => drainAfter ns (a :: as) (s ())

/-- All rows, or the first failure. -/
def drain (s : Scan α) : Logged (List α) := drainAfter [] [] s

/-! ### What a scan drains to -/

theorem drainAfter_eq (ns : List Note) (as : List α) (s : Scan α) :
    drainAfter ns as s =
      ⟨ns.reverse ++ s.drain.notes, (as.reverse ++ ·) <$> s.drain.result⟩ := by
  induction s generalizing ns as with
  | done => simp [drain, drainAfter, Functor.map, Except.map]
  | fail e => simp [drain, drainAfter, Functor.map, Except.map]
  | note n s ih =>
    rw [drain, drainAfter, drainAfter, ih, ih]
    cases (s ()).drain.result <;> simp [Functor.map, Except.map]
  | row a s ih =>
    rw [drain, drainAfter, drainAfter, ih, ih]
    cases (s ()).drain.result <;> simp [Functor.map, Except.map]

@[simp] theorem drain_done : (done : Scan α).drain = pure [] := rfl

@[simp] theorem drain_fail (e : QueryError) : (fail e : Scan α).drain = .fail e := rfl

@[simp] theorem drain_note (n : Note) (s : Unit → Scan α) :
    (note n s).drain = ⟨n :: (s ()).drain.notes, (s ()).drain.result⟩ := by
  rw [drain, drainAfter, drainAfter_eq]
  cases (s ()).drain.result <;> simp [Functor.map, Except.map]

@[simp] theorem drain_row (a : α) (s : Unit → Scan α) :
    (row a s).drain = ⟨(s ()).drain.notes, (a :: ·) <$> (s ()).drain.result⟩ := by
  rw [drain, drainAfter, drainAfter_eq]
  rfl

@[simp] theorem drain_ofList (as : List α) : (ofList as).drain = pure as := by
  induction as with
  | nil => rfl
  | cons a as ih => simp [ofList, ih, pure, Functor.map, Except.map]

/-- The rows of the one, then those of the other. -/
theorem drain_append (s : Scan α) (t : Unit → Scan α) :
    (s.append t).drain =
      s.drain.bind fun as => ⟨(t ()).drain.notes, (as ++ ·) <$> (t ()).drain.result⟩ := by
  induction s with
  | done =>
    cases h : (t ()).drain with
    | mk ns r => cases r <;> simp [append, h, Logged.bind, pure, Functor.map, Except.map]
  | fail e => simp [append, Logged.bind, Logged.fail]
  | note n s ih =>
    simp only [append, drain_note, ih]
    cases h : (s ()).drain with
    | mk ns r => cases r <;> simp [Logged.bind]
  | row a s ih =>
    simp only [append, drain_row, ih]
    cases h : (s ()).drain with
    | mk ns r =>
      cases r <;> cases h' : (t ()).drain.result <;> simp [Logged.bind, Functor.map, Except.map]

end Scan

/-- A scan that has been opened.  It is `kept` if its rows can be read again. -/
structure Opened where
  scan : Unit → Scan Row
  kept : Bool

namespace Opened

/-- Rows held in memory. -/
def ofRows (rows : List Row) : Opened := ⟨fun _ => .ofList rows, true⟩

/-- A scan that can be read once. -/
def once (s : Unit → Scan Row) : Opened := ⟨s, false⟩

/-- The rows that pass a filter. -/
def filter (scope : Scope) (f : Filter) (o : Opened) : Opened :=
  match f with
  | none => o
  | some e => { o with scan := fun _ => (o.scan ()).filter fun row => e.holds scope row }

/-- Each row replaced by another one. -/
def map (f : Row → Result Row) (o : Opened) : Opened :=
  { o with scan := fun _ => (o.scan ()).map f }

/-- The same values under other columns. -/
def reshape (columns : List Column) (o : Opened) : Opened := o.map fun row => row.reshape columns

end Opened

/-- A place in a scan, and the place that `restore` goes back to if the rows are kept. -/
structure Cursor where
  rest : Unit → Scan Row
  saved : Option (Unit → Scan Row)

namespace Cursor

/-- The place before the first row, which is also the first mark. -/
def start (o : Opened) : Cursor := ⟨o.scan, if o.kept then some o.scan else none⟩

def next (c : Cursor) : Logged (Option Row) × Cursor :=
  let (x, rest) := (c.rest ()).next
  (x, { c with rest })

/-- All rows that are left. -/
def drain (c : Cursor) : Logged (List Row) × Cursor :=
  ((c.rest ()).drain, { c with rest := fun _ => .done })

def mark (c : Cursor) : Result Cursor :=
  match c.saved with
  | some _ => .ok { c with saved := some c.rest }
  | none => .error .markUnsupported

def restore (c : Cursor) : Result Cursor :=
  match c.saved with
  | some s => .ok { c with rest := s }
  | none => .error .markUnsupported

end Cursor

end RelPlan

import RelPlan.Proofs.Results
import RelPlan.Pulling

/-!
# Rows pulled from scanners

Calls of a scanner are taken apart turn by turn: what comes of a state is what comes of the state
after the next turn (`Pull.collected_eq`), so whether all calls together end is shown by an
induction on the inputs, without regard to which of the two loops goes on.  Scans that drain are
followed by what they drain to (`Scan.seek_spec`, `Scan.result_drain_filterMap`,
`Scan.result_drain_bind`).
-/

namespace RelPlan

namespace Pull

variable {σ α β : Type} {turn : Pull σ (Option (Option Row))}

theorem run_bind (x : Pull σ α) (f : α → Pull σ β) (s : σ × List Note) :
    (x >>= f).run.run s =
      match x.run.run s with
      | (.ok a, s) => (f a).run.run s
      | (.error e, s) => (.error e, s) := by
  simp only [ExceptT.run_bind, StateT.run_bind]
  rcases x.run.run s with ⟨_ | _, s⟩ <;> rfl

theorem run_get (s : σ × List Note) : (get : Pull σ _).run.run s = (.ok s, s) := rfl

theorem run_modify (f : σ × List Note → σ × List Note) (s : σ × List Note) :
    (modify f : Pull σ Unit).run.run s = (.ok (), f s) := rfl

theorem run_ofExcept (x : Result α) (s : σ × List Note) :
    (ofExcept x : Pull σ α).run.run s = (x, s) := by
  cases x <;> rfl

theorem run_ofLogged (x : Logged α) (s : σ) (notes : List Note) :
    (ofLogged x : Pull σ α).run.run (s, notes) = (x.result, s, x.notes.reverse ++ notes) := by
  rw [ofLogged, run_bind, run_modify]
  exact run_ofExcept ..

/-- What comes of a state and the rows so far, the latest first. -/
def collected (turn : Pull σ (Option (Option Row))) (s : σ × List Note) (rows : List Row) :
    Part (Logged (List Row)) :=
  untilResult (collectTurn turn) (s, rows)

/-- What comes of a call. -/
def answered (turn : Pull σ (Option (Option Row))) (rows : List Row) :
    Result (Option Row) × (σ × List Note) → Part (Logged (List Row))
  | (.error e, _, notes) => .some ⟨notes.reverse, .error e⟩
  | (.ok none, _, notes) => .some ⟨notes.reverse, .ok rows.reverse⟩
  | (.ok (some row), s) => collected turn s (row :: rows)

/-- What comes of a turn. -/
def resumed (turn : Pull σ (Option (Option Row))) (rows : List Row) :
    Result (Option (Option Row)) × (σ × List Note) → Part (Logged (List Row))
  | (.error e, _, notes) => .some ⟨notes.reverse, .error e⟩
  | (.ok (some none), _, notes) => .some ⟨notes.reverse, .ok rows.reverse⟩
  | (.ok (some (some row)), s) => collected turn s (row :: rows)
  | (.ok none, s) => collected turn s rows

theorem collected_eq_bind (s : σ × List Note) (rows : List Row) :
    collected turn s rows = (call turn s).bind (answered turn rows) := by
  rw [collected, untilResult_eq, collectTurn]
  simp only [Part.bind_eq_bind, Part.bind_assoc]
  congr 1
  funext ⟨answer, s, notes⟩
  rcases answer with e | _ | row <;> simp [answered, collected]

/-- Both loops go on from where a turn has come to. -/
theorem collected_eq (s : σ × List Note) (rows : List Row) :
    collected turn s rows = resumed turn rows (turn.run.run s) := by
  rw [collected_eq_bind, call, untilResult_eq, callTurn]
  match turn.run.run s with
  | (.error e, s) => simp [resumed, answered]
  | (.ok (some none), s) => simp [resumed, answered]
  | (.ok (some (some row)), s) => simp [resumed, answered]
  | (.ok none, s) =>
    rw [Part.bind_some]
    show (call turn s).bind _ = collected turn s rows
    rw [collected_eq_bind]

end Pull

namespace Scan

variable {α β : Type}

theorem seekAfter_eq (p : α → Bool) (notes : List Note) (s : Scan α) :
    seekAfter p notes s =
      (⟨notes.reverse ++ (s.seek p).1.notes, (s.seek p).1.result⟩, (s.seek p).2) := by
  induction s generalizing notes with
  | done => simp [seek, seekAfter]
  | fail e => simp [seek, seekAfter]
  | note n s ih =>
    rw [seek, seekAfter, seekAfter, ih, ih]
    simp
  | row a s ih =>
    rw [seek, seekAfter, seekAfter]
    split
    · simp
    · rw [ih, ih]
      simp

theorem seek_note (p : α → Bool) (n : Note) (s : Unit → Scan α) :
    (note n s).seek p =
      (⟨n :: ((s ()).seek p).1.notes, ((s ()).seek p).1.result⟩, ((s ()).seek p).2) := by
  rw [seek, seekAfter, seekAfter_eq]
  rfl

theorem seek_row (p : α → Bool) (a : α) (s : Unit → Scan α) :
    (row a s).seek p = if p a then (⟨[], .ok (some a)⟩, s) else (s ()).seek p := by
  rw [seek, seekAfter]
  rfl

theorem drainAfter_withNotes (taken notes : List Note) (rows : List α) (s : Unit → Scan α) :
    drainAfter taken rows (withNotes notes s) =
      (s ()).drainAfter (notes.reverse ++ taken) rows := by
  induction notes generalizing taken with
  | nil => rfl
  | cons n notes ih =>
    rw [withNotes, drainAfter, ih]
    simp

theorem drainAfter_append (notes : List Note) (rows as : List α) (t : Unit → Scan α) :
    drainAfter notes rows ((ofList as).append t) =
      (t ()).drainAfter notes (as.reverse ++ rows) := by
  induction as generalizing rows with
  | nil => rfl
  | cons a as ih =>
    rw [ofList, append, drainAfter, ih]
    simp

end Scan

namespace Scan

variable {α β : Type} {s : Scan α} {as : List α}

theorem result_drain_row {a : α} {s : Unit → Scan α} (h : (row a s).drain.result = .ok as) :
    ∃ as', as = a :: as' ∧ (s ()).drain.result = .ok as' := by
  rw [drain_row] at h
  obtain ⟨as', hrest, rfl⟩ := Result.map_eq_ok.1 h
  exact ⟨as', rfl, hrest⟩

theorem result_drain_withNotes (notes : List Note) (s : Unit → Scan α) :
    (withNotes notes s).drain.result = (s ()).drain.result := by
  induction notes with
  | nil => rfl
  | cons n notes ih => rw [withNotes, drain_note, ih]

theorem result_drain_push (r : Result α) (s : Unit → Scan α) :
    (push r s).drain.result = r >>= fun a => (a :: ·) <$> (s ()).drain.result := by
  cases r with
  | error e => rfl
  | ok a => rw [push, drain_row]; rfl

theorem result_drain_probe (h : s.drain.result = .ok as) :
    (s.probe : Scan β).drain.result = .ok [] := by
  induction s with
  | done => rfl
  | fail e => cases h
  | note n s ih =>
    rw [drain_note] at h
    rw [probe, drain_note]
    exact ih () h
  | row a s ih => rfl

/-- What is left after the first row that passes, if there is one. -/
theorem seek_spec {p : α → Bool} (h : s.drain.result = .ok as) :
    ((∀ a ∈ as, p a = false) ∧ (s.seek p).1.result = .ok none) ∨
      ∃ before a after, as = before ++ a :: after ∧ (∀ b ∈ before, p b = false) ∧ p a ∧
        (s.seek p).1.result = .ok (some a) ∧ ((s.seek p).2 ()).drain.result = .ok after := by
  induction s generalizing as with
  | done => cases h; exact .inl ⟨by simp, rfl⟩
  | fail e => cases h
  | note n s ih =>
    rw [drain_note] at h
    rw [seek_note]
    exact ih () h
  | row a s ih =>
    obtain ⟨as, rfl, hrest⟩ := result_drain_row h
    rw [seek_row]
    by_cases ha : p a
    · rw [if_pos ha]
      exact .inr ⟨[], a, as, rfl, by simp, ha, rfl, hrest⟩
    · rw [if_neg ha]
      have hfalse : p a = false := by simpa using ha
      rcases ih () hrest with ⟨hno, hend⟩ | ⟨before, b, after, rfl, hno, hb, hfound, hafter⟩
      · exact .inl ⟨List.forall_mem_cons.2 ⟨hfalse, hno⟩, hend⟩
      · exact .inr ⟨a :: before, b, after, rfl, List.forall_mem_cons.2 ⟨hfalse, hno⟩, hb, hfound,
          hafter⟩

theorem result_drain_filterMap {f : α → Result (Option β)} {g : α → Option β}
    (hf : ∀ a ∈ as, f a = .ok (g a)) (h : s.drain.result = .ok as) :
    (s.filterMap f).drain.result = .ok (as.filterMap g) := by
  induction s generalizing as with
  | done => cases h; rfl
  | fail e => cases h
  | note n s ih =>
    rw [drain_note] at h
    rw [filterMap, drain_note]
    exact ih () hf h
  | row a s ih =>
    obtain ⟨as, rfl, hrest⟩ := result_drain_row h
    obtain ⟨ha, has⟩ := List.forall_mem_cons.1 hf
    rw [filterMap, ha, List.filterMap_cons]
    cases g a with
    | none => exact ih () has hrest
    | some b =>
      dsimp only
      rw [drain_row, ih () has hrest]
      rfl

theorem result_drain_bind {f : α → Scan β} (h : s.drain.result = .ok as) :
    (s.bind f).drain.result = List.flatten <$> as.mapM fun a => (f a).drain.result := by
  induction s generalizing as with
  | done => cases h; rfl
  | fail e => cases h
  | note n s ih =>
    rw [drain_note] at h
    rw [bind, drain_note]
    exact ih () h
  | row a s ih =>
    obtain ⟨as, rfl, hrest⟩ := result_drain_row h
    rw [bind_row, drain_append]
    show ((f a).drain >>= _ : Logged (List β)).result = _
    rw [Logged.result_bind, ih () hrest, List.mapM_cons]
    cases (f a).drain.result with
    | error e => rfl
    | ok bs => cases as.mapM fun a => (f a).drain.result <;> rfl

end Scan

end RelPlan

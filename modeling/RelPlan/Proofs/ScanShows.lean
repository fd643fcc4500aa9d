import Mathlib.Data.List.Forall2
import RelPlan.Proofs.Results
import RelPlan.Scan

/-!
# What a scan shows

A scan shows a list if its rows stand for the members of the list one after the other, up to a
failure or to the end of both.  A failure cuts short what is seen, not what is shown, so each
operation on scans can be described by an operation on the lists shown without asking whether it
fails; only of a scan that drains (`Shows.drain`) everything has been seen.
-/

namespace RelPlan

variable {α α' β β' : Type} {R : α → β → Prop} {R' : α' → β' → Prop}

namespace Scan

/-- The rows of the scan stand for the first members of the list, and for all if it ends. -/
inductive Shows (R : α → β → Prop) : Scan α → List β → Prop
  | done : Shows R done []
  | fail (e : QueryError) (T : List β) : Shows R (fail e) T
  | note {n : Note} {s : Unit → Scan α} {T : List β} (h : Shows R (s ()) T) : Shows R (note n s) T
  | row {a : α} {b : β} {s : Unit → Scan α} {T : List β} (hab : R a b) (h : Shows R (s ()) T) :
      Shows R (row a s) (b :: T)

/-- The rows that pulling brings to light before the scan ends or fails. -/
def pulled : Scan α → List α
  | done | fail _ => []
  | note _ s => (s ()).pulled
  | row a s => a :: (s ()).pulled

theorem pulled_of_drain {s : Scan α} {as : List α} (hs : s.drain.result = .ok as) :
    s.pulled = as := by
  induction s generalizing as with
  | done => cases hs; rfl
  | fail e => cases hs
  | note n s ih => rw [drain_note] at hs; exact ih () hs
  | row a s ih =>
    rw [drain_row] at hs
    obtain ⟨as', hs', rfl⟩ := Result.map_eq_ok.1 hs
    exact congrArg (a :: ·) (ih () hs')

variable {s t : Scan α} {T U : List β}

/-- The rows pulled stand for the first members. -/
theorem Shows.pulled (h : Shows R s T) : ∃ T', T'.Sublist T ∧ List.Forall₂ R s.pulled T' := by
  induction h with
  | done => exact ⟨[], .refl _, .nil⟩
  | fail e T => exact ⟨[], List.nil_sublist T, .nil⟩
  | note _ ih => exact ih
  | row hab _ ih =>
    obtain ⟨T', hsub, hall⟩ := ih
    exact ⟨_, hsub.cons_cons _, .cons hab hall⟩

theorem shows_ofList {as : List α} (h : List.Forall₂ R as T) : Shows R (ofList as) T := by
  induction h with
  | nil => exact .done
  | cons hab _ ih => exact .row hab ih

theorem Shows.drain (h : Shows R s T) {as : List α} (hs : s.drain.result = .ok as) :
    List.Forall₂ R as T := by
  induction h generalizing as with
  | done => cases hs; exact .nil
  | fail e T => cases hs
  | note _ ih => rw [drain_note] at hs; exact ih hs
  | row hab _ ih =>
    rw [drain_row] at hs
    obtain ⟨as', hs', rfl⟩ := Result.map_eq_ok.1 hs
    exact .cons hab (ih hs')

theorem Shows.eq_of_drain {T : List α} (h : Shows Eq s T) {as : List α}
    (hs : s.drain.result = .ok as) : as = T := List.forall₂_eq_eq_eq ▸ h.drain hs

/-- A scan that drains shows its rows. -/
theorem shows_of_drain {s : Scan α} {as : List α} (hs : s.drain.result = .ok as) :
    Shows Eq s as := by
  induction s generalizing as with
  | done => cases hs; exact .done
  | fail e => exact .fail e as
  | note n s ih => rw [drain_note] at hs; exact .note (ih () hs)
  | row a s ih =>
    rw [drain_row] at hs
    obtain ⟨as', hs', rfl⟩ := Result.map_eq_ok.1 hs
    exact .row rfl (ih () hs')

theorem Shows.imp {S : α → β' → Prop} {f : β → β'} (h : Shows R s T)
    (hf : ∀ a b, R a b → S a (f b)) : Shows S s (T.map f) := by
  induction h with
  | done => exact .done
  | fail e T => exact .fail e _
  | note _ ih => exact .note ih
  | row hab _ ih => exact .row (hf _ _ hab) ih

theorem Shows.mono {S : α → β → Prop} (h : Shows R s T) (hRS : ∀ a b, R a b → S a b) :
    Shows S s T := by
  have himp := h.imp (f := id) hRS
  rwa [List.map_id] at himp

theorem Shows.mem (h : Shows R s T) : Shows (fun a b => R a b ∧ b ∈ T) s T := by
  induction h with
  | done => exact .done
  | fail e T => exact .fail e T
  | note _ ih => exact .note ih
  | row hab _ ih =>
    exact .row ⟨hab, List.mem_cons_self⟩
      (ih.mono fun a b h => ⟨h.1, List.mem_cons_of_mem _ h.2⟩)

theorem Shows.withNotes {s : Unit → Scan α} (h : Shows R (s ()) T) (ns : List Note) :
    Shows R (withNotes ns s) T := by
  induction ns with
  | nil => exact h
  | cons n ns ih => exact .note ih

theorem Shows.append {t : Unit → Scan α} (h : Shows R s T) (h' : Shows R (t ()) U) :
    Shows R (s.append t) (T ++ U) := by
  induction h with
  | done => exact h'
  | fail e T => exact .fail e _
  | note _ ih => exact .note ih
  | row hab _ ih => exact .row hab ih

theorem Shows.filterMap {f : α → Result (Option α')} {g : β → Option β'} (h : Shows R s T)
    (hf : ∀ a b, R a b → ∀ o, f a = .ok o → Option.Rel R' o (g b)) :
    Shows R' (s.filterMap f) (T.filterMap g) := by
  induction h with
  | done => exact .done
  | fail e T => exact .fail e _
  | note _ ih => exact .note ih
  | @row a b s T hab _ ih =>
    rw [Scan.filterMap]
    split
    · next a' ha =>
      have hrel := hf a b hab _ ha
      cases hg : g b with
      | none => rw [hg] at hrel; cases hrel
      | some b' =>
        rw [hg] at hrel
        cases hrel with
        | some hab' => rw [List.filterMap_cons_some hg]; exact .row hab' ih
    · next ha =>
      have hrel := hf a b hab _ ha
      cases hg : g b with
      | none => rw [List.filterMap_cons_none hg]; exact ih
      | some b' => rw [hg] at hrel; cases hrel
    · next e _ => exact .fail e _

theorem Shows.map {f : α → Result α'} {g : β → β'} (h : Shows R s T)
    (hf : ∀ a b, R a b → ∀ a', f a = .ok a' → R' a' (g b)) : Shows R' (s.map f) (T.map g) := by
  rw [← List.filterMap_eq_map']
  refine h.filterMap fun a b hab o ho => ?_
  obtain ⟨a', ha', rfl⟩ := Result.map_eq_ok.1 ho
  exact .some (hf a b hab a' ha')

theorem Shows.filter {p : α → Result Bool} {q : β → Prop} [DecidablePred q] (h : Shows R s T)
    (hp : ∀ a b, R a b → ∀ v, p a = .ok v → (q b ↔ v = true)) :
    Shows R (s.filter p) (T.filter q) := by
  rw [← List.filterMap_eq_filter]
  refine h.filterMap fun a b hab o ho => ?_
  obtain ⟨v, hv, ho⟩ := Result.bind_eq_ok.1 ho
  have hq := hp a b hab v hv
  cases v
  · cases ho
    simp [Option.guard, hq]
  · cases ho
    simpa [Option.guard, hq] using hab

theorem Shows.filter_self {q : β → Prop} [DecidablePred q] (h : Shows R s T)
    (hq : ∀ a b, R a b → q b) : Shows R s (T.filter q) := by
  induction h with
  | done => exact .done
  | fail e T => exact .fail e _
  | note _ ih => exact .note ih
  | row hab _ ih =>
    rw [List.filter_cons_of_pos (by simpa using hq _ _ hab)]
    exact .row hab ih

theorem Shows.take (h : Shows R s T) (k : Nat) : Shows R (s.take k) (T.take k) := by
  induction h generalizing k with
  | done => cases k <;> exact .done
  | fail e T =>
    cases k
    · exact .done
    · exact .fail e _
  | note _ ih =>
    cases k with
    | zero => exact .done
    | succ k => exact .note (ih (k + 1))
  | row hab _ ih =>
    cases k with
    | zero => exact .done
    | succ k => rw [take_row]; exact .row hab (ih k)

theorem Shows.drop (h : Shows R s T) (k : Nat) : Shows R (s.drop k) (T.drop k) := by
  induction h generalizing k with
  | done => cases k <;> exact .done
  | fail e T => cases k <;> exact .fail e _
  | note h ih =>
    cases k with
    | zero => exact .note h
    | succ k => exact .note (ih (k + 1))
  | row hab h ih =>
    cases k with
    | zero => exact .row hab h
    | succ k => exact ih k

/-- For each member there is a list that its scan shows; together they make up what is shown. -/
theorem Shows.bind {P : β → List β' → Prop} {f : α → Scan α'} (h : Shows R s T)
    (hT : ∀ b ∈ T, ∃ U, P b U) (hf : ∀ a b, R a b → ∃ U, P b U ∧ Shows R' (f a) U) :
    ∃ Us, List.Forall₂ P T Us ∧ Shows R' (s.bind f) Us.flatten := by
  induction h with
  | done => exact ⟨[], .nil, .done⟩
  | fail e T =>
    have hall : ∃ Us, List.Forall₂ P T Us := by
      induction T with
      | nil => exact ⟨[], .nil⟩
      | cons b T ih =>
        obtain ⟨⟨U, hU⟩, hT⟩ := List.forall_mem_cons.1 hT
        obtain ⟨Us, hUs⟩ := ih hT
        exact ⟨U :: Us, .cons hU hUs⟩
    obtain ⟨Us, hUs⟩ := hall
    exact ⟨Us, hUs, .fail e _⟩
  | note _ ih =>
    obtain ⟨Us, hUs, hshow⟩ := ih hT
    exact ⟨Us, hUs, .note hshow⟩
  | @row a b s T hab _ ih =>
    obtain ⟨U, hU, hshow⟩ := hf a b hab
    obtain ⟨Us, hUs, hrest⟩ := ih (List.forall_mem_cons.1 hT).2
    refine ⟨U :: Us, .cons hU hUs, ?_⟩
    rw [bind_row]
    exact hshow.append hrest

theorem Shows.flatMap {f : α → Scan α'} {g : β → List β'} (h : Shows R s T)
    (hf : ∀ a b, R a b → Shows R' (f a) (g b)) : Shows R' (s.bind f) (T.flatMap g) := by
  induction h with
  | done => exact .done
  | fail e T => exact .fail e _
  | note _ ih => exact .note ih
  | row hab _ ih =>
    rw [bind_row, List.flatMap_cons]
    exact (hf _ _ hab).append ih

theorem shows_probe (s : Scan α) : Shows R' (s.probe : Scan α') [] := by
  induction s with
  | done | row => exact .done
  | fail e => exact .fail e []
  | note n s ih => exact .note (ih ())

end Scan

end RelPlan

import RelPlan.Plan.Scanners
import RelPlan.Proofs.PulledRows

/-!
# Marks of scanners

A scanner over rows in memory, below any filters and projections, takes a mark wherever it has got
to, and `restore` brings it back to the state that it had at the mark, or at the start if there is
none (`Scanner.rewinds`).  Up to a failure, a scanner answers as a cursor over the rows that it has
left (`Cursor.Follows.answers_eq`).
-/

namespace RelPlan

variable {α β γ : Type}

namespace Scanner

variable {s t : Scanner}

/-- The rows are held in memory. -/
def keepsRows : Scanner → Bool
  | rows _ _ _ => true
  | stream _ => false
  | filtered _ _ inner | mapped _ inner => inner.keepsRows

/-- The scanner with a mark at the next row. -/
def marked : Scanner → Scanner
  | rows rs position _ => rows rs position (some position)
  | stream rest => stream rest
  | filtered scope e inner => filtered scope e inner.marked
  | mapped f inner => mapped f inner.marked

/-- The scanner back at its mark. -/
def rewound : Scanner → Scanner
  | rows rs _ marked => rows rs (marked.getD 0) marked
  | stream rest => stream rest
  | filtered scope e inner => filtered scope e inner.rewound
  | mapped f inner => mapped f inner.rewound

theorem mark_eq (s : Scanner) :
    s.mark = if s.keepsRows then .ok s.marked else .error .markUnsupported := by
  induction s with
  | rows | stream => rfl
  | filtered scope e inner ih =>
    rw [mark, ih, keepsRows]
    split <;> rfl
  | mapped f inner ih =>
    rw [mark, ih, keepsRows]
    split <;> rfl

theorem restore_eq (s : Scanner) :
    s.restore = if s.keepsRows then .ok s.rewound else .error .markUnsupported := by
  induction s with
  | rows | stream => rfl
  | filtered scope e inner ih =>
    rw [restore, ih, keepsRows]
    split <;> rfl
  | mapped f inner ih =>
    rw [restore, ih, keepsRows]
    split <;> rfl

@[simp] theorem keepsRows_marked (s : Scanner) : s.marked.keepsRows = s.keepsRows := by
  induction s with
  | rows | stream => rfl
  | filtered _ _ _ ih | mapped _ _ ih => exact ih

@[simp] theorem keepsRows_rewound (s : Scanner) : s.rewound.keepsRows = s.keepsRows := by
  induction s with
  | rows | stream => rfl
  | filtered _ _ _ ih | mapped _ _ ih => exact ih

@[simp] theorem rewound_marked (s : Scanner) : s.marked.rewound = s.marked := by
  induction s with
  | rows | stream => rfl
  | filtered _ _ _ ih | mapped _ _ ih => simp only [marked, rewound, ih]

@[simp] theorem rewound_rewound (s : Scanner) : s.rewound.rewound = s.rewound := by
  induction s with
  | rows | stream => rfl
  | filtered _ _ _ ih | mapped _ _ ih => simp only [rewound, ih]

@[simp] theorem keepsRows_pull (s : Scanner) (take : Row → Result (Option β)) :
    (s.pull take).2.keepsRows = s.keepsRows := by
  induction s generalizing take with
  | rows | stream => rfl
  | filtered _ _ _ ih | mapped _ _ ih => exact ih _

/-- Pulling moves a scanner on, but not its mark. -/
theorem rewound_pull (h : s.keepsRows) (take : Row → Result (Option β)) :
    (s.pull take).2.rewound = s.rewound := by
  induction s generalizing take with
  | rows => rfl
  | stream => cases h
  | filtered scope e inner ih =>
    show filtered scope e _ = filtered scope e _
    rw [ih h]
  | mapped f inner ih =>
    show mapped f _ = mapped f _
    rw [ih h]

/-! ### Runs -/

/-- What can be asked of a scanner. -/
inductive Use
  | next
  | mark
  | restore
deriving DecidableEq

/-- The scanner after a use.  A mark that fails leaves it as it was, and so does going back. -/
def use (s : Scanner) : Use → Scanner
  | .next => s.next.2
  | .mark => s.mark.toOption.getD s
  | .restore => s.restore.toOption.getD s

/-- The scanner after uses one after the other. -/
def after (s : Scanner) (uses : List Use) : Scanner := uses.foldl use s

/-- Marks and ways back never fail, and after a mark and whatever follows but another mark, the way
back leads to the state at the mark.  Without a mark it leads to the start. -/
structure Rewinds (s : Scanner) : Prop where
  mark : ∀ uses, ∃ t, (s.after uses).mark = .ok t
  restore : ∀ uses, ∃ t, (s.after uses).restore = .ok t
  back : ∀ before t uses, (s.after before).mark = .ok t → .mark ∉ uses →
    (t.after uses).restore = .ok t
  start : ∀ uses, .mark ∉ uses → (s.after uses).restore = .ok s

theorem keepsRows_use (s : Scanner) (u : Use) : (s.use u).keepsRows = s.keepsRows := by
  cases u with
  | next => exact keepsRows_pull s _
  | mark =>
    rw [use, mark_eq]
    split
    · exact keepsRows_marked s
    · rfl
  | restore =>
    rw [use, restore_eq]
    split
    · exact keepsRows_rewound s
    · rfl

theorem keepsRows_after (s : Scanner) (uses : List Use) :
    (s.after uses).keepsRows = s.keepsRows := by
  induction uses generalizing s with
  | nil => rfl
  | cons u uses ih => exact (ih (s.use u)).trans (keepsRows_use s u)

theorem rewound_use (h : s.keepsRows) {u : Use} (hu : u ≠ .mark) :
    (s.use u).rewound = s.rewound := by
  cases u with
  | next => exact rewound_pull h _
  | mark => exact (hu rfl).elim
  | restore =>
    rw [use, restore_eq, if_pos h]
    exact rewound_rewound s

theorem rewound_after (h : s.keepsRows) {uses : List Use} (hmark : .mark ∉ uses) :
    (s.after uses).rewound = s.rewound := by
  induction uses generalizing s with
  | nil => rfl
  | cons u uses ih =>
    obtain ⟨hu, huses⟩ : .mark ≠ u ∧ .mark ∉ uses := by simpa using hmark
    have huse : (s.use u).keepsRows := (keepsRows_use s u).trans h
    exact (ih huse huses).trans (rewound_use h (Ne.symm hu))

theorem restore_after (h : s.keepsRows) {uses : List Use} (hmark : .mark ∉ uses) :
    (s.after uses).restore = .ok s.rewound := by
  rw [restore_eq, keepsRows_after, if_pos h, rewound_after h hmark]

theorem rewinds (h : s.keepsRows) (hstart : s.rewound = s) : s.Rewinds where
  mark uses := ⟨_, by rw [mark_eq, keepsRows_after, if_pos h]⟩
  restore uses := ⟨_, by rw [restore_eq, keepsRows_after, if_pos h]⟩
  back before t uses ht hmark := by
    rw [mark_eq, keepsRows_after, if_pos h] at ht
    cases ht
    have hkeeps : (s.after before).marked.keepsRows := by
      rw [keepsRows_marked, keepsRows_after, h]
    rw [restore_after hkeeps hmark, rewound_marked]
  start uses hmark := by rw [restore_after h hmark, hstart]

end Scanner

namespace Scan

theorem filterMap_filterMap (f : α → Result (Option β)) (g : β → Result (Option γ)) (s : Scan α) :
    (s.filterMap f).filterMap g =
      s.filterMap fun a => f a >>= fun b => (b.map g).getD (.ok none) := by
  induction s with
  | done | fail => rfl
  | note n s ih => simp only [filterMap, ih]
  | row a s ih =>
    simp only [filterMap]
    rcases f a with cause | _ | b
    · rfl
    · exact ih ()
    · simp only [filterMap, Result.ok_bind, Option.map_some, Option.getD_some, ih]

theorem filterMap_some (s : Scan α) : (s.filterMap fun a => .ok (some a)) = s := by
  induction s with
  | done | fail => rfl
  | note n s ih => simp only [filterMap, ih]
  | row a s ih => simp only [filterMap, ih]

/-- The first row that is taken is the first one of those that are. -/
theorem seekAfter_filterMap (take : α → Result (Option β)) (ns : List Note) (s : Scan α) :
    (seekAfter (fun _ => true) ns (s.filterMap take)).1 = (s.pullAfter take ns).1 ∧
      ∀ x, (s.pullAfter take ns).1.result = .ok x →
        (seekAfter (fun _ => true) ns (s.filterMap take)).2 () =
          ((s.pullAfter take ns).2 ()).filterMap take := by
  induction s generalizing ns with
  | done => exact ⟨rfl, fun _ _ => rfl⟩
  | fail cause => exact ⟨rfl, fun _ h => by cases h⟩
  | note n s ih => exact ih () (n :: ns)
  | row a s ih =>
    rw [filterMap, pullAfter]
    rcases take a with cause | _ | b
    · exact ⟨rfl, fun _ h => by cases h⟩
    · exact ih () ns
    · exact ⟨rfl, fun _ _ => rfl⟩

end Scan

theorem next_ofList (take : Row → Result (Option β)) {rs left : List Row} {position : Nat}
    (hleft : rs.drop position = left) :
    ((Scan.ofList left).filterMap take).next.1 = ⟨[], (pullRows take position left).1⟩ ∧
      ∀ x, (pullRows take position left).1 = .ok x →
        ((Scan.ofList left).filterMap take).next.2 () =
          (Scan.ofList (rs.drop (pullRows take position left).2)).filterMap take := by
  induction left generalizing position with
  | nil =>
    refine ⟨rfl, fun _ _ => ?_⟩
    rw [pullRows, hleft]
    rfl
  | cons row left ih =>
    have hnext : rs.drop (position + 1) = left := by
      rw [← List.drop_drop, hleft]
      rfl
    rw [Scan.ofList, Scan.filterMap, pullRows]
    rcases take row with cause | _ | b
    · exact ⟨rfl, fun _ h => by cases h⟩
    · exact ih hnext
    · refine ⟨rfl, fun _ _ => ?_⟩
      rw [hnext]
      rfl

namespace Scanner

theorem pull_spec (s : Scanner) (take : Row → Result (Option β)) :
    ((s.rest ()).filterMap take).next.1 = (s.pull take).1 ∧
      ∀ x, (s.pull take).1.result = .ok x →
        ((s.rest ()).filterMap take).next.2 () = ((s.pull take).2.rest ()).filterMap take := by
  induction s generalizing take with
  | rows rs position marked => exact next_ofList take rfl
  | stream rest => exact (rest ()).seekAfter_filterMap take []
  | filtered scope e inner ih =>
    have hcomp (t : Scan Row) : (t.filter fun row => e.holds scope row).filterMap take =
        t.filterMap (fun row => do if ← e.holds scope row then take row else pure none) := by
      rw [Scan.filter, Scan.filterMap_filterMap]
      congr 1
      funext row
      rcases e.holds scope row with cause | _ | _ <;> rfl
    simp only [rest, pull, hcomp]
    exact ih _
  | mapped f inner ih =>
    have hcomp (t : Scan Row) : (t.map f).filterMap take =
        t.filterMap (fun row => do take (← f row)) := by
      rw [Scan.map, Scan.filterMap_filterMap]
      congr 1
      funext row
      rcases f row with cause | row' <;> rfl
    simp only [rest, pull, hcomp]
    exact ih _

theorem next_spec (s : Scanner) :
    (s.rest ()).next.1 = s.next.1 ∧
      ∀ x, s.next.1.result = .ok x → (s.rest ()).next.2 () = s.next.2.rest () := by
  have h := s.pull_spec fun row => .ok (some row)
  simp only [Scan.filterMap_some] at h
  exact h

theorem rest_marked (s : Scanner) : s.marked.rest = s.rest := by
  induction s with
  | rows | stream => rfl
  | filtered _ _ _ ih | mapped _ _ ih => simp only [marked, rest, ih]

/-- The scan that a scanner starts. -/
def opened (s : Scanner) : Opened := ⟨s.rest, s.keepsRows⟩

end Scanner

/-! ### Cursors -/

/-- The cursor has got as far as the scanner, and would go back to the same place. -/
structure Cursor.Follows (c : Cursor) (s : Scanner) : Prop where
  rest : c.rest = s.rest
  saved : c.saved = if s.keepsRows then some s.rewound.rest else none

namespace Cursor.Follows

variable {c : Cursor} {s : Scanner}

theorem start (h : s.keepsRows → s.rewound = s) : (Cursor.start s.opened).Follows s where
  rest := rfl
  saved := by
    by_cases hs : s.keepsRows
    · simp [Cursor.start, Scanner.opened, hs, h hs]
    · simp [Cursor.start, Scanner.opened, hs]

theorem next (h : c.Follows s) : c.next.1 = s.next.1 ∧
    ∀ x, s.next.1.result = .ok x → c.next.2.Follows s.next.2 := by
  obtain ⟨hanswer, hrest⟩ := s.next_spec
  rw [← h.rest] at hanswer hrest
  refine ⟨hanswer, fun x hx => ⟨funext fun _ => hrest x hx, ?_⟩⟩
  show c.saved = _
  have hkeeps : s.next.2.keepsRows = s.keepsRows := s.keepsRows_pull _
  rw [h.saved, hkeeps]
  split
  · next hs => rw [Scanner.next, Scanner.rewound_pull hs]
  · rfl

theorem mark (h : c.Follows s) :
    (∃ c' t, c.mark = .ok c' ∧ s.mark = .ok t ∧ c'.Follows t) ∨
      c.mark = .error .markUnsupported ∧ s.mark = .error .markUnsupported := by
  rw [Scanner.mark_eq, Cursor.mark, h.saved]
  by_cases hs : s.keepsRows
  · have hrest : s.marked.rest = s.rest := s.rest_marked
    refine .inl ⟨{ c with saved := some c.rest }, s.marked, ?_, if_pos hs, ?_⟩
    · rw [if_pos hs]
    · exact ⟨h.rest.trans hrest.symm, by simp [hs, hrest, h.rest]⟩
  · exact .inr ⟨by rw [if_neg hs], if_neg hs⟩

theorem restore (h : c.Follows s) :
    (∃ c' t, c.restore = .ok c' ∧ s.restore = .ok t ∧ c'.Follows t) ∨
      c.restore = .error .markUnsupported ∧ s.restore = .error .markUnsupported := by
  rw [Scanner.restore_eq, Cursor.restore, h.saved]
  by_cases hs : s.keepsRows
  · refine .inl ⟨⟨s.rewound.rest, some s.rewound.rest⟩, s.rewound, ?_, if_pos hs, rfl, ?_⟩
    · rw [if_pos hs]
    · simp [hs]
  · exact .inr ⟨by rw [if_neg hs], if_neg hs⟩

end Cursor.Follows

/-- The answers to uses one after the other, up to the first row that cannot be given.  A mark that
fails leaves everything as it is. -/
def Scanner.Use.answers {σ : Type} (next : σ → Logged (Option Row) × σ)
    (mark restore : σ → Result σ) : σ → List Use → List (Logged (Option Row))
  | _, [] => []
  | s, .next :: uses =>
    (next s).1 ::
      match (next s).1.result with
      | .ok _ => answers next mark restore (next s).2 uses
      | .error _ => []
  | s, .mark :: uses =>
    match mark s with
    | .ok s => pure none :: answers next mark restore s uses
    | .error cause => .fail cause :: answers next mark restore s uses
  | s, .restore :: uses =>
    match restore s with
    | .ok s => pure none :: answers next mark restore s uses
    | .error cause => .fail cause :: answers next mark restore s uses

def Scanner.answers : Scanner → List Scanner.Use → List (Logged (Option Row)) :=
  Scanner.Use.answers Scanner.next Scanner.mark Scanner.restore

def Cursor.answers : Cursor → List Scanner.Use → List (Logged (Option Row)) :=
  Scanner.Use.answers Cursor.next Cursor.mark Cursor.restore

theorem Cursor.Follows.answers_eq {c : Cursor} {s : Scanner} (h : c.Follows s)
    (uses : List Scanner.Use) : c.answers uses = s.answers uses := by
  induction uses generalizing c s with
  | nil => rfl
  | cons u uses ih =>
    rw [Cursor.answers, Scanner.answers] at ih ⊢
    cases u with
    | next =>
      obtain ⟨hanswer, hfollows⟩ := h.next
      rw [Scanner.Use.answers, Scanner.Use.answers, hanswer]
      cases hx : s.next.1.result with
      | error cause => rfl
      | ok x => exact congrArg _ (ih (hfollows x hx))
    | mark =>
      rw [Scanner.Use.answers, Scanner.Use.answers]
      rcases h.mark with ⟨c', t, hc, hs, hfollows⟩ | ⟨hc, hs⟩
      · rw [hc, hs]
        exact congrArg _ (ih hfollows)
      · rw [hc, hs]
        exact congrArg _ (ih h)
    | restore =>
      rw [Scanner.Use.answers, Scanner.Use.answers]
      rcases h.restore with ⟨c', t, hc, hs, hfollows⟩ | ⟨hc, hs⟩
      · rw [hc, hs]
        exact congrArg _ (ih hfollows)
      · rw [hc, hs]
        exact congrArg _ (ih h)

end RelPlan

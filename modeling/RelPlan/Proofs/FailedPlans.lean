import RelPlan.Proofs.NameFailures
import RelPlan.Proofs.Optimizing

/-!
# Plans whose optimization failed

A plan is closed before its optimization begins, and only a table and a join can tell from what they
hold that it did not end.  So a plan whose optimization failed may be opened all the same: where a
node fails at the very end, over inputs that were optimized (`Plan.Stalled`), which happens for an
ambiguous name alone, and where a nested loop would open the input that failed only for a row of
the other one (`Plan.Defers`).  In all other cases opening it fails (`Plan.Unoptimized.scan_fails`).
-/

namespace RelPlan

open Result

/-- The error is about an ambiguous name. -/
def QueryError.Ambiguous (cause : QueryError) : Prop := ∃ r, cause = .ambiguousColumn r

section

variable {source target : List Column}

theorem failsIn_renameRef (r : ColumnRef) :
    FailsIn QueryError.Ambiguous (renameRef source target r) := by
  refine FailsIn.bind (fun cause hcause => ⟨r, resolve_eq_error hcause⟩) fun found _ => ?_
  cases found with
  | none => exact failsIn_ok _
  | some i =>
    cases hc : target[i]? with
    | none => simp only [hc]; exact failsIn_ok _
    | some c => simp only [hc]; exact failsIn_ok _

theorem Expr.failsIn_subst {C : QueryError → Prop} {f : ColumnRef → Result Expr}
    (hf : ∀ r, FailsIn C (f r)) (e : Expr) : FailsIn C (e.subst f) := by
  induction e with
  | const v => exact failsIn_ok _
  | ref r => exact hf r
  | unary op e ih => exact ih.bind fun _ _ => failsIn_ok _
  | binary op l r ihl ihr => exact ihl.bind fun _ _ => ihr.bind fun _ _ => failsIn_ok _

theorem Filter.failsIn_rename (f : Filter) :
    FailsIn QueryError.Ambiguous (f.rename source target) := by
  cases f with
  | none => exact failsIn_ok _
  | some e => exact (Expr.failsIn_subst failsIn_renameRef e).map some

theorem SortOrder.failsIn_rename (o : SortOrder) :
    FailsIn QueryError.Ambiguous (o.rename source target) :=
  (failsIn_mapM fun k _ => (Expr.failsIn_subst failsIn_renameRef k.expr).bind
    fun _ _ => failsIn_ok _).bind fun _ _ => failsIn_ok _

end

namespace Plan

/-- No node of the plan has been optimized, and no path is chosen for a table. -/
def Unoptimized : Plan → Prop
  | source phase (.table r) => phase = .building ∧ r.path = none
  | source phase (.rows _) => phase = .building
  | stage phase _ input => phase = .building ∧ input.Unoptimized
  | pair phase _ left right => phase = .building ∧ left.Unoptimized ∧ right.Unoptimized

variable {p q : Plan}

theorem Assembled.unoptimized (hp : p.Assembled) : p.Unoptimized := by
  induction hp with
  | read => exact ⟨rfl, rfl⟩
  | rows => exact rfl
  | filter _ _ ih | sort _ _ _ ih | project _ _ ih | cut _ _ ih | rename _ _ ih => exact ⟨rfl, ih⟩
  | join _ _ _ _ ihl ihr | union _ _ _ ihl ihr => exact ⟨rfl, ihl, ihr⟩

theorem Unoptimized.phase (hp : p.Unoptimized) : p.phase = .building := by
  cases p with
  | source phase s =>
    cases s with
    | table r => exact hp.1
    | rows r => exact hp
  | stage phase s input => exact hp.1
  | pair phase s left right => exact hp.1

theorem ignoresHanded_unoptimized : IgnoresHanded Unoptimized where
  table _ _ _ _ hpath h := ⟨h.1, hpath.trans h.2⟩
  rows _ _ _ _ _ h := h
  filtered _ _ _ _ _ _ hi h := ⟨h.1, hi h.2⟩
  ordered _ _ _ _ _ _ hi h := ⟨h.1, hi h.2⟩
  pair _ _ _ _ _ h := h

theorem handingKeeps_unoptimized : HandingKeeps Unoptimized where
  filter e _ hp := ignoresHanded_unoptimized.addFilter e hp
  order o _ hp := ignoresHanded_unoptimized.addOrder o hp
  sort _ _ _ hp := ⟨rfl, hp⟩

/-! ### How optimization fails -/

variable {cause : QueryError}

theorem optimize_source_eq_error {s : Source}
    (h : (source .building s).optimize.2.result = .error cause) :
    s.settle.2.result = .error cause ∧
      (source .building s).optimize.1 = source .closed s.settle.1 := by
  rw [optimize] at h ⊢
  simp only [if_true] at h ⊢
  exact ⟨h, by rw [h]; rfl⟩

theorem optimize_stage_eq_error {s : Stage} {input : Plan}
    (h : (stage .building s input).optimize.2.result = .error cause) :
    ∃ s' input' r, s.descend input = ⟨s', input', r⟩ ∧
      ((stage .building s input).optimize.1 = stage .closed s' input' ∨
        (input'.optimize.2.result = .error cause ∧
          (stage .building s input).optimize.1 = stage .closed s' input'.optimize.1) ∨
        (input'.optimize.2.result = .ok () ∧
          (s'.settle input'.optimize.1).2.result = .error cause ∧
          (stage .building s input).optimize.1 =
            stage .closed (s'.settle input'.optimize.1).1 input'.optimize.1)) := by
  rw [optimize] at h ⊢
  cases hdown : s.descend input with
  | mk s' input' r =>
    refine ⟨s', input', r, rfl, ?_⟩
    simp only [hdown, if_true] at h ⊢
    cases r with
    | error cause' => exact .inl rfl
    | ok _ =>
      cases hi : input'.optimize.2.result with
      | error cause' =>
        simp only [hi] at h
        exact .inr (.inl ⟨h, rfl⟩)
      | ok _ =>
        simp only [hi, Logged.result_bind, Result.ok_bind] at h
        exact .inr (.inr ⟨rfl, h, by rw [h]; rfl⟩)

theorem optimize_pair_eq_error {s : Pairing} {left right : Plan}
    (h : (pair .building s left right).optimize.2.result = .error cause) :
    ∃ s' left' right' outcome, s.descend left right = ⟨s', left', right', outcome⟩ ∧
      ((pair .building s left right).optimize.1 = pair .closed s' left' right' ∨
        (left'.optimize.2.result = .error cause ∧
          (pair .building s left right).optimize.1 =
            pair .closed s' left'.optimize.1 right') ∨
        (left'.optimize.2.result = .ok () ∧ right'.optimize.2.result = .error cause ∧
          (pair .building s left right).optimize.1 =
            pair .closed s' left'.optimize.1 right'.optimize.1) ∨
        (left'.optimize.2.result = .ok () ∧ right'.optimize.2.result = .ok () ∧
          (s'.settle left'.optimize.1 right'.optimize.1).2.result = .error cause ∧
          (pair .building s left right).optimize.1 =
            pair .closed (s'.settle left'.optimize.1 right'.optimize.1).1 left'.optimize.1
              right'.optimize.1)) := by
  rw [optimize] at h ⊢
  cases hdown : s.descend left right with
  | mk s' left' right' outcome =>
    refine ⟨s', left', right', outcome, rfl, ?_⟩
    obtain ⟨notes, r⟩ := outcome
    simp only [hdown, if_true] at h ⊢
    cases r with
    | error cause' => exact .inl rfl
    | ok _ =>
      cases hl : left'.optimize.2.result with
      | error cause' =>
        simp only [hl, Logged.result_bind, Result.ok_bind] at h
        exact .inr (.inl ⟨h, rfl⟩)
      | ok _ =>
        cases hr : right'.optimize.2.result with
        | error cause' =>
          simp only [hl, hr, Logged.result_bind, Result.ok_bind] at h
          exact .inr (.inr (.inl ⟨rfl, h, rfl⟩))
        | ok _ =>
          simp only [hl, hr, Logged.result_bind, Result.ok_bind] at h
          exact .inr (.inr (.inr ⟨rfl, rfl, h, by rw [h]; rfl⟩))

/-- All nodes of the plan are settled. -/
def Settled : Plan → Prop
  | source phase _ => phase = .settled
  | stage phase _ input => phase = .settled ∧ input.Settled
  | pair phase _ left right => phase = .settled ∧ left.Settled ∧ right.Settled

theorem Settled.phase (hq : q.Settled) : q.phase = .settled := by
  cases q with
  | source phase s => exact hq
  | stage phase s input => exact hq.1
  | pair phase s left right => exact hq.1

theorem settled_optimize (h : p.optimize.2.result = .ok ()) : p.optimize.1.Settled :=
  optimize_induct (motive := fun _ q => q.Settled) (fun _ _ => rfl)
    (fun _ _ _ _ _ _ _ ih => ⟨rfl, ih⟩)
    (fun _ _ _ _ _ _ _ _ _ _ _ ihl ihr => ⟨rfl, ihl, ihr⟩) h

/-- What an optimization that failed leaves of a plan that had not been optimized. -/
inductive Abandoned : Plan → QueryError → Prop
  | source {s : Source} {cause : QueryError} (hs : (source .building s).Unoptimized)
      (hfail : s.settle.2.result = .error cause) : Abandoned (source .closed s.settle.1) cause
  | stageDown (s : Stage) {input : Plan} (cause : QueryError) (hi : input.Unoptimized) :
      Abandoned (stage .closed s input) cause
  | stageInput (s : Stage) {input : Plan} {cause : QueryError} (hi : Abandoned input cause) :
      Abandoned (stage .closed s input) cause
  | stageUp {s : Stage} {input : Plan} {cause : QueryError} (hi : input.Settled)
      (hfail : (s.settle input).2.result = .error cause) :
      Abandoned (stage .closed (s.settle input).1 input) cause
  | pairDown (s : Pairing) {left right : Plan} (cause : QueryError) (hl : left.Unoptimized)
      (hr : right.Unoptimized) : Abandoned (pair .closed s left right) cause
  | pairLeft (s : Pairing) {left right : Plan} {cause : QueryError} (hl : Abandoned left cause)
      (hr : right.Unoptimized) : Abandoned (pair .closed s left right) cause
  | pairRight (s : Pairing) {left right : Plan} {cause : QueryError} (hl : left.Settled)
      (hr : Abandoned right cause) : Abandoned (pair .closed s left right) cause
  | pairUp {s : Pairing} {left right : Plan} {cause : QueryError} (hl : left.Settled)
      (hr : right.Settled) (hfail : (s.settle left right).2.result = .error cause) :
      Abandoned (pair .closed (s.settle left right).1 left right) cause

theorem Abandoned.phase (h : Abandoned q cause) : q.phase = .closed := by cases h <;> rfl

theorem Unoptimized.abandoned (hp : p.Unoptimized) (hfail : p.optimize.2.result = .error cause) :
    Abandoned p.optimize.1 cause := by
  induction hn : p.weight using Nat.strongRecOn generalizing p cause with
  | _ n ih =>
    subst hn
    cases p with
    | source phase s =>
      obtain rfl : phase = .building := hp.phase
      obtain ⟨hs, heq⟩ := optimize_source_eq_error hfail
      rw [heq]
      exact .source hp hs
    | stage phase s input =>
      obtain ⟨rfl, hi⟩ := hp
      have hinput := handingKeeps_unoptimized.descend_stage s hi
      have hweight := s.weight_descend input
      obtain ⟨s', input', r, hdown, hcases⟩ := optimize_stage_eq_error hfail
      simp only [hdown] at hinput hweight
      rcases hcases with heq | ⟨hfail', heq⟩ | ⟨hi', hfail', heq⟩
      · rw [heq]
        exact .stageDown _ _ hinput
      · rw [heq]
        exact .stageInput _ (ih _ (by simp only [weight]; omega) hinput hfail' rfl)
      · rw [heq]
        exact .stageUp (settled_optimize hi') hfail'
    | pair phase s left right =>
      obtain ⟨rfl, hl, hr⟩ := hp
      obtain ⟨hleft, hright⟩ :=
        handingKeeps_unoptimized.descend_pair handingKeeps_unoptimized s hl hr
      obtain ⟨hlweight, hrweight⟩ := s.bounded_descend left right
      obtain ⟨s', left', right', outcome, hdown, hcases⟩ := optimize_pair_eq_error hfail
      simp only [hdown] at hleft hright hlweight hrweight
      rcases hcases with heq | ⟨hfail', heq⟩ | ⟨hl', hfail', heq⟩ | ⟨hl', hr', hfail', heq⟩
      · rw [heq]
        exact .pairDown _ _ hleft hright
      · rw [heq]
        exact .pairLeft _ (ih _ (by simp only [weight]; omega) hleft hfail' rfl) hright
      · rw [heq]
        exact .pairRight _ (settled_optimize hl')
          (ih _ (by simp only [weight]; omega) hright hfail' rfl)
      · rw [heq]
        exact .pairUp (settled_optimize hl') (settled_optimize hr') hfail'

/-! ### Where optimization stopped -/

/-- Optimization stopped at the very end of a node, over inputs that were optimized. -/
def Stalled : Plan → Prop
  | source _ (.table _) => False
  | source phase (.rows _) => phase = .closed
  | stage phase _ input => (phase = .closed ∧ input.phase = .settled) ∨ input.Stalled
  | pair phase _ left right =>
    (phase = .closed ∧ left.phase = .settled ∧ right.phase = .settled) ∨
      left.Stalled ∨ right.Stalled

/-- A nested loop would open an input that was not optimized only for a row of the other one. -/
def Defers : Plan → Prop
  | source _ _ => False
  | stage _ _ input => input.Defers
  | pair _ (.join j) left right =>
    (j.strategy = some .nestedLoop ∧ left.phase = .settled ∧ right.phase ≠ .settled) ∨
      left.Defers ∨ right.Defers
  | pair _ (.union _) left right => left.Defers ∨ right.Defers

theorem Unoptimized.not_stalled (hp : p.Unoptimized) : ¬ p.Stalled := by
  induction p with
  | source phase s =>
    cases s with
    | table r => exact id
    | rows r =>
      obtain rfl : phase = .building := hp
      exact nofun
  | stage phase s input ih =>
    obtain ⟨rfl, hi⟩ := hp
    rintro (⟨⟨⟩, -⟩ | h)
    exact ih hi h
  | pair phase s left right ihl ihr =>
    obtain ⟨rfl, hl, hr⟩ := hp
    rintro (⟨⟨⟩, -⟩ | h | h)
    exacts [ihl hl h, ihr hr h]

theorem Settled.not_stalled (hq : q.Settled) : ¬ q.Stalled := by
  induction q with
  | source phase s =>
    obtain rfl : phase = .settled := hq
    cases s with
    | table r => exact id
    | rows r => exact nofun
  | stage phase s input ih =>
    obtain ⟨rfl, hi⟩ := hq
    rintro (⟨⟨⟩, -⟩ | h)
    exact ih hi h
  | pair phase s left right ihl ihr =>
    obtain ⟨rfl, hl, hr⟩ := hq
    rintro (⟨⟨⟩, -⟩ | h | h)
    exacts [ihl hl h, ihr hr h]

theorem failsIn_settleStage (s : Stage) (input : Plan) :
    FailsIn QueryError.Ambiguous (s.settle input).2.result := by
  cases s with
  | filter | project | cut => exact failsIn_ok _
  | sort order buffered wanted =>
    simp only [Stage.settle]
    split <;> exact failsIn_ok _
  | rename name kept residual unmet =>
    simp only [Stage.settle, Stage.settleRename]
    split
    · next cause hcause => exact failsIn_error (Filter.failsIn_rename _ _ hcause)
    · split
      · next cause hcause =>
        have hunmet (o : Option SortOrder) : FailsIn QueryError.Ambiguous (o.mapM
            (SortOrder.rename input.columns (input.columns.map (·.withRelation (some name))))) := by
          cases o with
          | none => exact failsIn_ok _
          | some o => exact (SortOrder.failsIn_rename o).map some
        exact failsIn_error (hunmet _ _ hcause)
      · exact failsIn_ok _

theorem failsIn_settlePairing (s : Pairing) (left right : Plan) :
    FailsIn QueryError.Ambiguous (s.settle left right).2.result := by
  cases s with
  | join j => exact failsIn_ok _
  | union u =>
    have hresiduals : FailsIn QueryError.Ambiguous (do
        let l ← left.residual.rename left.columns left.columns
        let r ← right.residual.rename right.columns left.columns
        return (l, r) : Result (Filter × Filter)) :=
      (Filter.failsIn_rename _).bind fun _ _ =>
        (Filter.failsIn_rename _).bind fun _ _ => failsIn_ok _
    simp only [Pairing.settle, Union.settle]
    split
    · next cause hcause => exact failsIn_error (hresiduals _ hcause)
    · exact failsIn_ok _

/-- A node that stops at its end does so for an ambiguous name. -/
theorem Abandoned.ambiguous (h : Abandoned q cause) (hq : q.Stalled) : cause.Ambiguous := by
  induction h with
  | @source s cause hs hfail =>
    cases s with
    | table r =>
      unfold Source.settle at hq
      dsimp only at hq
      split at hq <;> exact hq.elim
    | rows r =>
      unfold Source.settle at hfail
      dsimp only at hfail
      split at hfail
      · cases hfail
      · next cause' hcause =>
        cases hfail
        exact Filter.failsIn_rename _ _ hcause
  | stageDown s cause hi =>
    rcases hq with ⟨-, hsettled⟩ | h
    · rw [hi.phase] at hsettled
      cases hsettled
    · exact (hi.not_stalled h).elim
  | stageInput s hi ih =>
    rcases hq with ⟨-, hsettled⟩ | h
    · rw [hi.phase] at hsettled
      cases hsettled
    · exact ih h
  | stageUp hi hfail => exact failsIn_settleStage _ _ _ hfail
  | pairDown s cause hl hr =>
    rcases hq with ⟨-, hsettled, -⟩ | h | h
    · rw [hl.phase] at hsettled
      cases hsettled
    · exact (hl.not_stalled h).elim
    · exact (hr.not_stalled h).elim
  | pairLeft s hl hr ih =>
    rcases hq with ⟨-, hsettled, -⟩ | h | h
    · rw [hl.phase] at hsettled
      cases hsettled
    · exact ih h
    · exact (hr.not_stalled h).elim
  | pairRight s hl hr ih =>
    rcases hq with ⟨-, -, hsettled⟩ | h | h
    · rw [hr.phase] at hsettled
      cases hsettled
    · exact (hl.not_stalled h).elim
    · exact ih h
  | pairUp hl hr hfail => exact failsIn_settlePairing _ _ _ _ hfail

/-! ### Opening what is left -/

section

variable {phase : Phase} {input left right : Plan} {scope : Scope} {o : Opened}

theorem phase_of_scan (h : (p.scan scope).result = .ok o) : p.phase ≠ .building := by
  intro hphase
  cases p with
  | source phase s =>
    simp [scan, requireClosed, hphase] at h
  | stage phase s input =>
    simp [scan, requireClosed, hphase] at h
  | pair phase s left right =>
    cases s <;> simp [scan, requireClosed, hphase] at h

theorem input_of_scan {s : Stage} (h : ((stage phase s input).scan scope).result = .ok o) :
    ∃ o', (input.scan scope).result = .ok o' := by
  rw [scan] at h
  obtain ⟨-, -, h⟩ := Logged.result_bind_eq_ok.1 h
  obtain ⟨o', ho', -⟩ := Logged.result_bind_eq_ok.1 h
  exact ⟨o', ho'⟩

theorem left_of_scan {s : Pairing} (h : ((pair phase s left right).scan scope).result = .ok o) :
    ∃ o', (left.scan scope).result = .ok o' := by
  cases s with
  | join j =>
    rw [scan] at h
    obtain ⟨-, -, h⟩ := Logged.result_bind_eq_ok.1 h
    obtain ⟨o', ho', -⟩ := Logged.result_bind_eq_ok.1 h
    exact ⟨o', ho'⟩
  | union u =>
    rw [scan] at h
    obtain ⟨-, -, h⟩ := Logged.result_bind_eq_ok.1 h
    obtain ⟨o', ho', -⟩ := Logged.result_bind_eq_ok.1 h
    exact ⟨o', ho'⟩

theorem right_of_scan {s : Pairing} (hs : ∀ j, s = .join j → j.strategy ≠ some .nestedLoop)
    (h : ((pair phase s left right).scan scope).result = .ok o) :
    ∃ o', (right.scan scope).result = .ok o' := by
  cases s with
  | join j =>
    rw [scan] at h
    obtain ⟨-, -, h⟩ := Logged.result_bind_eq_ok.1 h
    obtain ⟨l, -, h⟩ := Logged.result_bind_eq_ok.1 h
    split at h
    · cases h
    · next hj => exact (hs j rfl hj).elim
    all_goals
      obtain ⟨o', ho', -⟩ := Logged.result_bind_eq_ok.1 h
      exact ⟨o', ho'⟩
  | union u =>
    rw [scan] at h
    obtain ⟨-, -, h⟩ := Logged.result_bind_eq_ok.1 h
    obtain ⟨l, -, h⟩ := Logged.result_bind_eq_ok.1 h
    obtain ⟨o', ho', -⟩ := Logged.result_bind_eq_ok.1 h
    exact ⟨o', ho'⟩

end

/-- What is left can only be opened if optimization stopped at the end of a node, or if a nested
loop puts off opening its right input. -/
theorem Abandoned.stalled_or_defers {scope : Scope} {o : Opened} (h : Abandoned q cause)
    (hopen : (q.scan scope).result = .ok o) : q.Stalled ∨ q.Defers := by
  induction h generalizing o with
  | @source s cause hs hfail =>
    cases s with
    | table r =>
      have hpath : r.path = none := hs.2
      unfold Source.settle at hfail hopen
      dsimp only at hfail hopen
      split at hfail
      · cases hfail
      · next hselect =>
        simp only [hselect] at hopen
        rw [scan] at hopen
        obtain ⟨-, -, hopen⟩ := Logged.result_bind_eq_ok.1 hopen
        simp [Source.scan, hpath] at hopen
    | rows r =>
      unfold Source.settle
      dsimp only
      split <;> exact .inl rfl
  | stageDown s cause hi =>
    obtain ⟨o', ho'⟩ := input_of_scan hopen
    exact (phase_of_scan ho' hi.phase).elim
  | stageInput s hi ih =>
    obtain ⟨o', ho'⟩ := input_of_scan hopen
    exact (ih ho').imp .inr id
  | stageUp hi hfail => exact .inl (.inl ⟨rfl, hi.phase⟩)
  | pairDown s cause hl hr =>
    obtain ⟨o', ho'⟩ := left_of_scan hopen
    exact (phase_of_scan ho' hl.phase).elim
  | pairLeft s hl hr ih =>
    obtain ⟨o', ho'⟩ := left_of_scan hopen
    rcases ih ho' with h | h
    · exact .inl (.inr (.inl h))
    · right
      cases s with
      | join j => exact .inr (.inl h)
      | union u => exact .inl h
  | pairRight s hl hr ih =>
    cases s with
    | join j =>
      by_cases hj : j.strategy = some .nestedLoop
      · exact .inr (.inl ⟨hj, hl.phase, by simp [hr.phase]⟩)
      · obtain ⟨o', ho'⟩ := right_of_scan (by rintro _ ⟨⟩; exact hj) hopen
        exact (ih ho').imp (fun h => .inr (.inr h)) fun h => .inr (.inr h)
    | union u =>
      obtain ⟨o', ho'⟩ := right_of_scan (s := .union u) (fun _ h => by cases h) hopen
      exact (ih ho').imp (fun h => .inr (.inr h)) .inr
  | pairUp hl hr hfail => exact .inl (.inl ⟨rfl, hl.phase, hr.phase⟩)

/-- A plan whose optimization failed cannot be opened, unless a node stopped at its very end, which
it does for an ambiguous name, or a nested loop puts off opening the input that failed. -/
theorem Unoptimized.scan_fails (hp : p.Unoptimized) (hfail : p.optimize.2.result = .error cause) :
    (p.optimize.1.Stalled → ∃ r, cause = .ambiguousColumn r) ∧
    (¬ p.optimize.1.Stalled → ¬ p.optimize.1.Defers →
      ∀ scope, ∃ cause', (p.optimize.1.scan scope).result = .error cause') := by
  have hleft := hp.abandoned hfail
  refine ⟨hleft.ambiguous, fun hstalled hdefers scope => ?_⟩
  rcases hopen : (p.optimize.1.scan scope).result with cause' | o
  · exact ⟨cause', rfl⟩
  · exact ((hleft.stalled_or_defers hopen).elim hstalled hdefers).elim

/-- Rows that hold one integer in all their columns. -/
def repeated (names : List String) (integers : List Int64) : Plan :=
  let columns := names.map fun name => ⟨none, name, .int, false⟩
  source .building (.rows {
    columns
    rows := integers.map fun n => ⟨columns, columns.map fun _ => .int n, none, by simp⟩ })

theorem assembled_repeated (names : List String) (integers : List Int64) :
    (repeated names integers).Assembled := by
  refine .rows fun row hrow => ?_
  obtain ⟨n, -, rfl⟩ := List.mem_map.1 hrow
  rfl

/-- `name = 1` -/
def isOne (name : String) : Expr := .binary (.cmp .eq) (.ref ⟨none, name⟩) (.const (.int 1))

/-- The rows of a union in which `q` is `1`.  They are not filtered below the limit. -/
def onesOfUnion (right : Plan) : Plan :=
  filter (isOne "q") (union false (limit 9 (repeated ["p", "q"] [1, 2])) right)

theorem unoptimized_onesOfUnion {right : Plan} (hr : right.Assembled) :
    (onesOfUnion right).Unoptimized :=
  (Assembled.filter _ (.union _ (.cut _ (assembled_repeated _ _)) hr)).unoptimized

/-- The right input of the union reads a column that there is none of. -/
theorem scan_fails_unknown : ∃ cause,
    ((onesOfUnion (filter (isOne "z") (repeated ["p", "q"] []))).optimize.1.scan .empty).result =
      .error cause := by
  have hp := unoptimized_onesOfUnion (.filter (isOne "z") (assembled_repeated ["p", "q"] []))
  have hfail : (onesOfUnion (filter (isOne "z") (repeated ["p", "q"] []))).optimize.2.result =
      .error (.unknownColumn ⟨none, "z"⟩) := by cbv
  obtain ⟨hambiguous, hfails⟩ := hp.scan_fails hfail
  refine hfails (fun hstalled => ?_) ?_ .empty
  · obtain ⟨r, hr⟩ := hambiguous hstalled
    cases hr
  · cbv

/-- Three plans that are read though their optimization failed: rows whose filter names two columns,
a union below which it does, and a union of which the right input is a nested loop. -/
theorem read_after_failure :
    let rows := ((repeated ["x", "x"] [1, 2]).addFilter (isOne "x")).1
    let union := onesOfUnion (limit 9 (repeated ["x", "x"] []))
    let loop := onesOfUnion
      (join none .auto (repeated ["a"] []) (filter (isOne "z") (repeated ["b"] [])))
    (rows.Unoptimized ∧ rows.optimize.2.result = .error (.ambiguousColumn ⟨none, "x"⟩) ∧
      List.map Row.values <$> rows.optimize.1.drain .empty none =
        .ok [[.int 1, .int 1], [.int 2, .int 2]]) ∧
    (union.Unoptimized ∧ union.optimize.2.result = .error (.ambiguousColumn ⟨none, "x"⟩) ∧
      List.map Row.values <$> union.optimize.1.drain .empty none =
        .ok [[.int 1, .int 1], [.int 2, .int 2]]) ∧
    (loop.Unoptimized ∧ loop.optimize.2.result = .error (.unknownColumn ⟨none, "z"⟩) ∧
      List.map Row.values <$> loop.optimize.1.drain .empty none =
        .ok [[.int 1, .int 1], [.int 2, .int 2]]) := by
  refine ⟨⟨rfl, by cbv, by cbv⟩, ⟨?_, by cbv, by cbv⟩, ?_, by cbv, by cbv⟩
  · exact unoptimized_onesOfUnion (.cut _ (assembled_repeated _ _))
  · exact unoptimized_onesOfUnion
      (.join _ _ (assembled_repeated _ _) (.filter _ (assembled_repeated _ _)))

end Plan

end RelPlan

import RelPlan.Proofs.SettledScans

/-!
# Optimizing plans of any shape

What handing filters and orders to a plan keeps, the way down keeps of the inputs (`HandingKeeps`),
and what each node keeps of its optimized inputs holds of every plan that is optimized
(`Plan.optimize_induct`).  So optimization keeps the columns of a plan, and if the rows of its
sources have the columns that they stand under, then so have the rows that it yields
(`Plan.Columned.optimize`).
-/

namespace RelPlan

/-- What a plan keeps when something is handed to it or it is sorted. -/
structure HandingKeeps (P : Plan → Prop) : Prop where
  filter : ∀ e p, P p → P (p.addFilter e).1
  order : ∀ o p, P p → P (p.addOrder o).1
  sort : ∀ o buffered p, P p → P (.stage .building (.sort o buffered none) p)

section

variable {P Q : Plan → Prop} {p input left right : Plan}

namespace HandingKeeps

theorem filter? (h : HandingKeeps P) (f : Filter) (hp : P p) : P (p.addFilter? f).1 := by
  cases f with
  | none => exact hp
  | some e => exact h.filter e p hp

theorem order? (h : HandingKeeps P) (o : Option SortOrder) (hp : P p) : P (p.addOrder? o).1 := by
  cases o with
  | none => exact hp
  | some o => exact h.order o p hp

theorem arrangeLeft (h : HandingKeeps P) (strategy : JoinStrategy) (hp : P p) :
    P (Join.arrangeLeft strategy p) := by
  cases strategy with
  | merge pairs => exact h.sort _ false p hp
  | nestedLoop | hash => exact hp

theorem arrangeRight (h : HandingKeeps P) (strategy : JoinStrategy) (hp : P p) :
    P (Join.arrangeRight strategy p) := by
  cases strategy with
  | merge pairs => exact h.sort _ true p hp
  | nestedLoop | hash => exact hp

theorem descend_stage (h : HandingKeeps P) (s : Stage) (hi : P input) :
    P (s.descend input).input := by
  cases s with
  | filter predicate pushed =>
    simp only [Stage.descend, Stage.descendFilter]
    split
    · exact hi
    · exact h.filter? _ hi
  | sort order buffered wanted =>
    simp only [Stage.descend, Stage.descendSort]
    split
    · exact hi
    · exact h.order? _ hi
  | project outputs pushed wanted kept =>
    simp only [Stage.descend, Stage.descendProject]
    split
    · exact hi
    · split
      · exact hi
      · next moving staying _ =>
        have hmoved := h.filter? moving hi
        split
        · next heq =>
          rw [heq] at hmoved
          exact hmoved
        · next heq =>
          rw [heq] at hmoved
          simp only [Stage.descendProjectOrder]
          split
          · exact hmoved
          · exact h.order? _ hmoved
  | cut | rename => exact hi

theorem handFilters (hP : HandingKeeps P) (hQ : HandingKeeps Q) (s : Pairing) (f g : Filter)
    (hl : P left) (hr : Q right) :
    P (PairDescent.handFilters s left right f g).left ∧
      Q (PairDescent.handFilters s left right f g).right := by
  have hl' := hP.filter? f hl
  have hr' := hQ.filter? g hr
  unfold PairDescent.handFilters
  split
  · next heq =>
    rw [heq] at hl'
    exact ⟨hl', hr⟩
  · next heq =>
    rw [heq] at hl'
    split
    all_goals
      next heq =>
      rw [heq] at hr'
      exact ⟨hl', hr'⟩

theorem descendOrder (hP : HandingKeeps P) (j : Join) (hl : P left) (hr : Q right) :
    P (j.descendOrder left right).left ∧ Q (j.descendOrder left right).right := by
  unfold Join.descendOrder
  split
  · exact ⟨hl, hr⟩
  · exact ⟨hl, hr⟩
  · dsimp only
    split
    · exact ⟨hl, hr⟩
    · split
      · exact ⟨hl, hr⟩
      · exact ⟨hP.order _ left hl, hr⟩
      · exact ⟨hl, hr⟩

theorem descendBound (hP : HandingKeeps P) (hQ : HandingKeeps Q) (j : Join) (hl : P left)
    (hr : Q right) : P (j.descendBound left right).left ∧ Q (j.descendBound left right).right := by
  unfold Join.descendBound
  split
  · exact ⟨hl, hr⟩
  · next d _ =>
    obtain ⟨hl', hr'⟩ := hP.handFilters hQ (.join { j with strategy := some d.strategy }) d.forLeft
      d.forRight (hP.arrangeLeft d.strategy hl) (hQ.arrangeRight d.strategy hr)
    dsimp only [PairDescent.andThen]
    split
    · exact ⟨hl', hr'⟩
    · exact hP.descendOrder _ hl' hr'

theorem descend_pair (hP : HandingKeeps P) (hQ : HandingKeeps Q) (s : Pairing) (hl : P left)
    (hr : Q right) : P (s.descend left right).left ∧ Q (s.descend left right).right := by
  cases s with
  | join j =>
    simp only [Pairing.descend, Join.descend]
    split
    · exact ⟨hl, hr⟩
    · exact hP.descendBound hQ _ hl hr
  | union u =>
    simp only [Pairing.descend, Union.descend]
    split
    · exact ⟨hl, hr⟩
    · exact hP.handFilters hQ _ _ _ hl hr

end HandingKeeps

end

namespace Plan

variable {p q : Plan}

/-! ### Induction -/

theorem phase_of_optimize (h : p.optimize.2.result = .ok ()) : p.phase = .building := by
  by_contra hphase
  cases p <;>
  · rw [optimize, if_neg (by exact hphase)] at h
    cases h

/-- A plan that is optimized was building, and so were the inputs that its nodes handed on to. -/
theorem optimize_induct {motive : Plan → Plan → Prop}
    (source : ∀ s : Source, s.settle.2.result = .ok () →
      motive (.source .building s) (.source .settled s.settle.1))
    (stage : ∀ s input s' input', Stage.descend s input = ⟨s', input', .ok ()⟩ →
      input'.optimize.2.result = .ok () → (s'.settle input'.optimize.1).2.result = .ok () →
      motive input' input'.optimize.1 →
      motive (.stage .building s input)
        (.stage .settled (s'.settle input'.optimize.1).1 input'.optimize.1))
    (pair : ∀ s left right s' left' right' notes,
      Pairing.descend s left right = ⟨s', left', right', ⟨notes, .ok ()⟩⟩ →
      left'.optimize.2.result = .ok () → right'.optimize.2.result = .ok () →
      (s'.settle left'.optimize.1 right'.optimize.1).2.result = .ok () →
      motive left' left'.optimize.1 → motive right' right'.optimize.1 →
      motive (.pair .building s left right)
        (.pair .settled (s'.settle left'.optimize.1 right'.optimize.1).1 left'.optimize.1
          right'.optimize.1))
    (h : p.optimize.2.result = .ok ()) : motive p p.optimize.1 := by
  have hphase := phase_of_optimize h
  induction hn : p.weight using Nat.strongRecOn generalizing p with
  | _ n ih =>
    subst hn
    cases p with
    | source phase s =>
      obtain rfl : phase = .building := hphase
      obtain ⟨hs, heq⟩ := optimize_source h
      rw [heq]
      exact source s hs
    | stage phase s input =>
      obtain rfl : phase = .building := hphase
      obtain ⟨s', input', hdown, hi, hs, heq⟩ := optimize_stage h
      have hweight : input'.weight = input.weight := by
        have := s.weight_descend input
        rwa [hdown] at this
      rw [heq]
      exact stage s input s' input' hdown hi hs
        (ih _ (by simp only [weight]; omega) hi (phase_of_optimize hi) rfl)
    | pair phase s left right =>
      obtain rfl : phase = .building := hphase
      obtain ⟨s', left', right', notes, hdown, hl, hr, hs, heq⟩ := optimize_pair h
      have hweight := s.bounded_descend left right
      rw [hdown] at hweight
      rw [heq]
      exact pair s left right s' left' right' notes hdown hl hr hs
        (ih _ (by have := hweight.1; simp only [weight]; simp only at this; omega) hl
          (phase_of_optimize hl) rfl)
        (ih _ (by have := hweight.2; simp only [weight]; simp only at this; omega) hr
          (phase_of_optimize hr) rfl)

/-- The property does not depend on what is put aside in the nodes. -/
structure IgnoresHanded (P : Plan → Prop) : Prop where
  table : ∀ phase (r r' : TableRead), r'.table = r.table → r'.path = r.path →
    P (.source phase (.table r)) → P (.source phase (.table r'))
  rows : ∀ phase (r r' : InlineRows), r'.columns = r.columns → r'.rows = r.rows →
    P (.source phase (.rows r)) → P (.source phase (.rows r'))
  filtered : ∀ phase s columns e input input', (P input → P input') → P (.stage phase s input) →
    P (.stage phase (s.takeFilter columns e).1 input')
  ordered : ∀ phase s columns o input input', (P input → P input') → P (.stage phase s input) →
    P (.stage phase (s.takeOrder columns o).1 input')
  pair : ∀ phase s s' left right, P (.pair phase s left right) → P (.pair phase s' left right)

namespace IgnoresHanded

variable {P : Plan → Prop} (hP : IgnoresHanded P)
include hP

theorem addFilter (e : Expr) (hp : P p) : P (p.addFilter e).1 := by
  fun_induction Plan.addFilter e p with
  | case1 => exact hp
  | case2 e phase s =>
    cases s with
    | table r =>
      cases hq : e.qualify r.table.columns with
      | error cause => simp only [Source.takeFilter, hq]; exact hp
      | ok e' => simp only [Source.takeFilter, hq]; exact hP.table _ r _ rfl rfl hp
    | rows r => exact hP.rows _ r _ rfl rfl hp
  | case3 e phase s input s' _ htake | case4 e phase s input s' htake =>
    have h := hP.filtered phase s input.columns e input input id hp
    rwa [htake] at h
  | case5 e phase s input s' e' htake input' r hadd _ ih =>
    rw [hadd] at ih
    have h := hP.filtered phase s input.columns e input input' ih hp
    rwa [htake] at h
  | case6 => exact hP.pair _ _ _ _ _ hp

theorem addOrder (o : SortOrder) (hp : P p) : P (p.addOrder o).1 := by
  fun_induction Plan.addOrder o p with
  | case1 => exact hp
  | case2 o phase s =>
    cases s with
    | table r =>
      cases hq : o.qualify r.table.columns with
      | error cause => simp only [Source.takeOrder, hq]; exact hp
      | ok o' => simp only [Source.takeOrder, hq]; exact hP.table _ r _ rfl rfl hp
    | rows r => exact hP.rows _ r _ rfl rfl hp
  | case3 o phase s input s' _ htake | case4 o phase s input s' htake =>
    have h := hP.ordered phase s input.columns o input input id hp
    rwa [htake] at h
  | case5 o phase s input s' o' htake input' r hadd _ ih =>
    rw [hadd] at ih
    have h := hP.ordered phase s input.columns o input input' ih hp
    rwa [htake] at h
  | case6 => exact hP.pair _ _ _ _ _ hp

end IgnoresHanded

/-! ### Columns -/

/-- The rows of each source have the columns that they stand under. -/
def Columned : Plan → Prop
  | source _ (.table r) => ∀ row ∈ r.table.rows, row.columns = r.table.columns
  | source _ (.rows r) => ∀ row ∈ r.rows, row.columns = r.columns
  | stage _ _ input => input.Columned
  | pair _ _ left right => left.Columned ∧ right.Columned

theorem Assembled.columned (hp : p.Assembled) : p.Columned := by
  induction hp with
  | read _ hcol | rows hcol => exact hcol
  | filter _ _ ih | sort _ _ _ ih | project _ _ ih | cut _ _ ih | rename _ _ ih => exact ih
  | join _ _ _ _ ihl ihr | union _ _ _ ihl ihr => exact ⟨ihl, ihr⟩

theorem ignoresHanded_columned : IgnoresHanded Columned where
  table _ _ _ htable _ h := by rw [Columned, htable]; exact h
  rows _ _ _ hcolumns hrows h := by rw [Columned, hcolumns, hrows]; exact h
  filtered _ _ _ _ _ _ hi h := hi h
  ordered _ _ _ _ _ _ hi h := hi h
  pair _ _ _ _ _ h := h

theorem handingKeeps_columned (columns : List Column) :
    HandingKeeps fun p => p.Columned ∧ p.columns = columns where
  filter e p h := ⟨ignoresHanded_columned.addFilter e h.1, (columns_addFilter e p).trans h.2⟩
  order o p h := ⟨ignoresHanded_columned.addOrder o h.1, (columns_addOrder o p).trans h.2⟩
  sort _ _ _ h := h

theorem columns_descend (s : Stage) (input : Plan) (columns : List Column) :
    (s.descend input).stage.columns columns = s.columns columns := by
  cases s with
  | filter predicate pushed =>
    simp only [Stage.descend, Stage.descendFilter]
    split <;> rfl
  | sort order buffered wanted =>
    simp only [Stage.descend, Stage.descendSort]
    split <;> rfl
  | project outputs pushed wanted kept =>
    simp only [Stage.descend, Stage.descendProject]
    split
    · next h => exact columns_bindOutputs h
    · next h =>
      split
      · exact columns_bindOutputs h
      · split
        · exact columns_bindOutputs h
        · simp only [Stage.descendProjectOrder]
          split <;> exact columns_bindOutputs h
  | cut | rename => rfl

theorem columns_settle (s : Stage) (input : Plan) (columns : List Column) :
    (s.settle input).1.columns columns = s.columns columns := by
  cases s with
  | sort =>
    simp only [Stage.settle]
    split <;> rfl
  | rename =>
    simp only [Stage.settle, Stage.settleRename]
    split
    · rfl
    · split <;> rfl
  | filter | project | cut => rfl

theorem pairing_handFilters (s : Pairing) (left right : Plan) (f g : Filter) :
    (PairDescent.handFilters s left right f g).pairing = s := by
  unfold PairDescent.handFilters
  split
  · rfl
  · split <;> rfl

theorem pairing_descendOrder (j : Join) (left right : Plan) :
    ∃ j', (j.descendOrder left right).pairing = .join j' ∧ j'.strategy = j.strategy := by
  unfold Join.descendOrder
  split
  · exact ⟨_, rfl, rfl⟩
  · exact ⟨_, rfl, rfl⟩
  · dsimp only
    split
    · exact ⟨_, rfl, rfl⟩
    · split <;> exact ⟨_, rfl, rfl⟩

theorem pairing_descendJoin (j : Join) (left right : Plan) :
    ∃ j', (j.descend left right).pairing = .join j' := by
  unfold Join.descend
  split
  · exact ⟨_, rfl⟩
  · unfold Join.descendBound
    split
    · exact ⟨_, rfl⟩
    · dsimp only [PairDescent.andThen]
      split
      · exact ⟨_, pairing_handFilters ..⟩
      · obtain ⟨j', hj, -⟩ := pairing_descendOrder ..
        exact ⟨j', hj⟩

theorem columns_descend_pair (s : Pairing) (left right : Plan) (l r : List Column) :
    (s.descend left right).pairing.columns l r = s.columns l r := by
  cases s with
  | join j =>
    obtain ⟨j', hj⟩ := pairing_descendJoin j left right
    rw [Pairing.descend, hj]
    rfl
  | union u =>
    simp only [Pairing.descend, Union.descend]
    split
    · rfl
    · rw [pairing_handFilters]
      rfl

theorem columns_settle_pair (s : Pairing) (left right : Plan) (l r : List Column) :
    (s.settle left right).1.columns l r = s.columns l r := by
  cases s with
  | join => rfl
  | union => rfl

/-- Optimization keeps the columns of a plan, and its rows have them. -/
theorem Columned.optimize (hp : p.Columned) (hopt : p.optimize.2.result = .ok ()) :
    p.optimize.1.columns = p.columns ∧ p.optimize.1.Columnar := by
  revert hp
  refine optimize_induct (motive := fun p q => p.Columned → q.columns = p.columns ∧ q.Columnar)
    ?_ ?_ ?_ hopt
  · intro s hs hp
    cases s with
    | table r =>
      unfold Source.settle at hs ⊢
      dsimp only at hs ⊢
      split at hs
      · next path hpath =>
        exact ⟨rfl, columnar_table hp rfl (AccessPath.selected_of_select hpath).table⟩
      · cases hs
    | rows r =>
      unfold Source.settle at hs ⊢
      dsimp only at hs ⊢
      split at hs
      · exact ⟨rfl, columnar_rows hp⟩
      · cases hs
  · intro s input s' input' hdown _ _ ih hp
    have hstart : input.Columned ∧ input.columns = input.columns := ⟨hp, rfl⟩
    obtain ⟨hinput, hcol⟩ := (handingKeeps_columned input.columns).descend_stage s hstart
    have hstage := columns_descend s input
    rw [hdown] at hinput hcol hstage
    obtain ⟨hcolumns, hcolumnar⟩ := ih hinput
    refine ⟨?_, hcolumnar.stage _⟩
    show (s'.settle input'.optimize.1).1.columns input'.optimize.1.columns = s.columns input.columns
    rw [columns_settle, hcolumns, hcol]
    exact hstage _
  · intro s left right s' left' right' notes hdown _ _ _ ihl ihr hp
    obtain ⟨⟨hl, hlcol⟩, hr, hrcol⟩ := (handingKeeps_columned left.columns).descend_pair
      (handingKeeps_columned right.columns) s ⟨hp.1, rfl⟩ ⟨hp.2, rfl⟩
    have hpair := columns_descend_pair s left right
    rw [hdown] at hl hlcol hr hrcol hpair
    refine ⟨?_, columnar_pair _ _ _⟩
    show (s'.settle left'.optimize.1 right'.optimize.1).1.columns left'.optimize.1.columns
      right'.optimize.1.columns = s.columns left.columns right.columns
    rw [columns_settle_pair, (ihl hl).1, (ihr hr).1, hlcol, hrcol]
    exact hpair _ _

end Plan

end RelPlan

import RelPlan.Plan.Descent

/-!
# Optimizing a plan

A node is optimized once: it is closed, hands on what its inputs should take, optimizes them, and
settles with what they left over.  A plan whose optimization fails keeps what was done up to then
and stays closed.
-/

namespace RelPlan

/-- Chooses the access path of a table, or folds the filter of inline rows.  A failure loses the
filter. -/
def Source.settle (s : Source) : Source × Logged Unit :=
  match s with
  | table r =>
    let pushed := Filter.fold r.pushed
    let path := AccessPath.select r.table pushed r.wanted r.weights
    match path.result with
    | .ok p => (table { r with pushed, path := some p }, ⟨path.notes, .ok ()⟩)
    | .error cause => (table { r with pushed := none }, ⟨path.notes, .error cause⟩)
  | rows r =>
    match (Filter.fold r.pushed).qualify r.columns with
    | .ok pushed => (rows { r with pushed }, pure ())
    | .error cause => (rows { r with pushed := none }, .fail cause)

/-- Takes up what the input of a renaming left over, under the new name. -/
def Stage.settleRename (name : String) (kept residual : Filter) (unmet : Option SortOrder)
    (input : Plan) : Stage × Result Unit :=
  let own := input.columns.map (·.withRelation (some name))
  match input.residual.rename input.columns own with
  | .error cause => (.rename name kept residual unmet, .error cause)
  | .ok left =>
    let residual := Filter.union [kept, left]
    match input.unmet.mapM (SortOrder.rename input.columns own) with
    | .error cause => (.rename name kept residual unmet, .error cause)
    | .ok unmet => (.rename name kept residual unmet, .ok ())

/-- The end of optimizing a stage over an optimized input. -/
def Stage.settle (s : Stage) (input : Plan) : Stage × Logged Unit :=
  match s with
  | sort order _ _ =>
    if Plan.needsSort .settled order input then (s, .note (.sorting s.name))
    else (s, .note (.orderProvided s.name))
  | rename name kept residual unmet =>
    let (s, r) := settleRename name kept residual unmet input
    (s, .ofResult r)
  | s => (s, pure ())

/-- Takes up what the inputs of a union left over: what both did is reported, the rest is checked
here. -/
def Union.settle (u : Union) (left right : Plan) : Union × Logged Unit :=
  let own := left.columns
  let residuals : Result (Filter × Filter) := do
    pure (← left.residual.rename left.columns own, ← right.residual.rename right.columns own)
  match residuals with
  | .error cause => (u, .fail cause)
  | .ok (l, r) =>
    let common := l.inter r
    let u := { u with
      reported := Filter.union [common, u.kept]
      leftLocal := l.diff common
      rightLocal := r.diff common }
    (u, .note (.unionResiduals (Pairing.union u).name u.reported.count u.leftLocal.count
      u.rightLocal.count))

/-- The end of optimizing a pairing of optimized inputs. -/
def Pairing.settle (p : Pairing) (left right : Plan) : Pairing × Logged Unit :=
  match p with
  | join _ => (p, .note (.joinResiduals p.name left.residual.count right.residual.count))
  | union u =>
    let (u, r) := u.settle left right
    (union u, r)

namespace Plan

/-- The phase after optimization. -/
def phaseAfter {α : Type} : Result α → Phase
  | .ok _ => .settled
  | .error _ => .closed

/-- Optimizes a plan. -/
def optimize : Change Plan Unit
  | p@(source phase s) =>
    if phase = .building then
      let (s, r) := s.settle
      (source (phaseAfter r.result) s, r)
    else (p, .fail (.alreadyOptimized p.name))
  | p@(stage phase s input) =>
    if phase = .building then
      let down := s.descend input
      match down.result with
      | .error cause => (stage .closed down.stage down.input, .fail cause)
      | .ok () =>
        let (input, r) := down.input.optimize
        match r.result with
        | .error _ => (stage .closed down.stage input, r)
        | .ok () =>
          let (s, settled) := down.stage.settle input
          (stage (phaseAfter settled.result) s input, do r; settled)
    else (p, .fail (.alreadyOptimized p.name))
  | p@(pair phase s left right) =>
    if phase = .building then
      let down := s.descend left right
      match down.outcome.result with
      | .error _ => (pair .closed down.pairing down.left down.right, down.outcome)
      | .ok () =>
        let (left, l) := down.left.optimize
        match l.result with
        | .error _ => (pair .closed down.pairing left down.right, do down.outcome; l)
        | .ok () =>
          let (right, r) := down.right.optimize
          match r.result with
          | .error _ => (pair .closed down.pairing left right, do down.outcome; l; r)
          | .ok () =>
            let (s, settled) := down.pairing.settle left right
            (pair (phaseAfter settled.result) s left right, do down.outcome; l; r; settled)
    else (p, .fail (.alreadyOptimized p.name))
termination_by p => p.weight
decreasing_by
  · simp [weight, Stage.weight_descend]
  · have := (s.bounded_descend left right).1
    simp only [weight]
    omega
  · have := (s.bounded_descend left right).2
    simp only [weight]
    omega

end Plan

end RelPlan

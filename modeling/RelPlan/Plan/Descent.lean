import RelPlan.Plan.Handing

/-!
# The way down

The first half of optimizing a node: its own expressions are checked against the columns of its
inputs and given full names, and what was put aside for the inputs is handed to them.  A failure
leaves everything done before it in place.
-/

namespace RelPlan

/-- An expression under full names, each of which has to mean one of the columns. -/
def Expr.bindTo (columns : List Column) (e : Expr) : Result Expr := do
  e.validate columns
  e.qualify columns

/-- A sort order under full names, without constant keys. -/
def SortOrder.bindTo (columns : List Column) (o : SortOrder) : Result SortOrder := do
  o.validate columns
  return (← o.qualify columns).fold

/-- A stage and its input after the way down. -/
structure StageDescent where
  stage : Stage
  input : Plan
  result : Result Unit

namespace Stage

/-- Binds the expressions of outputs one after the other; those from the first failure on stay as
they are. -/
def bindOutputs (input : List Column) : List Output → List Output × Result Unit
  | [] => ([], .ok ())
  | out :: outs =>
    match out.expr.bindTo input with
    | .error cause => (out :: outs, .error cause)
    | .ok e =>
      let (outs, r) := bindOutputs input outs
      ({ out with expr := e } :: outs, r)

/-- The expression that a reference to an output stands for.  Other references are outer ones. -/
def outputExpr (outputs : List Output) (r : ColumnRef) : Result Expr := do
  match ← resolve (outputs.map Output.column) r with
  | some i => pure ((outputs[i]?.map Output.expr).getD (.ref r))
  | none => pure (.ref r)

/-- Puts the expressions of outputs in the place of the references to them. -/
def unproject (outputs : List Output) (e : Expr) : Result Expr := e.subst (outputExpr outputs)

def descendFilter (predicate : Expr) (pushed : Filter) (input : Plan) : StageDescent :=
  match predicate.bindTo input.columns with
  | .error cause => ⟨.filter predicate pushed, input, .error cause⟩
  | .ok predicate =>
    let (input, r) := input.addFilter? (Filter.fold (Filter.union [some predicate, pushed]))
    ⟨.filter predicate pushed, input, r⟩

def descendSort (order : SortOrder) (buffered : Bool) (wanted : Option SortOrder) (input : Plan) :
    StageDescent :=
  match order.bindTo input.columns with
  | .error cause => ⟨.sort order buffered wanted, input, .error cause⟩
  | .ok order =>
    let (input, r) := input.addOrder? order.request
    ⟨.sort order buffered wanted, input, r⟩

/-- What of a filter to hand on, in the terms of the input, and what to keep. -/
def splitProjected (outputs : List Output) (input : List Column) (pushed : Filter) :
    Result (Filter × Filter) :=
  match pushed with
  | none => .ok (none, none)
  | some e => do
    let (moving, staying) ← Filter.splitCaptured (outputs.map Output.column) input e
    pure (← moving.mapM (unproject outputs), staying)

/-- Hands the order of a projection on. -/
def descendProjectOrder (outputs : List Output) (pushed : Filter) (wanted : Option SortOrder)
    (kept : Filter) (input : Plan) : StageDescent :=
  let stage := Stage.project outputs pushed wanted kept
  match wanted.mapM (SortOrder.mapM (unproject outputs)) with
  | .error cause => ⟨stage, input, .error cause⟩
  | .ok order =>
    let (input, r) := input.addOrder? order
    ⟨stage, input, r⟩

def descendProject (outputs : List Output) (pushed : Filter) (wanted : Option SortOrder)
    (kept : Filter) (input : Plan) : StageDescent :=
  match bindOutputs input.columns outputs with
  | (outputs, .error cause) => ⟨.project outputs pushed wanted kept, input, .error cause⟩
  | (outputs, .ok ()) =>
    match splitProjected outputs input.columns pushed with
    | .error cause => ⟨.project outputs pushed wanted kept, input, .error cause⟩
    | .ok (moving, staying) =>
      match input.addFilter? moving with
      | (input, .error cause) => ⟨.project outputs pushed wanted kept, input, .error cause⟩
      | (input, .ok ()) => descendProjectOrder outputs pushed wanted staying input

/-- The way down of a stage.  Cuts hand nothing on, and renamings have done so already. -/
def descend (s : Stage) (input : Plan) : StageDescent :=
  match s with
  | filter predicate pushed => descendFilter predicate pushed input
  | sort order buffered wanted => descendSort order buffered wanted input
  | project outputs pushed wanted kept => descendProject outputs pushed wanted kept input
  | s => ⟨s, input, .ok ()⟩

theorem weight_descend (s : Stage) (input : Plan) :
    (s.descend input).input.weight = input.weight := by
  cases s with
  | filter predicate pushed =>
    simp only [descend, descendFilter]
    split <;> simp [Plan.weight_addFilter?]
  | sort order buffered wanted =>
    simp only [descend, descendSort]
    split <;> simp [Plan.weight_addOrder?]
  | project outputs pushed wanted kept =>
    simp only [descend, descendProject]
    split
    · rfl
    · split
      · rfl
      · next moving staying _ =>
        have h := Plan.weight_addFilter? moving input
        split
        · next heq => simpa [heq] using h
        · next plan heq =>
          simp only [heq] at h
          simp only [descendProjectOrder]
          split <;> simp [Plan.weight_addOrder?, h]
  | cut | rename => rfl

end Stage

/-- A pairing and its inputs after the way down. -/
structure PairDescent where
  pairing : Pairing
  left : Plan
  right : Plan
  outcome : Logged Unit

namespace PairDescent

/-- The way down ends with a failure. -/
def fail (pairing : Pairing) (left right : Plan) (cause : QueryError) : PairDescent :=
  ⟨pairing, left, right, .fail cause⟩

/-- Hands a filter to each input, the left one first. -/
def handFilters (pairing : Pairing) (left right : Plan) (forLeft forRight : Filter) : PairDescent :=
  match left.addFilter? forLeft with
  | (left, .error cause) => fail pairing left right cause
  | (left, .ok ()) =>
    match right.addFilter? forRight with
    | (right, .error cause) => fail pairing left right cause
    | (right, .ok ()) => ⟨pairing, left, right, pure ()⟩

/-- Goes on unless the way down has failed. -/
def andThen (d : PairDescent) (next : Pairing → Plan → Plan → PairDescent) : PairDescent :=
  match d.outcome.result with
  | .error _ => d
  | .ok () =>
    let d' := next d.pairing d.left d.right
    { d' with outcome := ⟨d.outcome.notes ++ d'.outcome.notes, d'.outcome.result⟩ }

/-- Each input has gained at most one node. -/
def Bounded (d : PairDescent) (l r : Nat) : Prop := d.left.weight ≤ l ∧ d.right.weight ≤ r

theorem bounded_handFilters {pairing : Pairing} {left right : Plan} {f g : Filter} {l r : Nat}
    (hl : left.weight ≤ l) (hr : right.weight ≤ r) :
    (handFilters pairing left right f g).Bounded l r := by
  have h := Plan.weight_addFilter? f left
  have h' := Plan.weight_addFilter? g right
  unfold handFilters
  split
  · next heq => simp only [heq] at h; exact ⟨by simp only [fail]; omega, hr⟩
  · next heq =>
    simp only [heq] at h
    split
    · next heq' =>
      simp only [heq'] at h'
      exact ⟨by simp only [fail]; omega, by simp only [fail]; omega⟩
    · next heq' => simp only [heq'] at h'; exact ⟨by simp only; omega, by simp only; omega⟩

theorem bounded_andThen {d : PairDescent} {next : Pairing → Plan → Plan → PairDescent} {l r : Nat}
    (hd : d.Bounded l r)
    (hn : ∀ p left right, left.weight ≤ l → right.weight ≤ r → (next p left right).Bounded l r) :
    (d.andThen next).Bounded l r := by
  unfold andThen
  split
  · exact hd
  · exact hn _ _ _ hd.1 hd.2

end PairDescent

namespace Join

/-- What a join does with the filters it has: how it joins, and what it hands to its inputs. -/
structure Decision where
  strategy : JoinStrategy
  forLeft : Filter
  forRight : Filter
deriving DecidableEq, Repr

/-- Decides for a join of the given inputs.  A nested loop hands what reads both inputs to the right
one, where the left row is an outer row. -/
def decide (j : Join) (left right : List Column) : Result Decision := do
  let pushed ← j.pushed.qualify (left ++ right)
  let combined := Filter.fold (Filter.union [j.condition, pushed])
  let parts ← JoinParts.ofConjuncts left right combined.conjuncts
  let strategy := JoinStrategy.choose j.choice (← keyPairs left right parts.straddling)
  let onRight :=
    match strategy with
    | .nestedLoop => parts.right ++ parts.straddling
    | _ => parts.right
  return ⟨strategy, Filter.ofList parts.left, Filter.ofList onRight⟩

/-- The order of the left keys, which a merge join keeps. -/
def leftKeys (pairs : List KeyPair) : SortOrder := .ascending (pairs.map KeyPair.left)

def rightKeys (pairs : List KeyPair) : SortOrder := .ascending (pairs.map KeyPair.right)

/-- A merge join sorts its inputs, and keeps the rows of the right one. -/
def arrangeLeft (strategy : JoinStrategy) (left : Plan) : Plan :=
  match strategy with
  | .merge pairs => left.sort (leftKeys pairs)
  | _ => left

def arrangeRight (strategy : JoinStrategy) (right : Plan) : Plan :=
  match strategy with
  | .merge pairs => right.sortBuffered (rightKeys pairs)
  | _ => right

/-- Every key of the order reads the columns alone. -/
def resolvesWithin (columns : List Column) (o : SortOrder) : Result Bool :=
  return (← o.keys.mapM (·.expr.resolvesWithin columns)).all id

/-- Places the wanted order: a merge join provides the order of its keys; the other joins keep the
order of the left input, which is handed an order that reads nothing else. -/
def descendOrder (j : Join) (left right : Plan) : PairDescent :=
  match j.wanted.mapM (SortOrder.qualify (left.columns ++ right.columns)) with
  | .error cause => .fail (.join j) left right cause
  | .ok none => ⟨.join { j with wanted := none }, left, right, pure ()⟩
  | .ok (some order) =>
    let j := { j with wanted := some order }
    match j.strategy with
    | some (.merge pairs) =>
      let pending := SortOrder.unmet (some order) (leftKeys pairs)
      ⟨.join { j with pending }, left, right, pure ()⟩
    | _ =>
      match resolvesWithin left.columns order with
      | .error cause => .fail (.join j) left right cause
      | .ok true =>
        let (left, r) := left.addOrder order
        ⟨.join j, left, right, .ofResult r⟩
      | .ok false => ⟨.join { j with pending := some order }, left, right, pure ()⟩

/-- The way down of a join whose condition is bound. -/
def descendBound (j : Join) (left right : Plan) : PairDescent :=
  match j.decide left.columns right.columns with
  | .error cause => .fail (.join j) left right cause
  | .ok d =>
    let j := { j with strategy := some d.strategy }
    let arranged := PairDescent.handFilters (.join j) (arrangeLeft d.strategy left)
      (arrangeRight d.strategy right) d.forLeft d.forRight
    let noted := { arranged with
      outcome := ⟨[.joinStrategy (Pairing.join j).name d.strategy.text], arranged.outcome.result⟩ }
    noted.andThen fun _ left right => j.descendOrder left right

def descend (j : Join) (left right : Plan) : PairDescent :=
  match j.condition.mapM (Expr.bindTo (left.columns ++ right.columns)) with
  | .error cause => .fail (.join j) left right cause
  | .ok condition => descendBound { j with condition } left right

theorem bounded_descendOrder {j : Join} {left right : Plan} {l r : Nat} (hl : left.weight ≤ l)
    (hr : right.weight ≤ r) : (j.descendOrder left right).Bounded l r := by
  unfold descendOrder
  split
  · exact ⟨hl, hr⟩
  · exact ⟨hl, hr⟩
  · next order _ =>
    dsimp only
    split
    · exact ⟨hl, hr⟩
    · split
      · exact ⟨hl, hr⟩
      · exact ⟨by simpa [Plan.weight_addOrder] using hl, hr⟩
      · exact ⟨hl, hr⟩

theorem weight_arrangeLeft (strategy : JoinStrategy) (p : Plan) :
    (arrangeLeft strategy p).weight ≤ p.weight + 1 := by
  cases strategy <;> simp [arrangeLeft, Plan.sort, Plan.weight]

theorem weight_arrangeRight (strategy : JoinStrategy) (p : Plan) :
    (arrangeRight strategy p).weight ≤ p.weight + 1 := by
  cases strategy <;> simp [arrangeRight, Plan.sortBuffered, Plan.weight]

theorem bounded_descendBound (j : Join) (left right : Plan) :
    (j.descendBound left right).Bounded (left.weight + 1) (right.weight + 1) := by
  unfold descendBound
  split
  · exact ⟨Nat.le_succ _, Nat.le_succ _⟩
  · next d _ =>
    refine PairDescent.bounded_andThen ?_ fun _ _ _ hl hr => bounded_descendOrder hl hr
    exact PairDescent.bounded_handFilters (weight_arrangeLeft d.strategy left)
      (weight_arrangeRight d.strategy right)

theorem bounded_descend (j : Join) (left right : Plan) :
    (j.descend left right).Bounded (left.weight + 1) (right.weight + 1) := by
  unfold descend
  split
  · exact ⟨Nat.le_succ _, Nat.le_succ _⟩
  · exact bounded_descendBound _ left right

end Join

namespace Union

/-- Fails unless the inputs have columns of compatible types, position by position. -/
def checkTypes (position : Nat) : List Column → List Column → Result Unit
  | l :: ls, r :: rs =>
    if l.dataType.compatible r.dataType then checkTypes (position + 1) ls rs
    else .error (.incompatibleColumns position l.dataType r.dataType)
  | _, _ => .ok ()

def checkInputs (left right : List Column) : Result Unit :=
  if left.length = right.length then checkTypes 0 left right
  else .error (.arityMismatch left.length right.length)

/-- Parts conjuncts into those that both inputs can take and those that one would misread.  The
columns of a union are those of its left input. -/
def partConjuncts (left right : List Column) : List Expr → Result (List Expr × List Expr)
  | [] => .ok ([], [])
  | e :: es => do
    let captured ← if ← e.capturesOuter left left then pure true else e.capturesOuter left right
    let (moving, staying) ← partConjuncts left right es
    pure (if captured then (moving, e :: staying) else (e :: moving, staying))

/-- What a union does with a filter. -/
structure Decision where
  forLeft : Filter
  forRight : Filter
  kept : Filter
deriving DecidableEq, Repr

def decide (u : Union) (left right : List Column) : Result Decision := do
  checkInputs left right
  let (moving, staying) ← partConjuncts left right (Filter.fold u.pushed).conjuncts
  let moving := Filter.ofList moving
  return ⟨← moving.rename left left, ← moving.rename left right, Filter.ofList staying⟩

def descend (u : Union) (left right : Plan) : PairDescent :=
  match u.decide left.columns right.columns with
  | .error cause => .fail (.union u) left right cause
  | .ok d => .handFilters (.union { u with kept := d.kept }) left right d.forLeft d.forRight

theorem bounded_descend (u : Union) (left right : Plan) :
    (u.descend left right).Bounded (left.weight + 1) (right.weight + 1) := by
  unfold descend
  split
  · exact ⟨Nat.le_succ _, Nat.le_succ _⟩
  · exact PairDescent.bounded_handFilters (Nat.le_succ _) (Nat.le_succ _)

end Union

/-- The way down of a pairing. -/
def Pairing.descend (p : Pairing) (left right : Plan) : PairDescent :=
  match p with
  | join j => j.descend left right
  | union u => u.descend left right

theorem Pairing.bounded_descend (p : Pairing) (left right : Plan) :
    (p.descend left right).Bounded (left.weight + 1) (right.weight + 1) := by
  cases p with
  | join j => exact j.bounded_descend left right
  | union u => exact u.bounded_descend left right

end RelPlan

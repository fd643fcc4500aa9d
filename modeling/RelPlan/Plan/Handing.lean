import RelPlan.Plan.Node

/-!
# Handing filters and orders to a plan

A node that is still building takes filters and orders from above.  Sorts pass filters on and
filters pass orders on; renamings put both under the names of their input and pass them on; a table
gives references their full names; the others put them aside until they are optimized.

A conjunct with an outer reference that the input would take for a column of its own stays where it
is.
-/

namespace RelPlan

namespace Source

/-- Puts a filter aside, for a table under full names. -/
def takeFilter (e : Expr) : Source → Result Source
  | table r => return table { r with pushed := r.pushed.push (← e.qualify r.table.columns) }
  | rows r => .ok (rows { r with pushed := r.pushed.push e })

/-- Puts an order aside, for a table under full names and without constant keys. -/
def takeOrder (o : SortOrder) : Source → Result Source
  | table r => return table { r with wanted := (← o.qualify r.table.columns).fold.request }
  | rows r => .ok (rows { r with wanted := o.request })

end Source

namespace Stage

/-- Puts a filter aside or says what of it to pass on.  What stays is put aside even if the rest
cannot be passed on. -/
def takeFilter (input : List Column) (e : Expr) (s : Stage) : Stage × Result Filter :=
  match s with
  | filter predicate pushed => (filter predicate (pushed.push e), .ok none)
  | sort _ _ _ => (s, .ok (some e))
  | project outputs pushed wanted kept => (project outputs (pushed.push e) wanted kept, .ok none)
  | cut c pushed wanted => (cut c (pushed.push e) wanted, .ok none)
  | rename name kept residual unmet =>
    match Filter.splitCaptured (s.columns input) input e with
    | .error cause => (s, .error cause)
    | .ok (moving, staying) =>
      (rename name ((staying.map kept.push).getD kept) residual unmet,
        moving.rename (s.columns input) input)

/-- Puts an order aside or says what to pass on. -/
def takeOrder (input : List Column) (o : SortOrder) (s : Stage) :
    Stage × Result (Option SortOrder) :=
  match s with
  | filter _ _ => (s, .ok (some o))
  | sort order buffered _ => (sort order buffered o.request, .ok none)
  | project outputs pushed _ kept => (project outputs pushed o.request kept, .ok none)
  | cut c pushed _ => (cut c pushed o.request, .ok none)
  | rename _ _ _ _ => (s, some <$> o.rename (s.columns input) input)

end Stage

namespace Pairing

def takeFilter (e : Expr) : Pairing → Pairing
  | join j => join { j with pushed := j.pushed.push e }
  | union u => union { u with pushed := u.pushed.push e }

def takeOrder (o : SortOrder) : Pairing → Pairing
  | join j => join { j with wanted := o.request }
  | union u => union { u with wanted := o.request }

end Pairing

namespace Plan

/-- The plan after a step of its source that may fail. -/
def ofSource (phase : Phase) (before : Source) : Result Source → Plan × Result Unit
  | .ok s => (source phase s, .ok ())
  | .error cause => (source phase before, .error cause)

/-- Hands a filter to a plan. -/
def addFilter (e : Expr) (p : Plan) : Plan × Result Unit :=
  match p.requireBuilding with
  | .error cause => (p, .error cause)
  | .ok () =>
    match p with
    | source phase s => ofSource phase s (s.takeFilter e)
    | stage phase s input =>
      match s.takeFilter input.columns e with
      | (s, .error cause) => (stage phase s input, .error cause)
      | (s, .ok none) => (stage phase s input, .ok ())
      | (s, .ok (some e)) =>
        let (input, r) := input.addFilter e
        (stage phase s input, r)
    | pair phase s left right => (pair phase (s.takeFilter e) left right, .ok ())

/-- Hands an order to a plan.  The last one counts. -/
def addOrder (o : SortOrder) (p : Plan) : Plan × Result Unit :=
  match p.requireBuilding with
  | .error cause => (p, .error cause)
  | .ok () =>
    match p with
    | source phase s => ofSource phase s (s.takeOrder o)
    | stage phase s input =>
      match s.takeOrder input.columns o with
      | (s, .error cause) => (stage phase s input, .error cause)
      | (s, .ok none) => (stage phase s input, .ok ())
      | (s, .ok (some o)) =>
        let (input, r) := input.addOrder o
        (stage phase s input, r)
    | pair phase s left right => (pair phase (s.takeOrder o) left right, .ok ())

/-- Hands on a filter, if there is one. -/
def addFilter? (f : Filter) (p : Plan) : Plan × Result Unit :=
  match f with
  | some e => p.addFilter e
  | none => (p, .ok ())

/-- Hands on an order, if there is one. -/
def addOrder? (o : Option SortOrder) (p : Plan) : Plan × Result Unit :=
  match o with
  | some o => p.addOrder o
  | none => (p, .ok ())

/-! ### Weight -/

/-- How deep and wide a plan is.  A pairing leaves room for a node on top of each input. -/
def weight : Plan → Nat
  | source _ _ => 0
  | stage _ _ input => input.weight + 1
  | pair _ _ left right => left.weight + right.weight + 2

theorem weight_ofSource (phase : Phase) (s : Source) (r : Result Source) :
    (ofSource phase s r).1.weight = 0 := by
  cases r <;> rfl

theorem weight_addFilter (e : Expr) (p : Plan) : (p.addFilter e).1.weight = p.weight := by
  fun_induction addFilter e p <;> simp_all [weight, weight_ofSource]

theorem weight_addOrder (o : SortOrder) (p : Plan) : (p.addOrder o).1.weight = p.weight := by
  fun_induction addOrder o p <;> simp_all [weight, weight_ofSource]

theorem weight_addFilter? (f : Filter) (p : Plan) : (p.addFilter? f).1.weight = p.weight := by
  cases f with
  | none => rfl
  | some e => exact weight_addFilter e p

theorem weight_addOrder? (o : Option SortOrder) (p : Plan) :
    (p.addOrder? o).1.weight = p.weight := by
  cases o with
  | none => rfl
  | some o => exact weight_addOrder o p

end Plan

end RelPlan

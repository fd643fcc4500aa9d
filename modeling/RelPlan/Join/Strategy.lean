import RelPlan.Filter

/-!
# Join strategies

The conjuncts of a join condition are parted by the inputs they read.  Hash and merge joins need
every conjunct that reads both inputs to equate an expression over the left one with an expression
over the right one.
-/

namespace RelPlan

/-- The way to join that is asked for. -/
inductive JoinChoice
  | auto
  | nestedLoop
  | hash
  | merge
deriving DecidableEq, Repr

/-- An expression over the left input and one over the right, to be equal. -/
structure KeyPair where
  left : Expr
  right : Expr
deriving DecidableEq, Repr

inductive JoinStrategy
  | nestedLoop
  | hash (pairs : List KeyPair)
  | merge (pairs : List KeyPair)
deriving DecidableEq, Repr

namespace JoinStrategy

def pairs : JoinStrategy → List KeyPair
  | nestedLoop => []
  | hash ps | merge ps => ps

private def pairsText (ps : List KeyPair) : String :=
  String.intercalate ", " (ps.map fun p => p.left.text ++ " = " ++ p.right.text)

def text : JoinStrategy → String
  | nestedLoop => "NestedLoop"
  | hash ps => "HashJoin(" ++ pairsText ps ++ ")"
  | merge ps => "MergeJoin(" ++ pairsText ps ++ ")"

/-- The strategy for the pairs that the condition yields, if it yields them. -/
def choose (choice : JoinChoice) (pairs : Option (List KeyPair)) : JoinStrategy :=
  match choice, pairs with
  | .auto, some ps | .hash, some ps => hash ps
  | .merge, some ps => merge ps
  | _, _ => nestedLoop

end JoinStrategy

/-- Conjuncts by the inputs that they read. -/
structure JoinParts where
  /-- Those that do not read the right input. -/
  left : List Expr
  /-- Those that read the right input alone. -/
  right : List Expr
  straddling : List Expr
deriving DecidableEq, Repr

namespace JoinParts

/-- Parts the conjuncts of a join of the given inputs. -/
def ofConjuncts (left right : List Column) : List Expr → Result JoinParts
  | [] => .ok ⟨[], [], []⟩
  | e :: es => do
    let onLeft ← e.readsAny left
    let onRight ← e.readsAny right
    let parts ← ofConjuncts left right es
    match onLeft, onRight with
    | _, false => pure { parts with left := e :: parts.left }
    | false, true => pure { parts with right := e :: parts.right }
    | true, true => pure { parts with straddling := e :: parts.straddling }

end JoinParts

/-- The expression reads the columns, and nothing else. -/
def readsOnly (columns : List Column) (e : Expr) : Result Bool := do
  if ← e.readsAny columns then e.resolvesWithin columns else pure false

/-- The pair is over the left and the right input, in this order. -/
def isKeyPair (left right : List Column) (p : KeyPair) : Result Bool := do
  if ← readsOnly left p.left then readsOnly right p.right else pure false

/-- The pair of expressions that a conjunct equates, turned so that the left one is over the left
input. -/
def keyPair? (left right : List Column) : Expr → Result (Option KeyPair)
  | .binary (.cmp .eq) a b => do
    if ← isKeyPair left right ⟨a, b⟩ then pure (some ⟨a, b⟩)
    else if ← isKeyPair left right ⟨b, a⟩ then pure (some ⟨b, a⟩)
    else pure none
  | _ => .ok none

/-- The pairs of all conjuncts, or none if a conjunct is not an equation between the inputs. -/
def allKeyPairs (left right : List Column) : List Expr → Result (Option (List KeyPair))
  | [] => .ok (some [])
  | e :: es => do
    match ← keyPair? left right e with
    | none => pure none
    | some p => return (← allKeyPairs left right es).map (p :: ·)

/-- The pairs of a join, which has to have one. -/
def keyPairs (left right : List Column) (straddling : List Expr) :
    Result (Option (List KeyPair)) :=
  if straddling.isEmpty then .ok none else allKeyPairs left right straddling

end RelPlan

import RelPlan.Access
import RelPlan.Join.Strategy

/-!
# Plan nodes

A plan is a tree of nodes.  While it is built, filters and orders are handed to its nodes from
above; once a node is closed it takes no more.  A settled node reports what of them it does not see
to itself: `residual` is the filter that is left to check, `unmet` the order that is left to sort
by.
-/

namespace RelPlan

/-- Where a node is in its life. -/
inductive Phase
  /-- Filters and orders may still come. -/
  | building
  /-- Optimization has begun, and may have failed. -/
  | closed
  /-- Optimization has succeeded. -/
  | settled
deriving DecidableEq, Repr

/-- A table to be read by the path that suits the filter and the order handed in. -/
structure TableRead where
  table : Table
  weights : AccessWeights
  pushed : Filter := none
  wanted : Option SortOrder := none
  path : Option AccessPath := none

/-- Rows written into the plan.  They are filtered here. -/
structure InlineRows where
  columns : List Column
  rows : List Row
  pushed : Filter := none
  wanted : Option SortOrder := none
deriving DecidableEq, Repr

/-- A node without input. -/
inductive Source
  | table (r : TableRead)
  | rows (r : InlineRows)

/-- An output column and the expression that computes it. -/
structure Output where
  column : Column
  expr : Expr
deriving DecidableEq, Repr

/-- Which rows of an input to keep by their number. -/
inductive Cut
  | limit (count : Nat)
  | offset (count : Nat)
deriving DecidableEq, Repr

/-- A node over one input. -/
inductive Stage
  | filter (predicate : Expr) (pushed : Filter)
  /-- With `buffered`, the rows are held in memory even if they come sorted. -/
  | sort (order : SortOrder) (buffered : Bool) (wanted : Option SortOrder)
  /-- `kept` is the part of `pushed` that the input would misread. -/
  | project (outputs : List Output) (pushed : Filter) (wanted : Option SortOrder) (kept : Filter)
  /-- Nothing may be filtered or sorted below a cut, so what is handed in stays here. -/
  | cut (c : Cut) (pushed : Filter) (wanted : Option SortOrder)
  /-- `kept` is what the input would misread; `residual` and `unmet` are what the input left, and
  `kept`, under the new name. -/
  | rename (name : String) (kept residual : Filter) (unmet : Option SortOrder)
deriving DecidableEq, Repr

/-- An inner join.  Without a condition it pairs every row with every row. -/
structure Join where
  condition : Filter
  choice : JoinChoice
  pushed : Filter := none
  wanted : Option SortOrder := none
  strategy : Option JoinStrategy := none
  /-- What of the wanted order was not handed to the left input. -/
  pending : Option SortOrder := none
deriving DecidableEq, Repr

/-- The rows of one input after those of another, repeated rows dropped if `distinct`. -/
structure Union where
  distinct : Bool
  pushed : Filter := none
  wanted : Option SortOrder := none
  /-- The conjuncts that an input would misread. -/
  kept : Filter := none
  /-- The conjuncts left to whoever handed them in. -/
  reported : Filter := none
  /-- The conjuncts checked on the rows of one input alone. -/
  leftLocal : Filter := none
  rightLocal : Filter := none
deriving DecidableEq, Repr

/-- A node over two inputs. -/
inductive Pairing
  | join (j : Join)
  | union (u : Union)
deriving DecidableEq, Repr

inductive Plan
  | source (phase : Phase) (s : Source)
  | stage (phase : Phase) (s : Stage) (input : Plan)
  | pair (phase : Phase) (p : Pairing) (left right : Plan)

/-! ### Columns and names -/

def Source.columns : Source → List Column
  | table r => r.table.columns
  | rows r => r.columns

/-- The columns of a stage over the given ones. -/
def Stage.columns (s : Stage) (input : List Column) : List Column :=
  match s with
  | project outputs _ _ _ => outputs.map Output.column
  | rename name _ _ _ => input.map (·.withRelation (some name))
  | _ => input

/-- The columns of a pairing of inputs with the given ones. -/
def Pairing.columns (p : Pairing) (left right : List Column) : List Column :=
  match p with
  | join _ => left ++ right
  | union _ => left

def Source.name : Source → String
  | table r => "Access(" ++ r.table.name ++ ")"
  | rows r => "Values(" ++ toString r.rows.length ++ " rows)"

def Cut.name : Cut → String
  | limit n => "Limit(" ++ toString n ++ ")"
  | offset n => "Offset(" ++ toString n ++ ")"

def Stage.name : Stage → String
  | filter predicate _ => "Filter(" ++ predicate.text ++ ")"
  | sort order _ _ => "Order(" ++ order.text ++ ")"
  | project outputs _ _ _ =>
    "Projection(" ++ String.intercalate ", " (outputs.map (·.column.text)) ++ ")"
  | cut c _ _ => c.name
  | rename name _ _ _ => "Alias(" ++ name ++ ")"

def Pairing.name : Pairing → String
  | join j =>
    match j.condition with
    | some c => "Join(" ++ c.text ++ ")"
    | none => "CrossJoin"
  | union u => if u.distinct then "Union" else "UnionAll"

namespace Plan

def phase : Plan → Phase
  | source phase _ | stage phase _ _ | pair phase _ _ _ => phase

def columns : Plan → List Column
  | source _ s => s.columns
  | stage _ s input => s.columns input.columns
  | pair _ p left right => p.columns left.columns right.columns

def name : Plan → String
  | source _ s => s.name
  | stage _ s _ => s.name
  | pair _ p _ _ => p.name

/-- Fails once the node takes no more filters and orders. -/
def requireBuilding (p : Plan) : Result Unit :=
  if p.phase = .building then .ok () else .error (.alreadyOptimized p.name)

/-- Fails before the node is closed. -/
def requireClosed (p : Plan) : Result Unit :=
  if p.phase = .building then .error (.notOptimized p.name) else .ok ()

/-! ### What is left over -/

/-- The filter handed in that the rows need not satisfy. -/
def residual : Plan → Filter
  | source _ (.table r) =>
    match r.path with
    | some path => r.pushed.diff path.enforced
    | none => none
  | source _ (.rows _) => none
  | stage _ s input =>
    match s with
    | .filter _ _ => none
    | .sort _ _ _ => input.residual
    | .project _ _ _ kept => kept
    | .cut _ pushed _ => pushed
    | .rename _ _ residual _ => residual
  | pair _ (.join _) _ _ => none
  | pair _ (.union u) _ _ => u.reported

/-- The order handed in that the rows need not be in. -/
def unmet : Plan → Option SortOrder
  | source _ (.table r) =>
    match r.path with
    | some path => SortOrder.unmet r.wanted path.ordering
    | none => none
  | source _ (.rows r) => r.wanted
  | stage phase s input =>
    match s with
    | .filter _ _ => input.unmet
    | .sort order _ wanted => SortOrder.unmet wanted order
    | .project _ _ wanted _ => if phase = .settled && input.unmet.isSome then wanted else none
    | .cut _ _ wanted => wanted
    | .rename _ _ _ unmet => unmet
  | pair phase (.join j) left _ =>
    if phase = .settled then
      match j.pending with
      | some order => some order
      | none => if left.unmet.isSome then j.wanted else none
    else none
  | pair _ (.union u) _ _ => u.wanted

/-- What a node checks itself on the rows of an input. -/
def checked (phase : Phase) (input : Plan) : Filter :=
  if phase = .settled then input.residual else none

/-- Whether a sorting node has to sort. -/
def needsSort (phase : Phase) (order : SortOrder) (input : Plan) : Bool :=
  phase = .settled && !order.isEmpty && input.unmet.isSome

/-- Whether the rows can be read again without opening the plan anew. -/
def keepsRows : Plan → Bool
  | source _ (.table _) => false
  | source _ (.rows _) => true
  | stage phase s input =>
    match s with
    | .filter _ _ | .project _ _ _ _ | .rename _ _ _ _ => input.keepsRows
    | .sort order buffered _ => needsSort phase order input || buffered || input.keepsRows
    | .cut _ _ _ => false
  | pair _ _ _ _ => false

/-! ### Construction -/

/-- The rows of a table. -/
def read (table : Table) (weights : AccessWeights) : Plan :=
  source .building (.table { table, weights })

/-- Rows of the given columns. -/
def values (columns : List Column) (rows : List (List Value)) : Result Plan :=
  return source .building (.rows { columns, rows := ← rows.mapM (Row.make columns) })

/-- No rows of the given columns. -/
def empty (columns : List Column) : Plan := source .building (.rows { columns, rows := [] })

def filter (predicate : Expr) (input : Plan) : Plan :=
  stage .building (.filter predicate none) input

def sort (order : SortOrder) (input : Plan) : Plan := stage .building (.sort order false none) input

/-- A sort whose rows can always be read again. -/
def sortBuffered (order : SortOrder) (input : Plan) : Plan :=
  stage .building (.sort order true none) input

/-- The column that an expression computes.  A plain reference keeps the relation of its column. -/
def outputColumn (input : List Column) (name : String) (e : Expr) : Column :=
  let relation :=
    match e with
    | .ref r =>
      match resolve input r with
      | .ok (some i) => (input[i]?).bind Column.relation
      | _ => none
    | _ => none
  ⟨relation, name, e.typeIn input, false⟩

def project (outputs : List (String × Expr)) (input : Plan) : Plan :=
  stage .building
    (.project (outputs.map fun (name, e) => ⟨outputColumn input.columns name e, e⟩) none none none)
    input

def limit (count : Nat) (input : Plan) : Plan :=
  stage .building (.cut (.limit count) none none) input

def offset (count : Nat) (input : Plan) : Plan :=
  stage .building (.cut (.offset count) none none) input

/-- The same rows, with all columns under the relation `name`. -/
def rename (name : String) (input : Plan) : Plan :=
  stage .building (.rename name none none none) input

def join (condition : Option Expr) (choice : JoinChoice) (left right : Plan) : Plan :=
  pair .building (.join { condition, choice }) left right

def union (distinct : Bool) (left right : Plan) : Plan :=
  pair .building (.union { distinct }) left right

end Plan

end RelPlan

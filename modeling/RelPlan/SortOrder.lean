import RelPlan.Filter

/-!
# Sort orders

A sort order is a list of keys, each ascending or descending.  Rows sorted by an order are sorted by
every prefix of it, so an order subsumes its prefixes.
-/

namespace RelPlan

structure SortKey where
  expr : Expr
  descending : Bool
deriving DecidableEq, Repr

namespace SortKey

/-- The same direction over equivalent expressions. -/
def equiv (a b : SortKey) : Bool := a.descending = b.descending && a.expr.equiv b.expr

def text (k : SortKey) : String := k.expr.text ++ (if k.descending then " DESC" else " ASC")

/-- The order of two values of the key. -/
def order (k : SortKey) (a b : Value) : Ordering :=
  if k.descending then (a.order b).swap else a.order b

end SortKey

/-- Sort keys, the first one deciding first. -/
structure SortOrder where
  keys : List SortKey
deriving DecidableEq, Repr

namespace SortOrder

def empty : SortOrder := ⟨[]⟩

/-- Ascending by each expression. -/
def ascending (es : List Expr) : SortOrder := ⟨es.map (⟨·, false⟩)⟩

def isEmpty (o : SortOrder) : Bool := o.keys.isEmpty

def length (o : SortOrder) : Nat := o.keys.length

def text (o : SortOrder) : String := String.intercalate ", " (o.keys.map SortKey.text)

/-- Whether the second list starts with the first, up to equivalence. -/
def isPrefix : List SortKey → List SortKey → Bool
  | [], _ => true
  | _ :: _, [] => false
  | a :: as, b :: bs => a.equiv b && isPrefix as bs

/-- Rows in the order `o` are in the order `p`, because `p` is a prefix of `o`. -/
def subsumes (o p : SortOrder) : Bool := isPrefix p.keys o.keys

def equiv (o p : SortOrder) : Bool := o.length = p.length && o.subsumes p

/-- Every direction turned around. -/
def reversed (o : SortOrder) : SortOrder :=
  ⟨o.keys.map fun k => { k with descending := !k.descending }⟩

/-- Applies a function to the expression of each key. -/
def map (f : Expr → Expr) (o : SortOrder) : SortOrder :=
  ⟨o.keys.map fun k => { k with expr := f k.expr }⟩

/-- `map` with a function that may fail. -/
def mapM {ε : Type} (f : Expr → Except ε Expr) (o : SortOrder) : Except ε SortOrder :=
  return ⟨← o.keys.mapM fun k => return { k with expr := ← f k.expr }⟩

def rename (source target : List Column) (o : SortOrder) : Result SortOrder :=
  o.mapM (Expr.rename source target)

def qualify (columns : List Column) (o : SortOrder) : Result SortOrder :=
  o.mapM (Expr.qualify columns)

/-- Folds each key and drops the constant ones, which never decide. -/
def fold (o : SortOrder) : SortOrder := ⟨(o.map Expr.fold).keys.filter (!·.expr.isConst)⟩

/-- The references in the keys, each where it first occurs. -/
def freeRefs (o : SortOrder) : List ColumnRef := (o.keys.flatMap (·.expr.refs)).eraseDups

/-- The values by which a row is sorted. -/
def keyOf (scope : Scope) (row : Row) (o : SortOrder) : Result (List Value) :=
  Expr.evalAll scope row (o.keys.map SortKey.expr)

/-- The order of two lists of sort values. -/
def compareBy : List SortKey → List Value → List Value → Ordering
  | k :: ks, a :: as, b :: bs => (k.order a b).then (compareBy ks as bs)
  | _, _, _ => .eq

def compare (o : SortOrder) (a b : List Value) : Ordering := compareBy o.keys a b

/-- Fails unless every reference means exactly one of the columns. -/
def validate (columns : List Column) (o : SortOrder) : Result Unit :=
  requireAll columns (o.keys.flatMap (·.expr.refs))

/-- The last requested order counts; requesting the empty order withdraws the request. -/
def request (o : SortOrder) : Option SortOrder := if o.isEmpty then none else some o

/-- What of a requested order is not guaranteed yet: all of it or nothing. -/
def unmet (requested : Option SortOrder) (guaranteed : SortOrder) : Option SortOrder :=
  requested.filter fun o => !o.isEmpty && !guaranteed.subsumes o

end SortOrder

end RelPlan

import RelPlan.Json
import RelPlan.SortOrder

/-!
# JSON forms

How values, columns, references, expressions and sort orders are written as JSON, and read back.  A
binary64 datum has no such form.
-/

namespace RelPlan

/-- The name under which a value of a finite type is written. -/
def nameIn {α : Type} [DecidableEq α] (names : List (String × α)) (a : α) : String :=
  ((names.find? fun n => n.2 = a).map (·.1)).getD ""

namespace DataType

def jsonNames : List (String × DataType) :=
  [any, bool, int, float, text].map fun type => (type.name, type)

def ofJson : Json.Reader DataType := Json.readName jsonNames

def json (type : DataType) : String := Json.quote type.name

end DataType

namespace Value

def ofJson : Json.Reader Value
  | depth + 1, .object ms => do
    let (name, v) ← Json.tagged (.object ms)
    match name with
    | "Null" => Json.readName [("Null", null)] (depth + 1) (.object ms)
    | "Bool" => bool <$> Json.readBool depth v
    | "Int" =>
      (int ∘ Int64.ofInt) <$> Json.readInt Int64.minValue.toInt Int64.maxValue.toInt depth v
    | "Text" => text <$> Json.readString depth v
    | _ => none
  | depth, j => Json.readName [("Null", null)] depth j

def json? : Value → Option String
  | null => some (Json.quote "Null")
  | bool b => some (Json.writeObject [("Bool", Json.writeBool b)])
  | int n => some (Json.writeObject [("Int", toString n.toInt)])
  | float _ => none
  | text s => some (Json.writeObject [("Text", Json.quote s)])

end Value

namespace ColumnRef

def ofJson : Json.Reader ColumnRef
  | 0, _ => none
  | depth + 1, j => do
    let ms ← j.members ["relation", "name"] false
    let relation ← Json.readOptional Json.readString depth ((ms.lookup "relation").getD .null)
    return ⟨relation, ← Json.readString depth (← ms.lookup "name")⟩

/-- A relation that may be missing. -/
def jsonRelation (relation : Option String) : String := (relation.map Json.quote).getD "null"

def json (r : ColumnRef) : String :=
  Json.writeObject [("relation", jsonRelation r.relation), ("name", Json.quote r.name)]

end ColumnRef

namespace Column

def ofJson : Json.Reader Column
  | 0, _ => none
  | depth + 1, j => do
    let ms ← j.members ["relation", "name", "data_type", "internal"] false
    let relation ← Json.readOptional Json.readString depth ((ms.lookup "relation").getD .null)
    let name ← Json.readString depth (← ms.lookup "name")
    let dataType ← DataType.ofJson depth (← ms.lookup "data_type")
    return ⟨relation, name, dataType, ← Json.readBool depth (← ms.lookup "internal")⟩

def json (c : Column) : String :=
  Json.writeObject [("relation", ColumnRef.jsonRelation c.relation), ("name", Json.quote c.name),
    ("data_type", c.dataType.json), ("internal", Json.writeBool c.internal)]

end Column

def UnaryOp.jsonNames : List (String × UnaryOp) :=
  [("Not", not), ("Negate", negate), ("IsNull", isNull), ("IsNotNull", isNotNull)]

def BinaryOp.jsonNames : List (String × BinaryOp) :=
  [("And", and), ("Or", or), ("Eq", cmp .eq), ("NotEq", cmp .ne), ("Lt", cmp .lt),
    ("LtEq", cmp .le), ("Gt", cmp .gt), ("GtEq", cmp .ge), ("Plus", arith .add),
    ("Minus", arith .sub), ("Multiply", arith .mul), ("Divide", arith .div),
    ("IsDistinctFrom", distinct)]

namespace Expr

def ofJson : Json.Reader Expr
  | 0, _ => none
  | depth + 1, j => do
    let (name, v) ← j.tagged
    match name, depth with
    | "Constant", depth => const <$> Value.ofJson depth v
    | "Field", depth => ref <$> ColumnRef.ofJson depth v
    | "Unary", depth + 1 => do
      let ms ← v.members ["op", "operand"] false
      let op ← Json.readName UnaryOp.jsonNames depth (← ms.lookup "op")
      return unary op (← ofJson depth (← ms.lookup "operand"))
    | "Binary", depth + 1 => do
      let ms ← v.members ["op", "left", "right"] false
      let op ← Json.readName BinaryOp.jsonNames depth (← ms.lookup "op")
      let l ← ofJson depth (← ms.lookup "left")
      return binary op l (← ofJson depth (← ms.lookup "right"))
    | _, _ => none

def json? : Expr → Option String
  | const v => return Json.writeObject [("Constant", ← v.json?)]
  | ref r => some (Json.writeObject [("Field", r.json)])
  | unary op e => do
    let op := Json.quote (nameIn UnaryOp.jsonNames op)
    return Json.writeObject [("Unary", Json.writeObject [("op", op), ("operand", ← e.json?)])]
  | binary op l r => do
    let op := Json.quote (nameIn BinaryOp.jsonNames op)
    return Json.writeObject [("Binary",
      Json.writeObject [("op", op), ("left", ← l.json?), ("right", ← r.json?)])]

end Expr

namespace SortKey

def ofJson : Json.Reader SortKey
  | 0, _ => none
  | depth + 1, j => do
    let ms ← j.members ["expression", "reverse"] false
    return ⟨← Expr.ofJson depth (← ms.lookup "expression"),
      ← Json.readBool depth (← ms.lookup "reverse")⟩

def json? (k : SortKey) : Option String :=
  return Json.writeObject [("expression", ← k.expr.json?), ("reverse", Json.writeBool k.descending)]

end SortKey

namespace SortOrder

def ofJson : Json.Reader SortOrder
  | depth + 2, j => do
    let ms ← j.members ["terms"] false
    match ← ms.lookup "terms" with
    | .array ks => return ⟨← ks.mapM (SortKey.ofJson depth)⟩
    | _ => none
  | _, _ => none

def json? (o : SortOrder) : Option String :=
  return Json.writeObject [("terms", Json.writeArray (← o.keys.mapM SortKey.json?))]

end SortOrder

end RelPlan

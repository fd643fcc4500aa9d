import RelPlan.Binary64.Text

/-!
# Values

The scalars stored in rows, their types, and the order by which they are sorted and used as keys.
The order puts `NULL` first, then booleans, numbers and text, and compares an integer with a datum
that stands for one as integers.  Two values are the same key when the order calls them equal
(`Value.same`), which is coarser than equality: the integer `1` and the datum `1.0` are one key.
-/

namespace RelPlan

/-- The type of a column.  `any` says nothing about its values. -/
inductive DataType
  | any
  | bool
  | int
  | float
  | text
deriving DecidableEq, Repr

namespace DataType

/-- The written name of a type. -/
def name : DataType → String
  | any => "any"
  | bool => "bool"
  | int => "int"
  | float => "float"
  | text => "text"

def isNumeric : DataType → Bool
  | int | float => true
  | _ => false

/-- Whether values of both types may share a column. -/
def compatible (a b : DataType) : Bool :=
  a = b || a = any || b = any || (a.isNumeric && b.isNumeric)

end DataType

/-- A scalar.  `null` is the absent value. -/
inductive Value
  | null
  | bool (b : Bool)
  | int (n : Int64)
  | float (x : Binary64)
  | text (s : String)
deriving DecidableEq, Repr

/-- What a value contributes to a hash: its kind and one datum.  A datum that stands for an integer
contributes that integer, any other one its bits. -/
inductive BucketKey
  | null
  | bool (b : Bool)
  | number (word : UInt64)
  | text (s : String)
deriving DecidableEq, Repr

namespace Value

def dataType : Value → DataType
  | null => .any
  | bool _ => .bool
  | int _ => .int
  | float _ => .float
  | text _ => .text

def isNull : Value → Bool
  | null => true
  | _ => false

/-- The place of a value's kind in the order. -/
def rank : Value → Nat
  | null => 0
  | bool _ => 1
  | int _ | float _ => 2
  | text _ => 3

/-- An integer against a datum: exactly when the datum stands for an integer, else after rounding
the integer to a datum. -/
def orderIntFloat (n : Int64) (x : Binary64) : Ordering :=
  match x.toInt64? with
  | some m => compare n.toInt m.toInt
  | none => (Binary64.ofInt n.toInt).order x

/-- The order of keys and of sorting. -/
def order : Value → Value → Ordering
  | bool a, bool b => compare a b
  | int a, int b => compare a.toInt b.toInt
  | float a, float b => a.order b
  | int a, float b => orderIntFloat a b
  | float a, int b => (orderIntFloat b a).swap
  | text a, text b => compare a b
  | a, b => compare a.rank b.rank

/-- Whether two values are the same key. -/
def same (a b : Value) : Bool := a.order b = .eq

/-- What the value contributes to a hash. -/
def bucketKey : Value → BucketKey
  | null => .null
  | bool b => .bool b
  | int n => .number n.toUInt64
  | float x =>
    match x.toInt64? with
    | some n => .number n.toUInt64
    | none => .number x.bits
  | text s => .text s

/-- The written form of a value: text stands between apostrophes, unescaped. -/
def display : Value → String
  | null => "NULL"
  | bool b => if b then "true" else "false"
  | int n => toString n.toInt
  | float x => x.text
  | text s => "'" ++ s ++ "'"

end Value

/-- Keys and sort keys compare component by component; a key that ends first is equal so far. -/
def orderKeys : List Value → List Value → Ordering
  | a :: as, b :: bs => (a.order b).then (orderKeys as bs)
  | _, _ => .eq

/-- Whether two lists of values hash alike and are the same key component by component. -/
def sameKeys : List Value → List Value → Bool
  | [], [] => true
  | a :: as, b :: bs => a.bucketKey = b.bucketKey && a.same b && sameKeys as bs
  | _, _ => false

end RelPlan

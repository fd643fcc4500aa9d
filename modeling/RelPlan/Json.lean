import RelPlan.Json.Token

/-!
# JSON

A JSON value as it is written: members keep their order and may repeat, numbers and strings are not
interpreted.  Reading a value of a type out of it is a matter of records and variants: a record is
an object, or an array of its members in order, and a variant is its name, or an object whose one
member has that name.
-/

namespace RelPlan

inductive Json
  | null
  | bool (b : Bool)
  | number (text : List Char)
  | string (s : List StringUnit)
  | array (elements : List Json)
  | object (members : List (List StringUnit × Json))

namespace Json

/-! ### Parsing -/

/-- A container that is not closed yet, its parts in reverse. -/
inductive Frame
  | array (elements : List Json)
  | object (members : List (List StringUnit × Json))
  /-- An object that waits for the value of a key. -/
  | member (members : List (List StringUnit × Json)) (key : List StringUnit)

/-- What has to come next. -/
inductive Expected
  | value
  /-- The first element of an array or its end. -/
  | elementOrEnd
  | key
  /-- The first key of an object or its end. -/
  | keyOrEnd
  | colon (key : List StringUnit)
  /-- What may follow a value. -/
  | afterValue (v : Json)

structure ParseState where
  expected : Expected
  frames : List Frame

namespace ParseState

/-- Reads the first token of a value. -/
def beginValue (frames : List Frame) : Token → Option ParseState
  | .null => some ⟨.afterValue .null, frames⟩
  | .bool b => some ⟨.afterValue (.bool b), frames⟩
  | .number text => some ⟨.afterValue (.number text), frames⟩
  | .string s => some ⟨.afterValue (.string s), frames⟩
  | .openArray => some ⟨.elementOrEnd, .array [] :: frames⟩
  | .openObject => some ⟨.keyOrEnd, .object [] :: frames⟩
  | _ => none

/-- Reads the token behind a value. -/
def endValue (v : Json) : List Frame → Token → Option ParseState
  | .array vs :: frames, .comma => some ⟨.value, .array (v :: vs) :: frames⟩
  | .array vs :: frames, .closeArray => some ⟨.afterValue (.array (v :: vs).reverse), frames⟩
  | .member ms k :: frames, .comma => some ⟨.key, .object ((k, v) :: ms) :: frames⟩
  | .member ms k :: frames, .closeObject =>
    some ⟨.afterValue (.object ((k, v) :: ms).reverse), frames⟩
  | _, _ => none

def step (s : ParseState) (t : Token) : Option ParseState :=
  match s.expected, t, s.frames with
  | .value, t, frames => beginValue frames t
  | .elementOrEnd, .closeArray, .array _ :: frames => some ⟨.afterValue (.array []), frames⟩
  | .elementOrEnd, t, frames => beginValue frames t
  | .keyOrEnd, .closeObject, .object _ :: frames => some ⟨.afterValue (.object []), frames⟩
  | .key, .string k, frames | .keyOrEnd, .string k, frames => some ⟨.colon k, frames⟩
  | .colon k, .colon, .object ms :: frames => some ⟨.value, .member ms k :: frames⟩
  | .afterValue v, t, frames => endValue v frames t
  | _, _, _ => none

/-- The value, if it is complete. -/
def finish (s : ParseState) : Option Json :=
  match s.expected, s.frames with
  | .afterValue v, [] => some v
  | _, _ => none

end ParseState

/-- The one value of a text. -/
def parse (text : String) : Option Json := do
  let ts ← tokens text.toList
  (← ts.foldlM ParseState.step ⟨.value, []⟩).finish

/-! ### Reading -/

/-- Reads a value of a type.  The number says how many containers may be entered one inside the
other. -/
abbrev Reader (α : Type) := Nat → Json → Option α

/-- How deep a text may be nested where it is read. -/
def depthLimit : Nat := 127

/-- A value of a type out of a text. -/
def readText {α : Type} (reader : Reader α) (text : String) : Option α := do
  reader depthLimit (← parse text)

def readString : Reader String
  | _, string s => String.ofList <$> StringUnit.decode s
  | _, _ => none

def readBool : Reader Bool
  | _, bool b => some b
  | _, _ => none

/-- A value or `null`. -/
def readOptional {α : Type} (reader : Reader α) : Reader (Option α)
  | _, null => some none
  | depth, j => some <$> reader depth j

/-- The number that digits stand for. -/
def natOfDigits (cs : List Char) : Nat := cs.foldl (fun n c => n * 10 + (c.toNat - '0'.toNat)) 0

/-- The integer that a number is written as.  A point, an exponent or the sign of a zero make it no
integer. -/
def integer? : Json → Option Int
  | number ('-' :: cs) =>
    if digits cs && natOfDigits cs ≠ 0 then some (-(natOfDigits cs : Int)) else none
  | number cs => if digits cs then some (natOfDigits cs) else none
  | _ => none

/-- An integer between bounds. -/
def readInt (low high : Int) : Reader Int := fun _ j => do
  let n ← j.integer?
  if low ≤ n ∧ n ≤ high then some n else none

/-- The members of a record by name.  An object may hold others, but none of these twice; an array
holds them in order, all of them unless it may be `short`. -/
def members (names : List String) (short : Bool) : Json → Option (List (String × Json))
  | object ms => do
    let ms ← ms.mapM fun (k, v) => return (String.ofList (← StringUnit.decode k), v)
    let known := ms.filter fun m => names.contains m.1
    if known.length = (known.map (·.1)).eraseDups.length then some known else none
  | array vs =>
    if vs.length = names.length || (short && vs.length < names.length) then some (names.zip vs)
    else none
  | _ => none

/-- The name of a variant and what is written under it. -/
def tagged : Json → Option (String × Json)
  | object [(k, v)] => return (String.ofList (← StringUnit.decode k), v)
  | _ => none

/-- A variant that holds nothing: its name, or an object with the name and `null`. -/
def readName {α : Type} (names : List (String × α)) : Reader α
  | _, string s => do names.lookup (String.ofList (← StringUnit.decode s))
  | _ + 1, object [(k, null)] => do names.lookup (String.ofList (← StringUnit.decode k))
  | _, _ => none

/-! ### Writing -/

def hexDigit (n : Nat) : Char := if n < 10 then Char.ofNat (48 + n) else Char.ofNat (87 + n)

/-- How a character is written in a string. -/
def escape (c : Char) : List Char :=
  if c = '"' then ['\\', '"']
  else if c = '\\' then ['\\', '\\']
  else if c = '\n' then ['\\', 'n']
  else if c = '\r' then ['\\', 'r']
  else if c = '\t' then ['\\', 't']
  else if c = '\x08' then ['\\', 'b']
  else if c = '\x0c' then ['\\', 'f']
  else if c.toNat < 0x20 then
    ['\\', 'u', '0', '0', hexDigit (c.toNat / 16), hexDigit (c.toNat % 16)]
  else [c]

/-- A string between quotes. -/
def quote (s : String) : String := "\"" ++ String.ofList (s.toList.flatMap escape) ++ "\""

/-- An object of members whose values are written already. -/
def writeObject (ms : List (String × String)) : String :=
  "\x7b" ++ String.intercalate "," (ms.map fun (k, v) => quote k ++ ":" ++ v) ++ "\x7d"

def writeArray (vs : List String) : String := "[" ++ String.intercalate "," vs ++ "]"

def writeBool (b : Bool) : String := if b then "true" else "false"

end Json

end RelPlan

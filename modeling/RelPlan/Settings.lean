import RelPlan.Access
import RelPlan.Join.Strategy
import RelPlan.Json

/-!
# Settings

How plans are made: the weights by which access paths are scored, and the way to join.  Settings are
written as JSON; what is not written keeps its default.
-/

namespace RelPlan

structure Settings where
  access : AccessWeights := {}
  join : JoinChoice := .auto
deriving DecidableEq, Repr

/-- A member of a record, or its default. -/
def Json.readMember {α : Type} (reader : Reader α) (ms : List (String × Json)) (name : String)
    (default : α) (depth : Nat) : Option α :=
  match ms.lookup name with
  | some j => reader depth j
  | none => some default

def AccessWeights.readWeight : Json.Reader UInt32 := fun depth j =>
  UInt32.ofInt <$> Json.readInt 0 0xffffffff depth j

def AccessWeights.ofJson : Json.Reader AccessWeights
  | 0, _ => none
  | depth + 1, j => do
    let ms ← j.members ["order_bonus", "filter_weight"] true
    let d : AccessWeights := {}
    return ⟨← Json.readMember readWeight ms "order_bonus" d.orderBonus depth,
      ← Json.readMember readWeight ms "filter_weight" d.filterWeight depth⟩

def JoinChoice.jsonNames : List (String × JoinChoice) :=
  [("auto", auto), ("nested_loop", nestedLoop), ("hash", hash), ("merge", merge)]

/-- The way to join, in a record of its own. -/
def JoinChoice.ofJson : Json.Reader JoinChoice
  | 0, _ => none
  | depth + 1, j => do
    let ms ← j.members ["strategy"] true
    Json.readMember (Json.readName jsonNames) ms "strategy" .auto depth

namespace Settings

def ofJson : Json.Reader Settings
  | 0, _ => none
  | depth + 1, j => do
    let ms ← j.members ["access", "join"] true
    let d : Settings := {}
    return ⟨← Json.readMember AccessWeights.ofJson ms "access" d.access depth,
      ← Json.readMember JoinChoice.ofJson ms "join" d.join depth⟩

/-- The settings that a text describes. -/
def ofText (text : String) : Result Settings :=
  match Json.readText ofJson text with
  | some s => .ok s
  | none => .error .badSettings

end Settings

end RelPlan

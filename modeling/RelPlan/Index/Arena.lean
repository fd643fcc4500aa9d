import RelPlan.Index.Tree
import RelPlan.Looping

/-!
# Linked trees

A search tree as it is stored: nodes in numbered slots, which name the slots of the nodes on either
side, and a list of the slots that are free.  Nothing keeps a link from leading back, or to a slot
that does not exist.  A loop that follows links (`Arena.loop`) is therefore a partial function,
which has a result only if it ends and finds a node in every slot that it looks at.
-/

namespace RelPlan

namespace Arena

inductive Side
  | left
  | right
deriving DecidableEq, Repr

structure Node where
  entry : Entry
  left : Option Nat := none
  right : Option Nat := none
deriving DecidableEq, Repr

namespace Node

def child (n : Node) : Side → Option Nat
  | .left => n.left
  | .right => n.right

def setChild (side : Side) (child : Option Nat) (n : Node) : Node :=
  match side with
  | .left => { n with left := child }
  | .right => { n with right := child }

end Node

/-- Where a link is kept. -/
inductive Place
  | root
  | node (slot : Nat) (side : Side)
deriving DecidableEq, Repr

end Arena

structure Arena where
  nodes : List Arena.Node := []
  /-- The slots to use next, before new ones. -/
  free : List Nat := []
  root : Option Nat := none
  size : Nat := 0
deriving DecidableEq, Repr

namespace Arena

/-! ### Following links -/

/-- Takes turns until one gives a result. -/
def loop {σ ρ : Type} (turn : σ → Option (ρ ⊕ σ)) : σ →. ρ :=
  PFun.fix fun s => .ofOption (turn s)

def descendTurn (a : Arena) (key : List Value) (guarded : Bool) :
    Place × Option Nat → Option (Option Place ⊕ Place × Option Nat)
  | (place, none) => some (.inl (some place))
  | (_, some slot) => do
    let node ← a.nodes[slot]?
    match orderKeys key node.entry.key with
    | .gt => return .inr (.node slot .right, node.right)
    | .lt => return .inr (.node slot .left, node.left)
    | .eq => return if guarded then .inl none else .inr (.node slot .left, node.left)

/-- The place for a new entry of the key.  There is none if the key is guarded and met. -/
def descend (a : Arena) (key : List Value) (guarded : Bool) (place : Place) (current : Option Nat) :
    Part (Option Place) :=
  loop (a.descendTurn key guarded) (place, current)

/-- The slot on one side of a node, and where the link to it is kept. -/
def Node.below (slot : Nat) (n : Node) (side : Side) : List (Nat × Place) :=
  ((n.child side).map fun c => (c, .node slot side)).toList

def findTurn (a : Arena) (key : List Value) (tid : Nat) :
    List (Nat × Place) → Option (Option (Nat × Place) ⊕ List (Nat × Place))
  | [] => some (.inl none)
  | (slot, place) :: stack => do
    let node ← a.nodes[slot]?
    match orderKeys key node.entry.key with
    | .lt => return .inr (node.below slot .left ++ stack)
    | .gt => return .inr (node.below slot .right ++ stack)
    | .eq =>
      if node.entry.tid = tid then return .inl (some (slot, place))
      else return .inr (node.below slot .left ++ (node.below slot .right ++ stack))

/-- Looks for an entry from the slots on the stack. -/
def find (a : Arena) (key : List Value) (tid : Nat) (stack : List (Nat × Place)) :
    Part (Option (Nat × Place)) :=
  loop (a.findTurn key tid) stack

def leftmostTurn (a : Arena) : Nat × Place → Option ((Nat × Place) ⊕ (Nat × Place))
  | (slot, place) => do
    let node ← a.nodes[slot]?
    match node.left with
    | none => return .inl (slot, place)
    | some next => return .inr (next, .node slot .left)

/-- The leftmost node from a slot on, and where the link to it is kept. -/
def leftmost (a : Arena) (slot : Nat) (place : Place) : Part (Nat × Place) :=
  loop a.leftmostTurn (slot, place)

/-- Takes a slot or an entry off the stack, and puts what is around the entry of a slot on it. -/
def walkTurn (a : Arena) :
    List (Nat ⊕ Entry) × List Entry → Option (List Entry ⊕ List (Nat ⊕ Entry) × List Entry)
  | ([], es) => some (.inl es)
  | (.inr e :: stack, es) => some (.inr (stack, es ++ [e]))
  | (.inl slot :: stack, es) => do
    let node ← a.nodes[slot]?
    return .inr (node.left.toList.map .inl ++ .inr node.entry ::
      (node.right.toList.map .inl ++ stack), es)

def walk (a : Arena) : Part (List Entry) :=
  loop a.walkTurn (a.root.toList.map .inl, [])

def follow (a : Arena) : List Side → Option Nat → Option Nat
  | [], current => current
  | side :: path, current => do
    let node ← a.nodes[← current]?
    a.follow path (node.child side)

/-! ### Range scans -/

def Side.opposite : Side → Side
  | left => right
  | right => left

/-- Whether a range may hold keys on one side of the given one. -/
def Side.reaches (limits : List Limits) (key : List Value) : Side → Bool
  | left => Limits.reachBelow limits key
  | right => Limits.reachAbove limits key

/-- The slot on one side of a node, if the range may go on there. -/
def Node.onward (limits : List Limits) (side : Side) (n : Node) : Option Nat :=
  if side.reaches limits n.entry.key then n.child side else none

def spineTurn (a : Arena) (limits : List Limits) (side : Side) :
    Option Nat × List Nat → Option (List Nat ⊕ Option Nat × List Nat)
  | (none, stack) => some (.inl stack)
  | (some slot, stack) => do
    let node ← a.nodes[slot]?
    return .inr (node.onward limits side, slot :: stack)

/-- Puts the slots on the stack that lead to the entry of the range that is outermost on the
side. -/
def pushSpine (a : Arena) (limits : List Limits) (side : Side) (current : Option Nat)
    (stack : List Nat) : Part (List Nat) :=
  loop (a.spineTurn limits side) (current, stack)

def nextTurn (a : Arena) (limits : List Limits) (side : Side) :
    List Nat → Part (Option (Nat × List Nat) ⊕ List Nat)
  | [] => .some (.inl none)
  | slot :: stack => do
    let node ← .ofOption a.nodes[slot]?
    let stack ← a.pushSpine limits side (node.onward limits side.opposite) stack
    return if Limits.allowKey limits node.entry.key then .inl (some (node.entry.tid, stack))
      else .inr stack

/-- The tid of the next entry of the range, coming from the side, and what is on the stack
then. -/
def next (a : Arena) (limits : List Limits) (side : Side) (stack : List Nat) :
    Part (Option (Nat × List Nat)) :=
  untilResult (a.nextTurn limits side) stack

def collectTurn (a : Arena) (limits : List Limits) (side : Side) :
    List Nat × List Nat → Part (List Nat ⊕ List Nat × List Nat)
  | (stack, tids) => do
    match ← a.next limits side stack with
    | none => return .inl tids
    | some (tid, stack) => return .inr (stack, tids ++ [tid])

/-- The tids of the entries between the limits, coming from one side. -/
def scan (a : Arena) (limits : List Limits) (side : Side) : Part (List Nat) := do
  let stack ← a.pushSpine limits side a.root []
  untilResult (a.collectTurn limits side) (stack, [])

/-! ### Changing links -/

def edit (slot : Nat) (change : Node → Node) (a : Arena) : Option Arena := do
  let node ← a.nodes[slot]?
  return { a with nodes := a.nodes.set slot (change node) }

/-- Puts an entry into the slot freed last, or into a new one. -/
def allocate (x : Entry) (a : Arena) : Option (Arena × Nat) :=
  match a.free with
  | slot :: free => do
    let a ← a.edit slot fun _ => ⟨x, none, none⟩
    return ({ a with free }, slot)
  | [] => some ({ a with nodes := a.nodes ++ [⟨x, none, none⟩] }, a.nodes.length)

def relink (a : Arena) : Place → Option Nat → Option Arena
  | .root, child => some { a with root := child }
  | .node slot side, child => a.edit slot (·.setChild side child)

/-- Empties a slot and puts it before the other free ones. -/
def release (slot : Nat) (a : Arena) : Option Arena := do
  let a ← a.edit slot fun n => ⟨{ n.entry with key := [] }, none, none⟩
  return { a with free := slot :: a.free }

/-- Moves the entry of the next slot, which has no left side, into the slot and takes its node
out. -/
def promote (slot next : Nat) (nextPlace : Place) (a : Arena) : Option Arena := do
  let successor ← a.nodes[next]?
  let a ← a.edit next fun n => { n with entry := { n.entry with key := [] } }
  let a ← a.edit slot fun n => { n with entry := successor.entry }
  let a ← a.relink nextPlace successor.right
  a.release next

/-- Takes a node out.  One with two children keeps its slot and is given the next entry in order,
whose slot is freed. -/
def removeNode (slot : Nat) (place : Place) (a : Arena) : Part Arena := do
  let node ← .ofOption a.nodes[slot]?
  match node.left, node.right with
  | none, child | child, none => .ofOption ((a.relink place child).bind (release slot))
  | some _, some right =>
    let (next, nextPlace) ← a.leftmost right (.node slot .right)
    .ofOption (a.promote slot next nextPlace)

/-- Puts an entry into a slot, to which the place then leads. -/
def graft (x : Entry) (place : Place) (a : Arena) : Option Arena := do
  let (a, slot) ← a.allocate x
  let a ← a.relink place (some slot)
  return { a with size := a.size + 1 }

/-- Adds an entry, unless its key is guarded and met. -/
def insert (x : Entry) (guarded : Bool) (a : Arena) : Part (Option Arena) := do
  match ← a.descend x.key guarded .root a.root with
  | none => return none
  | some place => return some (← .ofOption (a.graft x place))

def delete (key : List Value) (tid : Nat) (a : Arena) : Part (Option Arena) := do
  match ← a.find key tid (a.root.map fun slot => (slot, .root)).toList with
  | none => return none
  | some (slot, place) =>
    let a ← a.removeNode slot place
    return some { a with size := a.size - 1 }

end Arena

end RelPlan

import Mathlib.Data.List.Basic
import RelPlan.Index.Arena
import RelPlan.Proofs.SortedTrees

/-!
# Linked trees hold search trees

An arena stores a search tree if its nodes stand in the slots of the tree with the links of the tree
(`Arena.Stores`).  A node in the tree is described by the tree below it and the forks above it
(`Tree.plug`): a link is kept in the fork right above, and what is done to one slot leaves every
part alone that does not use the slot.  So every loop over the links ends and does to the stored
tree what the operation on trees does (`descend_spec`, `find_spec`, `Stores.removeNode`).
-/

namespace RelPlan

open scoped List

namespace Tree

open Arena (Node Place Side)

variable {nodes nodes' : List Node} {t u l r : Tree} {x e : Entry} {key : List Value}
  {s tid : Nat} {p : Option Nat}

def top : Tree → Option Nat
  | leaf => none
  | node s _ _ _ => some s

@[simp] theorem top_leaf : leaf.top = none := rfl

@[simp] theorem top_node (s : Nat) (l : Tree) (e : Entry) (r : Tree) :
    (node s l e r).top = some s := rfl

/-- The nodes of the tree stand in their slots. -/
def Holds (nodes : List Node) : Tree → Prop
  | leaf => True
  | node s l e r => nodes[s]? = some ⟨e, l.top, r.top⟩ ∧ l.Holds nodes ∧ r.Holds nodes

theorem Holds.congr (h : t.Holds nodes) (heq : ∀ k ∈ t.slots, nodes'[k]? = nodes[k]?) :
    t.Holds nodes' := by
  induction t with
  | leaf => trivial
  | node s l e r ihl ihr =>
    obtain ⟨hs, hl, hr⟩ := h
    simp only [slots, List.mem_append, List.mem_cons] at heq
    exact ⟨(heq s (.inr (.inl rfl))).trans hs, ihl hl fun k hk => heq k (.inl hk),
      ihr hr fun k hk => heq k (.inr (.inr hk))⟩

/-- A node without the tree on one of its sides. -/
inductive Fork
  | left (slot : Nat) (entry : Entry) (right : Tree)
  | right (slot : Nat) (left : Tree) (entry : Entry)

namespace Fork

def slot : Fork → Nat
  | left s _ _ | right s _ _ => s

def side : Fork → Side
  | left .. => .left
  | right .. => .right

def fill (t : Tree) : Fork → Tree
  | left s e r => node s t e r
  | right s l e => node s l e t

def slots : Fork → List Nat
  | left s _ r => s :: r.slots
  | right s l _ => s :: l.slots

/-- The node stands in its slot, with a link to the missing tree. -/
def Holds (nodes : List Node) (p : Option Nat) : Fork → Prop
  | left s e r => nodes[s]? = some ⟨e, p, r.top⟩ ∧ r.Holds nodes
  | right s l e => nodes[s]? = some ⟨e, l.top, p⟩ ∧ l.Holds nodes

variable {f : Fork}

theorem slot_mem_slots (f : Fork) : f.slot ∈ f.slots := by
  cases f <;> exact List.mem_cons_self

theorem top_fill (f : Fork) (t : Tree) : (f.fill t).top = some f.slot := by
  cases f <;> rfl

theorem slots_fill_perm (f : Fork) (t : Tree) : (f.fill t).slots ~ t.slots ++ f.slots := by
  cases f with
  | left s e r => exact .refl _
  | right s l e =>
    calc l.slots ++ s :: t.slots
      _ ~ s :: l.slots ++ t.slots := List.perm_middle
      _ ~ t.slots ++ s :: l.slots := List.perm_append_comm

theorem holds_fill : (f.fill t).Holds nodes ↔ t.Holds nodes ∧ f.Holds nodes t.top := by
  cases f with
  | left s e r => exact and_left_comm
  | right s l e => exact ⟨fun ⟨hs, hl, ht⟩ => ⟨ht, hs, hl⟩, fun ⟨ht, hs, hl⟩ => ⟨hs, hl, ht⟩⟩

theorem Holds.congr (h : f.Holds nodes p) (heq : ∀ k ∈ f.slots, nodes'[k]? = nodes[k]?) :
    f.Holds nodes' p := by
  cases f with
  | left s e r | right s l e =>
    exact ⟨(heq s (by simp [slots])).trans h.1, h.2.congr fun k hk => heq k (by simp [slots, hk])⟩

theorem Holds.setChild (h : f.Holds nodes p) (hd : f.slots.Nodup) (p' : Option Nat) :
    ∃ n, nodes[f.slot]? = some n ∧
      f.Holds (nodes.set f.slot (n.setChild f.side p')) p' := by
  have hset {n : Node} (n' : Node) (hn : nodes[f.slot]? = some n) :
      (nodes.set f.slot n')[f.slot]? = some n' := by
    obtain ⟨hlt, -⟩ := List.getElem?_eq_some_iff.1 hn
    exact List.getElem?_set_self hlt
  cases f with
  | left s e r | right s l e =>
    refine ⟨_, h.1, hset _ h.1, h.2.congr fun k hk => ?_⟩
    have hne : s ≠ k := fun heq => (List.nodup_cons.1 hd).1 (heq ▸ hk)
    exact List.getElem?_set_ne hne

end Fork

/-- The whole tree, of a tree and the forks above it from the lowest one on. -/
def plug : List Fork → Tree → Tree
  | [], t => t
  | f :: fs, t => plug fs (f.fill t)

/-- Where the link to a tree below forks is kept. -/
def place : List Fork → Place
  | [] => .root
  | f :: _ => .node f.slot f.side

/-- The forks stand in their slots, the lowest one with the given link. -/
def ForksHold (nodes : List Node) : List Fork → Option Nat → Prop
  | [], _ => True
  | f :: fs, p => f.Holds nodes p ∧ ForksHold nodes fs (some f.slot)

variable {fs gs : List Fork}

theorem plug_append (fs gs : List Fork) (t : Tree) : plug (fs ++ gs) t = plug gs (plug fs t) := by
  induction fs generalizing t with
  | nil => rfl
  | cons f fs ih => exact ih _

theorem top_plug (fs : List Fork) (h : t.top = u.top) : (plug fs t).top = (plug fs u).top := by
  induction fs generalizing t u with
  | nil => exact h
  | cons f fs ih => exact ih (by rw [f.top_fill, f.top_fill])

theorem slots_plug_perm (fs : List Fork) (t : Tree) :
    (plug fs t).slots ~ t.slots ++ fs.flatMap Fork.slots := by
  induction fs generalizing t with
  | nil => simp [plug]
  | cons f fs ih =>
    rw [List.flatMap_cons, ← List.append_assoc]
    exact (ih _).trans ((f.slots_fill_perm t).append_right _)

theorem holds_plug : (plug fs t).Holds nodes ↔ t.Holds nodes ∧ ForksHold nodes fs t.top := by
  induction fs generalizing t with
  | nil => simp [plug, ForksHold]
  | cons f fs ih => rw [plug, ih, Fork.holds_fill, f.top_fill, and_assoc]; rfl

theorem ForksHold.congr (h : ForksHold nodes fs p)
    (heq : ∀ k ∈ fs.flatMap Fork.slots, nodes'[k]? = nodes[k]?) : ForksHold nodes' fs p := by
  induction fs generalizing p with
  | nil => trivial
  | cons f fs ih =>
    rw [List.flatMap_cons] at heq
    exact ⟨h.1.congr fun k hk => heq k (List.mem_append_left _ hk),
      ih h.2 fun k hk => heq k (List.mem_append_right _ hk)⟩

end Tree

namespace Arena

open RelPlan.Tree (Fork plug place)

variable {a a' : Arena} {t u l r : Tree} {x e : Entry} {key : List Value} {s tid : Nat}
  {fs : List Fork}

/-- The links of the arena are those of the tree. -/
structure Stores (a : Arena) (t : Tree) : Prop where
  root : a.root = t.top
  nodes : t.Holds a.nodes

/-- Nothing but links and entries has changed. -/
structure Rearranges (a a' : Arena) : Prop where
  free : a'.free = a.free
  size : a'.size = a.size
  length : a'.nodes.length = a.nodes.length

theorem Rearranges.trans {b : Arena} (h : a.Rearranges a') (h' : a'.Rearranges b) :
    a.Rearranges b :=
  ⟨h'.free.trans h.free, h'.size.trans h.size, h'.length.trans h.length⟩

theorem edit_eq {n : Node} (f : Node → Node) (h : a.nodes[s]? = some n) :
    a.edit s f = some { a with nodes := a.nodes.set s (f n) } := by
  simp [edit, h]

theorem rearranges_set (a : Arena) (s : Nat) (n : Node) :
    a.Rearranges { a with nodes := a.nodes.set s n } :=
  ⟨rfl, rfl, List.length_set⟩

/-! ### Changes -/

theorem Stores.edit_other (h : a.Stores t) (hs : s ∉ t.slots) (hlt : s < a.nodes.length)
    (f : Node → Node) : ∃ a', a.edit s f = some a' ∧ a'.Stores t ∧ a.Rearranges a' := by
  refine ⟨_, edit_eq f (List.getElem?_eq_getElem hlt), ⟨h.root, ?_⟩, rearranges_set ..⟩
  refine h.nodes.congr fun k hk => List.getElem?_set_ne ?_
  exact fun heq => hs (heq ▸ hk)

theorem Stores.edit_entry (h : a.Stores (plug fs (.node s l e r)))
    (hd : (plug fs (.node s l e r)).slots.Nodup) (change : Entry → Entry) :
    ∃ a', a.edit s (fun n => { n with entry := change n.entry }) = some a' ∧
      a'.Stores (plug fs (.node s l (change e) r)) ∧ a.Rearranges a' := by
  obtain ⟨⟨hs, hl, hr⟩, hfs⟩ := Tree.holds_plug.1 h.nodes
  have hlt := (List.getElem?_eq_some_iff.1 hs).1
  rw [(Tree.slots_plug_perm ..).nodup_iff] at hd
  obtain ⟨ht, -, hdisjoint⟩ := List.nodup_append.1 hd
  -- the slot stands nowhere else in the tree, so no other part of it sees the change
  have hself := (List.nodup_cons.1 (List.nodup_middle.1 ht)).1
  have hsl : s ∉ l.slots := fun hmem => hself (List.mem_append_left _ hmem)
  have hsr : s ∉ r.slots := fun hmem => hself (List.mem_append_right _ hmem)
  have hother {k : Nat} (hne : s ≠ k) (n : Node) : (a.nodes.set s n)[k]? = a.nodes[k]? :=
    List.getElem?_set_ne hne
  refine ⟨_, edit_eq _ hs,
    ⟨h.root.trans (Tree.top_plug fs rfl), Tree.holds_plug.2 ⟨⟨?_, ?_, ?_⟩, ?_⟩⟩,
    rearranges_set ..⟩
  · exact List.getElem?_set_self hlt
  · exact hl.congr fun k hk => hother (fun heq => hsl (heq ▸ hk)) _
  · exact hr.congr fun k hk => hother (fun heq => hsr (heq ▸ hk)) _
  · exact hfs.congr fun k hk => hother (hdisjoint s (by simp [Tree.slots]) k hk) _

/-- One link is all that has to change to put another tree in place. -/
theorem Stores.relink (h : a.Stores (plug fs t)) (hu : u.Holds a.nodes)
    (hd : (plug fs u).slots.Nodup) :
    ∃ a', a.relink (place fs) u.top = some a' ∧ a'.Stores (plug fs u) ∧ a.Rearranges a' := by
  cases fs with
  | nil => exact ⟨_, rfl, ⟨rfl, hu⟩, rfl, rfl, rfl⟩
  | cons f fs =>
    obtain ⟨-, hf, hfs⟩ := Tree.holds_plug.1 h.nodes
    rw [(Tree.slots_plug_perm ..).nodup_iff, List.flatMap_cons] at hd
    obtain ⟨-, hforks, hdisjoint⟩ := List.nodup_append.1 hd
    obtain ⟨hfd, -, hdisjoint'⟩ := List.nodup_append.1 hforks
    obtain ⟨n, hn, hf'⟩ := hf.setChild hfd u.top
    have htop : (f.fill t).top = (f.fill u).top := by rw [f.top_fill, f.top_fill]
    refine ⟨_, edit_eq _ hn, ⟨h.root.trans (Tree.top_plug fs htop), ?_⟩, rearranges_set ..⟩
    refine Tree.holds_plug.2 ⟨hu.congr fun k hk => ?_, hf', hfs.congr fun k hk => ?_⟩
    · refine List.getElem?_set_ne fun heq => hdisjoint k hk f.slot ?_ heq.symm
      exact List.mem_append_left _ f.slot_mem_slots
    · exact List.getElem?_set_ne (hdisjoint' f.slot f.slot_mem_slots k hk)

theorem Stores.release (h : a.Stores t) (hs : s ∉ t.slots) (hlt : s < a.nodes.length) :
    ∃ a', a.release s = some a' ∧ a'.Stores t ∧ a'.free = s :: a.free ∧ a'.size = a.size ∧
      a'.nodes.length = a.nodes.length := by
  obtain ⟨b, hb, hst, hre⟩ :=
    h.edit_other hs hlt fun n => ⟨{ n.entry with key := [] }, none, none⟩
  refine ⟨{ b with free := s :: b.free }, by simp [Arena.release, hb], ⟨hst.root, hst.nodes⟩, ?_,
    hre.size, hre.length⟩
  rw [hre.free]

/-! ### Descents -/

section Loops

variable {σ ρ : Type} {turn : σ → Option (ρ ⊕ σ)} {state next : σ} {result : ρ}

theorem loop_stop (h : turn state = some (.inl result)) : loop turn state = .some result :=
  Part.eq_some_iff.2 (PFun.fix_stop (by simp [h]))

theorem loop_next (h : turn state = some (.inr next)) : loop turn state = loop turn next :=
  PFun.fix_fwd_eq (by simp [h])

end Loops

theorem plug_concat (gs : List Fork) (f : Fork) (t : Tree) :
    plug (gs ++ [f]) t = f.fill (plug gs t) := Tree.plug_append gs [f] t

/-- A descent ends at the leaf that an insertion would replace, unless it meets a guarded key. -/
theorem descend_spec (h : t.Holds a.nodes) (x : Entry) (guarded : Bool) (fs : List Fork) :
    if guarded && t.meets x.key then a.descend x.key guarded (place fs) t.top = .some none
    else ∃ gs, a.descend x.key guarded (place fs) t.top = .some (some (place (gs ++ fs))) ∧
      plug gs .leaf = t ∧ ∀ slot, plug gs (.node slot .leaf x .leaf) = t.insert slot x := by
  induction t generalizing fs with
  | leaf =>
    simp only [Tree.meets, Bool.and_false, Bool.false_eq_true, if_false]
    exact ⟨[], loop_stop rfl, rfl, fun _ => rfl⟩
  | node s l e r ihl ihr =>
    obtain ⟨hs, hl, hr⟩ := h
    -- what is found below a side is found below the node, by way of one more fork
    have side {c : Tree} {t' : Nat → Tree} (f : Fork)
        (h : ∃ gs, a.descend x.key guarded (place (f :: fs)) c.top =
          .some (some (place (gs ++ f :: fs))) ∧ plug gs .leaf = c ∧
          ∀ slot, plug gs (.node slot .leaf x .leaf) = t' slot) :
        ∃ gs, a.descend x.key guarded (place (f :: fs)) c.top =
          .some (some (place (gs ++ fs))) ∧ plug gs .leaf = f.fill c ∧
          ∀ slot, plug gs (.node slot .leaf x .leaf) = f.fill (t' slot) := by
      obtain ⟨gs, hgs, hleaf, hnode⟩ := h
      refine ⟨gs ++ [f], by rw [List.append_assoc]; exact hgs, ?_, fun slot => ?_⟩
      · rw [plug_concat, hleaf]
      · rw [plug_concat, hnode]
    have hleft := ihl hl (.left s e r :: fs)
    have hright := ihr hr (.right s l e :: fs)
    cases hcmp : orderKeys x.key e.key with
    | lt =>
      have hstep : a.descend x.key guarded (place fs) (some s) =
          a.descend x.key guarded (place (.left s e r :: fs)) l.top :=
        loop_next (by simp [descendTurn, hs, hcmp, place, Fork.slot, Fork.side])
      rw [Tree.top_node, hstep]
      simp only [Tree.meets, Tree.insert, hcmp]
      split
      · next hm => rwa [if_pos hm] at hleft
      · next hm =>
        rw [if_neg hm] at hleft
        exact side _ hleft
    | gt =>
      have hstep : a.descend x.key guarded (place fs) (some s) =
          a.descend x.key guarded (place (.right s l e :: fs)) r.top :=
        loop_next (by simp [descendTurn, hs, hcmp, place, Fork.slot, Fork.side])
      rw [Tree.top_node, hstep]
      simp only [Tree.meets, Tree.insert, hcmp]
      split
      · next hm => rwa [if_pos hm] at hright
      · next hm =>
        rw [if_neg hm] at hright
        exact side _ hright
    | eq =>
      simp only [Tree.meets, Tree.insert, hcmp, Bool.and_true, Tree.top_node]
      split
      · next hm => exact loop_stop (by simp [descendTurn, hs, hcmp, hm])
      · next hm =>
        have hstep : a.descend x.key guarded (place fs) (some s) =
            a.descend x.key guarded (place (.left s e r :: fs)) l.top :=
          loop_next (by simp [descendTurn, hs, hcmp, hm, place, Fork.slot, Fork.side])
        rw [hstep]
        rw [if_neg (by simp [hm])] at hleft
        exact side _ hleft

theorem leftmost_spec (h : (Tree.node s l e r).Holds a.nodes) (fs : List Fork) :
    ∃ gs next x rest, a.leftmost s (place fs) = .some (next, place (gs ++ fs)) ∧
      plug gs (.node next .leaf x rest) = .node s l e r ∧
      Tree.takeFirst s l e r = ((next, x), plug gs rest) := by
  induction l generalizing s e r fs with
  | leaf =>
    refine ⟨[], s, e, r, loop_stop ?_, rfl, rfl⟩
    simp [leftmostTurn, h.1]
  | node s' l' e' r' ih _ =>
    obtain ⟨gs, next, x, rest, hmost, hplug, hfirst⟩ := ih h.2.1 (.left s e r :: fs)
    refine ⟨gs ++ [.left s e r], next, x, rest, ?_, ?_, ?_⟩
    · have hstep : a.leftmost s (place fs) = a.leftmost s' (place (.left s e r :: fs)) :=
        loop_next (by simp [leftmostTurn, h.1, place, Fork.slot, Fork.side])
      rw [hstep, List.append_assoc]
      exact hmost
    · rw [plug_concat, hplug]
      rfl
    · rw [plug_concat, Tree.takeFirst, hfirst]
      rfl

/-- What the stack holds for a subtree. -/
def pending (fs : List Fork) (t : Tree) : List (Nat × Place) :=
  (t.top.map fun slot => (slot, place fs)).toList

theorem pending_node (fs : List Fork) (s : Nat) (l : Tree) (e : Entry) (r : Tree) :
    pending fs (.node s l e r) = [(s, place fs)] := rfl

/-- What was found is a node of the tree, and removing it leaves the other tree. -/
def Located (fs : List Fork) (t t' : Tree) (freed : Nat) (found : Part (Option (Nat × Place))) :
    Prop :=
  ∃ gs s l e r, found = .some (some (s, place (gs ++ fs))) ∧ plug gs (.node s l e r) = t ∧
    plug gs (Tree.removeRoot s l r).1 = t' ∧ (Tree.removeRoot s l r).2 = freed

theorem Located.above {f : Fork} {t' : Tree} {freed : Nat} {found : Part (Option (Nat × Place))}
    (h : Located (f :: fs) t t' freed found) :
    Located fs (f.fill t) (f.fill t') freed found := by
  obtain ⟨gs, s, l, e, r, hfound, rfl, rfl, hfreed⟩ := h
  exact ⟨gs ++ [f], s, l, e, r, by rw [List.append_assoc]; exact hfound, plug_concat ..,
    plug_concat .., hfreed⟩

/-- A subtree on the stack is searched for the entry that a removal would take out. -/
theorem find_spec (h : t.Holds a.nodes) (key : List Value) (tid : Nat) (fs : List Fork)
    (stack : List (Nat × Place)) :
    match t.erase key tid with
    | none => a.find key tid (pending fs t ++ stack) = a.find key tid stack
    | some (t', freed) => Located fs t t' freed (a.find key tid (pending fs t ++ stack)) := by
  induction t generalizing fs stack with
  | leaf => rfl
  | node s l e r ihl ihr =>
    obtain ⟨hs, hl, hr⟩ := h
    have hbelow : Node.below s ⟨e, l.top, r.top⟩ .left = pending (.left s e r :: fs) l ∧
        Node.below s ⟨e, l.top, r.top⟩ .right = pending (.right s l e :: fs) r := ⟨rfl, rfl⟩
    have hright := ihr hr (.right s l e :: fs) stack
    cases hcmp : orderKeys key e.key with
    | lt =>
      have hstep : a.find key tid (pending fs (.node s l e r) ++ stack) =
          a.find key tid (pending (.left s e r :: fs) l ++ stack) :=
        loop_next (by simp [pending_node, findTurn, hs, hcmp, hbelow])
      have hleft := ihl hl (.left s e r :: fs) stack
      rw [hstep]
      simp only [Tree.erase, hcmp]
      cases hq : l.erase key tid with
      | none => simpa [hq] using hleft
      | some q =>
        rw [hq] at hleft
        exact hleft.above
    | gt =>
      have hstep : a.find key tid (pending fs (.node s l e r) ++ stack) =
          a.find key tid (pending (.right s l e :: fs) r ++ stack) :=
        loop_next (by simp [pending_node, findTurn, hs, hcmp, hbelow])
      rw [hstep]
      simp only [Tree.erase, hcmp]
      cases hq : r.erase key tid with
      | none => simpa [hq] using hright
      | some q =>
        rw [hq] at hright
        exact hright.above
    | eq =>
      simp only [Tree.erase, hcmp]
      by_cases htid : e.tid = tid
      · rw [if_pos htid]
        refine ⟨[], s, l, e, r, loop_stop ?_, rfl, rfl, rfl⟩
        simp [pending_node, findTurn, hs, hcmp, htid]
      · have hstep : a.find key tid (pending fs (.node s l e r) ++ stack) =
            a.find key tid
              (pending (.left s e r :: fs) l ++ (pending (.right s l e :: fs) r ++ stack)) :=
          loop_next (by simp [pending_node, findTurn, hs, hcmp, htid, hbelow])
        rw [if_neg htid, hstep]
        -- the left side comes off the stack first, the right one only if it holds nothing
        have hleft := ihl hl (.left s e r :: fs) (pending (.right s l e :: fs) r ++ stack)
        cases hq : l.erase key tid with
        | some q =>
          rw [hq] at hleft
          exact hleft.above
        | none =>
          rw [hq] at hleft
          rw [hleft]
          cases hq' : r.erase key tid with
          | none => simpa [hq'] using hright
          | some q =>
            rw [hq'] at hright
            exact hright.above

/-! ### Removal of a node -/

theorem slots_plug_promote_perm (gs fs : List Fork) (s next : Nat) (l rest : Tree) (x y : Entry) :
    (plug (gs ++ .right s l x :: fs) (.node next .leaf y rest)).slots ~
      next :: (rest.slots ++ (gs ++ .right s l e :: fs).flatMap Fork.slots) := by
  have hforks : (gs ++ .right s l x :: fs).flatMap Fork.slots =
      (gs ++ .right s l e :: fs).flatMap Fork.slots := by simp [Fork.slots]
  exact hforks ▸ Tree.slots_plug_perm (gs ++ .right s l x :: fs) (.node next .leaf y rest)

theorem Stores.promote {gs : List Fork} {next : Nat} {rest : Tree}
    (h : a.Stores (plug (gs ++ .right s l e :: fs) (.node next .leaf x rest)))
    (hd : (plug (gs ++ .right s l e :: fs) (.node next .leaf x rest)).slots.Nodup) :
    ∃ a', a.promote s next (place (gs ++ .right s l e :: fs)) = some a' ∧
      a'.Stores (plug fs (.node s l x (plug gs rest))) ∧ a'.free = next :: a.free ∧
      a'.size = a.size ∧ a'.nodes.length = a.nodes.length := by
  have hperm := slots_plug_promote_perm (e := e) gs fs s next l rest
  have hnodup (y z : Entry) :
      (plug (gs ++ .right s l y :: fs) (.node next .leaf z rest)).slots.Nodup :=
    (hperm y z).nodup_iff.2 ((hperm e x).nodup_iff.1 hd)
  have hrest : next ∉ (plug (gs ++ .right s l x :: fs) rest).slots ∧
      (plug (gs ++ .right s l x :: fs) rest).slots.Nodup := by
    have hcons := (Tree.slots_plug_perm (gs ++ .right s l x :: fs) (.node next .leaf x rest)).trans
      ((Tree.slots_plug_perm (gs ++ .right s l x :: fs) rest).symm.cons next)
    exact List.nodup_cons.1 (hcons.nodup_iff.1 (hnodup x x))
  have hnode : a.nodes[next]? = some ⟨x, none, rest.top⟩ := (Tree.holds_plug.1 h.nodes).1.1
  -- the tree changes with each step: the successor loses its key, the node takes the entry, and
  -- the link to the successor is handed on
  obtain ⟨a₁, hedit₁, h₁, hre₁⟩ := h.edit_entry hd fun x => { x with key := [] }
  have hd₁ := hnodup e { x with key := [] }
  rw [Tree.plug_append] at h₁ hd₁
  obtain ⟨a₂, hedit₂, h₂, hre₂⟩ := Stores.edit_entry (r := plug gs _) h₁ hd₁ fun _ => x
  replace h₂ : a₂.Stores (plug (gs ++ .right s l x :: fs) (.node next .leaf ⟨[], x.tid⟩ rest)) :=
    (Tree.plug_append ..).symm ▸ h₂
  have hrest₂ : rest.Holds a₂.nodes := (Tree.holds_plug.1 h₂.nodes).1.2.2
  obtain ⟨a₃, hlink, h₃, hre₃⟩ := h₂.relink hrest₂ hrest.2
  have hre := (hre₁.trans hre₂).trans hre₃
  obtain ⟨a₄, hrelease, h₄, hfree, hsize, hlength⟩ :=
    h₃.release hrest.1 (hre.length ▸ (List.getElem?_eq_some_iff.1 hnode).1)
  have hplace : place (gs ++ .right s l e :: fs) = place (gs ++ .right s l x :: fs) := by
    cases gs <;> rfl
  rw [Tree.plug_append] at h₄
  refine ⟨a₄, ?_, h₄, by rw [hfree, hre.free], by rw [hsize, hre.size], by rw [hlength, hre.length]⟩
  rw [Arena.promote, hnode, hplace]
  simp only [Option.bind_eq_bind, Option.bind_some, hedit₁, hedit₂, hlink,
    hrelease]

theorem Stores.removeNode (h : a.Stores (plug fs (.node s l e r)))
    (hd : (plug fs (.node s l e r)).slots.Nodup) :
    ∃ a', a.removeNode s (place fs) = .some a' ∧ a'.Stores (plug fs (Tree.removeRoot s l r).1) ∧
      a'.free = (Tree.removeRoot s l r).2 :: a.free ∧ a'.size = a.size ∧
      a'.nodes.length = a.nodes.length := by
  obtain ⟨⟨hs, hl, hr⟩, -⟩ := Tree.holds_plug.1 h.nodes
  have hlt := (List.getElem?_eq_some_iff.1 hs).1
  -- a node without one of its sides is replaced by the other side
  have replaced {c : Tree} (hc : c.Holds a.nodes)
      (hslots : l.slots ++ s :: r.slots ~ s :: c.slots) :
      ∃ a', ((a.relink (place fs) c.top).bind fun a => a.release s) = some a' ∧
        a'.Stores (plug fs c) ∧ a'.free = s :: a.free ∧ a'.size = a.size ∧
        a'.nodes.length = a.nodes.length := by
    have hperm : (plug fs (.node s l e r)).slots ~ s :: (plug fs c).slots :=
      calc (plug fs (.node s l e r)).slots
        _ ~ (l.slots ++ s :: r.slots) ++ fs.flatMap Fork.slots := Tree.slots_plug_perm ..
        _ ~ s :: c.slots ++ fs.flatMap Fork.slots := hslots.append_right _
        _ ~ s :: (plug fs c).slots := (Tree.slots_plug_perm fs c).symm.cons s
    obtain ⟨hs', hd'⟩ := List.nodup_cons.1 (hperm.nodup_iff.1 hd)
    obtain ⟨b, hb, hst, hre⟩ := h.relink hc hd'
    obtain ⟨c', hc', hst', hfree, hsize, hlength⟩ := hst.release hs' (hre.length ▸ hlt)
    exact ⟨c', by rw [hb]; exact hc', hst', by rw [hfree, hre.free], by rw [hsize, hre.size],
      by rw [hlength, hre.length]⟩
  unfold Arena.removeNode
  rw [hs]
  cases l with
  | leaf =>
    obtain ⟨a', ha', hrest⟩ := replaced hr (.refl _)
    exact ⟨a', by simp [ha'], hrest⟩
  | node s₁ l₁ e₁ r₁ =>
    cases r with
    | leaf =>
      obtain ⟨a', ha', hrest⟩ := replaced hl (List.perm_append_singleton ..)
      exact ⟨a', by simpa using congrArg Part.ofOption ha', hrest⟩
    | node s₂ l₂ e₂ r₂ =>
      obtain ⟨gs, next, x, rest, hmost, hplug, hfirst⟩ :=
        leftmost_spec hr (.right s (.node s₁ l₁ e₁ r₁) e :: fs)
      have hwhole : plug (gs ++ .right s (.node s₁ l₁ e₁ r₁) e :: fs) (.node next .leaf x rest) =
          plug fs (.node s (.node s₁ l₁ e₁ r₁) e (.node s₂ l₂ e₂ r₂)) := by
        rw [Tree.plug_append, hplug]
        rfl
      rw [← hwhole] at h hd
      obtain ⟨a', ha', hst, hfree, hrest⟩ := h.promote hd
      refine ⟨a', ?_, ?_, ?_, hrest⟩
      · have hright : a.leftmost s₂ (.node s .right) = _ := hmost
        simp [hright, ha']
      · simpa only [Tree.removeRoot, hfirst] using hst
      · simpa only [Tree.removeRoot, hfirst] using hfree

theorem walkTurn_spec (h : t.Holds a.nodes) (stack : List (Nat ⊕ Entry)) (es : List Entry) :
    loop a.walkTurn (t.top.toList.map .inl ++ stack, es) =
      loop a.walkTurn (stack, es ++ t.toList) := by
  induction t generalizing stack es with
  | leaf => rw [Tree.toList, List.append_nil]; rfl
  | node s l e r ihl ihr =>
    obtain ⟨hs, hl, hr⟩ := h
    have hstep : loop a.walkTurn ((Tree.node s l e r).top.toList.map .inl ++ stack, es) =
        loop a.walkTurn (l.top.toList.map .inl ++ .inr e :: (r.top.toList.map .inl ++ stack), es) :=
      loop_next (by simp [walkTurn, hs])
    calc
      _ = _ := hstep
      _ = loop a.walkTurn (.inr e :: (r.top.toList.map .inl ++ stack), es ++ l.toList) := ihl hl _ _
      _ = loop a.walkTurn (r.top.toList.map .inl ++ stack, es ++ l.toList ++ [e]) := loop_next rfl
      _ = loop a.walkTurn (stack, es ++ l.toList ++ [e] ++ r.toList) := ihr hr _ _
      _ = _ := by simp [Tree.toList]

theorem Stores.walk (h : a.Stores t) : a.walk = .some t.toList := by
  have hspec := walkTurn_spec h.nodes [] []
  rw [List.append_nil, List.nil_append, ← h.root] at hspec
  exact hspec.trans (loop_stop rfl)

theorem follow_none (path : List Side) : a.follow path none = none := by
  cases path <;> rfl

theorem follow_cons (h : (Tree.node s l e r).Holds a.nodes) (side : Side) (path : List Side) :
    a.follow (side :: path) (Tree.node s l e r).top =
      a.follow path (match side with | .left => l.top | .right => r.top) := by
  rw [Tree.top_node, follow]
  simp only [Option.bind_eq_bind, Option.bind_some, h.1]
  cases side <;> rfl

theorem exists_follow_iff (h : t.Holds a.nodes) :
    (∃ path, a.follow path t.top = some s) ↔ s ∈ t.slots := by
  induction t with
  | leaf => simp [follow_none, Tree.slots]
  | node s' l e r ihl ihr =>
    rw [Tree.slots, List.mem_append, List.mem_cons, ← ihl h.2.1, ← ihr h.2.2]
    constructor
    · rintro ⟨path, hpath⟩
      cases path with
      | nil => exact .inr (.inl (Option.some.inj hpath).symm)
      | cons side path =>
        rw [follow_cons h] at hpath
        cases side with
        | left => exact .inl ⟨path, hpath⟩
        | right => exact .inr (.inr ⟨path, hpath⟩)
    · rintro (⟨path, hpath⟩ | rfl | ⟨path, hpath⟩)
      · exact ⟨.left :: path, by rwa [follow_cons h]⟩
      · exact ⟨[], rfl⟩
      · exact ⟨.right :: path, by rwa [follow_cons h]⟩

theorem follow_inj {path path' : List Side} (h : t.Holds a.nodes) (hd : t.slots.Nodup)
    (hp : a.follow path t.top = some s) (hp' : a.follow path' t.top = some s) : path = path' := by
  induction t generalizing path path' with
  | leaf => rw [Tree.top_leaf, follow_none] at hp; cases hp
  | node s' l e r ihl ihr =>
    obtain ⟨hdl, hdr, hdisjoint⟩ := List.nodup_append.1 hd
    obtain ⟨hself, hdr⟩ := List.nodup_cons.1 hdr
    have hleft {path : List Side}
        (hp : a.follow (.left :: path) (Tree.node s' l e r).top = some s) :
        s ∈ l.slots := (exists_follow_iff h.2.1).1 ⟨path, by rwa [follow_cons h] at hp⟩
    have hright {path : List Side}
        (hp : a.follow (.right :: path) (Tree.node s' l e r).top = some s) : s ∈ r.slots :=
      (exists_follow_iff h.2.2).1 ⟨path, by rwa [follow_cons h] at hp⟩
    have hroot (hp : a.follow [] (Tree.node s' l e r).top = some s) : s = s' :=
      (Option.some.inj hp).symm
    have hne : s' ∉ l.slots := fun hmem => hdisjoint s' hmem s' List.mem_cons_self rfl
    -- a slot is in one part of the tree only, so both paths turn the same way
    have hlr {k : Nat} (hl : k ∈ l.slots) (hr : k ∈ r.slots) : False :=
      hdisjoint k hl k (List.mem_cons_of_mem _ hr) rfl
    match path, path', hp, hp' with
    | [], [], _, _ => rfl
    | [], .left :: _, hp, hp' => exact absurd (hroot hp ▸ hleft hp') hne
    | [], .right :: _, hp, hp' => exact absurd (hroot hp ▸ hright hp') hself
    | .left :: _, [], hp, hp' => exact absurd (hroot hp' ▸ hleft hp) hne
    | .right :: _, [], hp, hp' => exact absurd (hroot hp' ▸ hright hp) hself
    | .left :: _, .right :: _, hp, hp' => exact (hlr (hleft hp) (hright hp')).elim
    | .right :: _, .left :: _, hp, hp' => exact (hlr (hleft hp') (hright hp)).elim
    | .left :: _, .left :: _, hp, hp' =>
      rw [follow_cons h] at hp hp'
      rw [ihl h.2.1 hdl hp hp']
    | .right :: _, .right :: _, hp, hp' =>
      rw [follow_cons h] at hp hp'
      rw [ihr h.2.2 hdr hp hp']

theorem length_of_follow {path : List Side} (h : t.Holds a.nodes)
    (hp : a.follow path t.top = some s) : path.length < t.slots.length := by
  induction t generalizing path with
  | leaf => rw [Tree.top_leaf, follow_none] at hp; cases hp
  | node s' l e r ihl ihr =>
    rw [Tree.slots, List.length_append, List.length_cons]
    cases path with
    | nil => exact Nat.lt_of_lt_of_le (Nat.zero_lt_succ _) (Nat.le_add_left ..)
    | cons side path =>
      rw [follow_cons h] at hp
      rw [List.length_cons]
      cases side with
      | left =>
        have := ihl h.2.1 hp
        omega
      | right =>
        have := ihr h.2.2 hp
        omega

end Arena

end RelPlan

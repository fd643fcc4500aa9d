import RelPlan.Proofs.MetRanges
import RelPlan.Proofs.RestoredEntries
import RelPlan.Proofs.SortedIndexes

/-!
# Range scans of linked trees

A range scan goes through a linked tree with a stack of slots.  The entries that the stack stands
for are those of each slot and of the side away from which the scan goes, in the order of the
stack, so a scan that starts at the root gives what the scan of the stored tree gives
(`Arena.Stores.scan`).  Both leave out the sides that the tightest bounds exclude, and no key that
is left out respects every bound: a scan of an index gives the entries that each bound admits, in
order (`run_scan`).
-/

namespace RelPlan

namespace Tree

open Arena (Side)

def scanFrom (limits : List Limits) (side : Side) (t : Tree) : List Nat :=
  match side with
  | .left => t.scan limits
  | .right => t.scanBackward limits

/-- What a scan takes from the tree on one side of a key. -/
def scanPart (limits : List Limits) (side : Side) (key : List Value) (toward : Side) (t : Tree) :
    List Nat :=
  if toward.reaches limits key then t.scanFrom limits side else []

/-- The tree on one side of a node. -/
def onSide (l r : Tree) : Side → Tree
  | .left => l
  | .right => r

theorem scanFrom_node (limits : List Limits) (side : Side) (s : Nat) (l : Tree) (e : Entry)
    (r : Tree) : (node s l e r).scanFrom limits side =
      (onSide l r side).scanPart limits side e.key side ++
        (if Limits.allowKey limits e.key then [e.tid] else []) ++
        (onSide l r side.opposite).scanPart limits side e.key side.opposite := by
  cases side <;> rfl

end Tree

namespace Arena

variable {a : Arena} {t l r : Tree} {e : Entry} {s : Nat} {n : Node} {limits : List Limits}
  {side : Side} {stack tids : List Nat}

theorem pushSpine_none (stack : List Nat) : a.pushSpine limits side none stack = .some stack :=
  loop_stop rfl

theorem pushSpine_some (h : a.nodes[s]? = some n) (stack : List Nat) :
    a.pushSpine limits side (some s) stack =
      a.pushSpine limits side (n.onward limits side) (s :: stack) :=
  loop_next (by simp [spineTurn, h])

theorem next_nil : a.next limits side [] = .some none := by
  rw [next, untilResult_eq, nextTurn]
  simp

theorem next_cons (h : a.nodes[s]? = some n) (stack : List Nat) :
    a.next limits side (s :: stack) =
      (a.pushSpine limits side (n.onward limits side.opposite) stack).bind fun stack =>
        if Limits.allowKey limits n.entry.key then .some (some (n.entry.tid, stack))
        else a.next limits side stack := by
  rw [next, untilResult_eq, nextTurn, h]
  simp only [Part.ofOption, Part.bind_eq_bind, Part.bind_some, Part.bind_assoc]
  congr 1
  funext stack
  split
  · simp
  · simp [next]

/-- The tids that the stack still stands for come after those collected. -/
def collected (a : Arena) (limits : List Limits) (side : Side) (tids stack : List Nat) :
    Part (List Nat) :=
  untilResult (a.collectTurn limits side) (stack, tids)

theorem collected_eq (tids stack : List Nat) :
    a.collected limits side tids stack = (a.next limits side stack).bind fun
      | none => .some tids
      | some (tid, stack) => a.collected limits side (tids ++ [tid]) stack := by
  rw [collected, untilResult_eq, collectTurn]
  simp only [Part.bind_eq_bind, Part.bind_assoc]
  congr 1
  funext o
  cases o <;> simp [collected]

theorem collected_cons (h : a.nodes[s]? = some n) (tids stack : List Nat) :
    a.collected limits side tids (s :: stack) =
      (a.pushSpine limits side (n.onward limits side.opposite) stack).bind
        (a.collected limits side
          (tids ++ if Limits.allowKey limits n.entry.key then [n.entry.tid] else [])) := by
  rw [collected_eq, next_cons h, Part.bind_assoc]
  congr 1
  funext stack
  split
  · simp
  · rw [List.append_nil, collected_eq]

/-- From the spine of a subtree on, its entries come first, and then those of the stack below. -/
theorem collected_spine (h : t.Holds a.nodes) (tids stack : List Nat) :
    (a.pushSpine limits side t.top stack).bind (a.collected limits side tids) =
      a.collected limits side (tids ++ t.scanFrom limits side) stack := by
  induction t generalizing tids stack with
  | leaf =>
    have hnone : Tree.leaf.scanFrom limits side = [] := by cases side <;> rfl
    rw [Tree.top_leaf, pushSpine_none, Part.bind_some, hnone, List.append_nil]
  | node s l e r ihl ihr =>
    obtain ⟨hs, hl, hr⟩ := h
    -- a side is visited only if the range may go on there
    have part (toward : Side) (tids stack : List Nat) :
        (a.pushSpine limits side ((⟨e, l.top, r.top⟩ : Node).onward limits toward) stack).bind
            (a.collected limits side tids) =
          a.collected limits side
            (tids ++ (Tree.onSide l r toward).scanPart limits side e.key toward) stack := by
      rw [Node.onward, Tree.scanPart]
      split
      · cases toward with
        | left => exact ihl hl tids stack
        | right => exact ihr hr tids stack
      · rw [pushSpine_none, Part.bind_some, List.append_nil]
    rw [Tree.top_node, pushSpine_some hs, part side, collected_cons hs, part side.opposite,
      Tree.scanFrom_node, List.append_assoc, List.append_assoc, List.append_assoc]

/-- A scan with a stack ends, and gives what the scan of the tree gives. -/
theorem Stores.scan (h : a.Stores t) : a.scan limits side = .some (t.scanFrom limits side) := by
  have hspine : (a.pushSpine limits side t.top []).bind (a.collected limits side []) = _ :=
    collected_spine h.nodes [] []
  rw [← h.root, List.nil_append, collected_eq _ [], next_nil, Part.bind_some] at hspine
  exact hspine

end Arena

variable {scope : Scope}

/-- The value lies on the given side of the bound, or on it if the bound is inclusive.  A bound that
is `NULL` admits nothing. -/
def Bound.admits (scope : Scope) (side : Ordering) (b : Bound) (v : Value) : Bool :=
  match b.expr.eval scope with
  | .ok w => !w.isNull && (v.order w = side || v.order w = .eq && b.inclusive)
  | .error _ => false

namespace ColumnRange

def admits (scope : Scope) (r : ColumnRange) (v : Value) : Bool :=
  !v.isNull && r.lower.all (·.admits scope .gt v) && r.upper.all (·.admits scope .lt v)

/-- Each column with a range has a component in the key, which every bound admits. -/
def admitsKey (scope : Scope) : List ColumnRange → List Value → Bool
  | [], _ => true
  | r :: rs, v :: vs => r.admits scope v && admitsKey scope rs vs
  | _ :: _, [] => false

end ColumnRange

section
variable {b : Bound} {side : Ordering} {v : Value} {r : ColumnRange} {rs : List ColumnRange}
  {key : List Value} {types : List DataType}

theorem Bound.admits_iff (hside : side ≠ .eq) :
    b.admits scope side v ↔ (∃ w, b.expr.eval scope = .ok w) ∧ b.Respected scope.env side v := by
  unfold admits Respected
  cases heval : b.expr.eval scope with
  | error e => simp
  | ok w =>
    have hallows : (⟨w, b.inclusive⟩ : Limit).allows side v ↔
        v.order w = side ∨ v.order w = .eq ∧ b.inclusive := by
      unfold Limit.allows
      cases side <;> cases v.order w <;> simp at hside ⊢
    simp [Expr.worth_of_eval heval, hallows]

theorem ColumnRange.admits_iff :
    r.admits scope v ↔ (∀ b ∈ r.lower ++ r.upper, ∃ w, b.expr.eval scope = .ok w) ∧
      r.Respected scope.env v := by
  have hlower (b : Bound) : b.admits scope .gt v ↔ _ := b.admits_iff (by simp)
  have hupper (b : Bound) : b.admits scope .lt v ↔ _ := b.admits_iff (by simp)
  simp only [admits, Bool.and_eq_true, Bool.not_eq_true', List.all_eq_true, hlower, hupper,
    List.forall_mem_append]
  constructor
  · rintro ⟨⟨hnull, hl⟩, hu⟩
    exact ⟨⟨fun b hb => (hl b hb).1, fun b hb => (hu b hb).1⟩,
      ⟨hnull, fun b hb => (hl b hb).2, fun b hb => (hu b hb).2⟩⟩
  · rintro ⟨⟨hel, heu⟩, hnull, hl, hu⟩
    exact ⟨⟨hnull, fun b hb => ⟨hel b hb, hl b hb⟩⟩, fun b hb => ⟨heu b hb, hu b hb⟩⟩

theorem ColumnRange.admitsKey_iff :
    admitsKey scope rs key ↔
      (∀ r ∈ rs, ∀ b ∈ r.lower ++ r.upper, ∃ w, b.expr.eval scope = .ok w) ∧
        AllRespected scope.env rs key := by
  induction rs generalizing key with
  | nil => simp [admitsKey, AllRespected]
  | cons r rs ih =>
    cases key with
    | nil => simp [admitsKey, AllRespected]
    | cons v vs =>
      rw [admitsKey, Bool.and_eq_true, ColumnRange.admits_iff, ih, List.forall_mem_cons,
        AllRespected]
      exact and_and_and_comm

theorem ColumnRange.admitsKey_eq_false (hr : r ∈ rs) (hb : b ∈ r.lower ++ r.upper)
    (hnull : b.expr.eval scope = .ok .null) : admitsKey scope rs key = false := by
  have hnone (side : Ordering) (w : Value) : b.admits scope side w = false := by
    simp [Bound.admits, hnull, Value.isNull]
  induction rs generalizing key with
  | nil => cases hr
  | cons r' rs ih =>
    cases key with
    | nil => rfl
    | cons w ws =>
      rw [admitsKey, Bool.and_eq_false_iff]
      rcases List.mem_cons.1 hr with rfl | hr
      · refine .inl ?_
        rw [admits, Bool.and_assoc, Bool.and_eq_false_iff, Bool.and_eq_false_iff]
        rcases List.mem_append.1 hb with hb | hb
        · exact .inr (.inl (List.all_eq_false.2 ⟨b, hb, by simp [hnone]⟩))
        · exact .inr (.inr (List.all_eq_false.2 ⟨b, hb, by simp [hnone]⟩))
      · exact .inr (ih hr)

theorem Limits.evaluated_of_ofRanges {limits : List Limits}
    (h : ofRanges scope types rs = .ok (some limits)) :
    ∀ r ∈ rs, ∀ b ∈ r.lower ++ r.upper, ∃ w, b.expr.eval scope = .ok w := by
  induction rs generalizing types limits with
  | nil => simp
  | cons r rs ih =>
    obtain ⟨L, rest, rfl, hlower, hupper, hrest⟩ := ofRanges_cons_eq_some h
    refine List.forall_mem_cons.2 ⟨fun b hb => ?_, ih hrest⟩
    rcases List.mem_append.1 hb with hb | hb
    exacts [(Limit.eval_of_tightestFrom hlower b hb).imp fun _ hw => hw.1,
      (Limit.eval_of_tightestFrom hupper b hb).imp fun _ hw => hw.1]

/-- The tightest bounds allow the keys that every bound admits. -/
theorem Limits.allowKey_ofRanges {limits? : Option (List Limits)}
    (hrs : ∀ r ∈ rs, r.IsExactIn scope) (h : ofRanges scope types rs = .ok limits?)
    (hkey : ∀ v ∈ key, v.isExact) :
    limits?.any (allowKey · key) = ColumnRange.admitsKey scope rs key := by
  obtain ⟨hnone, hsome⟩ := ofRanges_spec hrs h
  rw [Bool.eq_iff_iff, ColumnRange.admitsKey_iff]
  match limits? with
  | none => simp [hnone rfl key]
  | some limits =>
    rw [Option.any_some, (hsome limits rfl).2 key hkey]
    exact (and_iff_right (evaluated_of_ofRanges h)).symm

end

/-! ### Scans of indexes -/

def Direction.side : Direction → Arena.Side
  | .forward => .left
  | .backward => .right

theorem ColumnRange.isSharp_of_isExactIn {range : KeyRange}
    (h : ∀ c ∈ range.columns, c.IsExactIn scope) : range.IsSharp scope := by
  intro c hc b hb heval
  exact Value.ne_twoPow63 ((h c hc).eval hb heval) rfl

namespace OrderedIndex

/-- A range scan of the linked tree. -/
def scanLinked (i : OrderedIndex) (a : Arena) (range : KeyRange) (scope : Scope) :
    Part (Result (List Nat)) :=
  match Limits.ofRanges scope (if a.size = 0 then [] else i.keyTypes) range.columns with
  | .error e => .some (.error e)
  | .ok none => .some (.ok [])
  | .ok (some limits) => (a.scan limits range.direction.side).map .ok

variable {i j : OrderedIndex} {es : List Entry} {a : Arena} {range : KeyRange} {tids : List Nat}

theorem Kept.scanLinked (h : Kept i es j a) (range : KeyRange) (scope : Scope) :
    i.scanLinked a range scope = .some (j.scan range scope) := by
  have htypes : (if a.size = 0 then [] else i.keyTypes) = j.checkedTypes := by
    rw [checkedTypes, h.mirrors.size, (blank_eq_iff.1 h.blank).2.2.2]
  rw [OrderedIndex.scanLinked, scan, htypes]
  match Limits.ofRanges scope j.checkedTypes range.columns with
  | .error e => rfl
  | .ok none => rfl
  | .ok (some limits) =>
    rw [Result.ok_bind]
    dsimp only
    rw [h.mirrors.stores.scan, Part.map_some]
    cases range.direction <;> rfl

theorem Kept.scan (h : Kept i es j a) (hrange : ∀ c ∈ range.columns, c.IsExactIn scope)
    (hscan : j.scan range scope = .ok tids) :
    tids = (inDirection range
      (es.filter (ColumnRange.admitsKey scope range.columns ·.key))).map Entry.tid := by
  rw [scan_eq_between h.ordered (ColumnRange.isSharp_of_isExactIn hrange)] at hscan
  obtain ⟨limits?, hlimits, rfl⟩ := Result.map_eq_ok.1 hscan
  have hbetween : between limits? es =
      es.filter (ColumnRange.admitsKey scope range.columns ·.key) := by
    have hkeep (x : Entry) (hx : x ∈ es) : limits?.any (Limits.allowKey · x.key) =
        ColumnRange.admitsKey scope range.columns x.key := by
      rw [← h.toList] at hx
      exact Limits.allowKey_ofRanges hrange hlimits (h.ordered.keys x hx).exact
    rw [← List.filter_congr hkeep]
    cases limits? <;> simp [between]
  rw [h.toList, hbetween]

/-- Any calls on an empty index with exact keys, none of which brings a tid that is there, and then
a range scan with exact bounds: the scan of the linked tree ends and gives what the index gives,
which is the entries that every bound admits, in the order of the list or in reverse. -/
theorem run_scan (i : OrderedIndex) (cs : List Call) (hexact : ∀ c ∈ cs, c.IsExact i)
    (hfresh : FreshRun i cs []) (range : KeyRange) (scope : Scope)
    (hrange : ∀ c ∈ range.columns, c.IsExactIn scope) :
    ∃ es j a answers, run (Call.applySorted i) cs [] = (es, answers) ∧
      run Call.apply cs i.blank = (j, answers) ∧ runLinked i cs {} = .some (a, answers) ∧
      j.tree.toList = es ∧ i.scanLinked a range scope = .some (j.scan range scope) ∧
      ∀ tids, j.scan range scope = .ok tids →
        tids = (inDirection range
          (es.filter (ColumnRange.admitsKey scope range.columns ·.key))).map Entry.tid ∧
        ∀ c ∈ range.columns, ∀ b ∈ c.lower ++ c.upper, b.expr.eval scope = .ok .null →
          tids = [] := by
  obtain ⟨es, j, a, answers, hsorted, hindex, hlinked, h⟩ := (kept_blank i).run hexact hfresh
  refine ⟨es, j, a, answers, hsorted, hindex, hlinked, h.toList, h.scanLinked range scope,
    fun tids hscan => ⟨h.scan hrange hscan, fun c hc b hb hnull => ?_⟩⟩
  have hempty : es.filter (ColumnRange.admitsKey scope range.columns ·.key) = [] := by
    simp [ColumnRange.admitsKey_eq_false hc hb hnull]
  rw [h.scan hrange hscan, hempty, inDirection]
  split <;> rfl

theorem run_scan_promotion :
    let i : OrderedIndex := { name := "i", keys := [.ref ⟨none, "a"⟩], unique := false }
    let bound (a : Int64) (inclusive : Bool) : Bound := ⟨.const (.int a), inclusive⟩
    let range : KeyRange :=
      ⟨[⟨[bound 2 true, bound 2 false], [bound 6 true, bound 7 false]⟩], .backward⟩
    (∀ c ∈ promotion, c.IsExact i) ∧ FreshRun i promotion [] ∧
      (∀ c ∈ range.columns, c.IsExactIn .empty) ∧
      ((run Call.apply promotion i.blank).1.scan range .empty) = .ok [5, 4, 0] ∧
      ∃ es j a answers, run (Call.applySorted i) promotion [] = (es, answers) ∧
        run Call.apply promotion i.blank = (j, answers) ∧
        runLinked i promotion {} = .some (a, answers) ∧
        j.tree.toList = es ∧ i.scanLinked a range .empty = .some (j.scan range .empty) ∧
        ∀ tids, j.scan range .empty = .ok tids →
          tids = (inDirection range
            (es.filter (ColumnRange.admitsKey .empty range.columns ·.key))).map Entry.tid ∧
          ∀ c ∈ range.columns, ∀ b ∈ c.lower ++ c.upper, b.expr.eval .empty = .ok .null →
            tids = [] := by
  intro i bound range
  have hexact : ∀ c ∈ promotion, c.IsExact i := by decide
  have hfresh : FreshRun i promotion [] := by decide
  have hrange : ∀ c ∈ range.columns, c.IsExactIn .empty := by decide
  exact ⟨hexact, hfresh, hrange, by decide, run_scan i promotion hexact hfresh range .empty hrange⟩

end OrderedIndex

end RelPlan

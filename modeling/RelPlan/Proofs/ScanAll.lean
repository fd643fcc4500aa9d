import RelPlan.Join.Merge
import RelPlan.Join.NestedLoop
import RelPlan.Proofs.Cells
import RelPlan.Proofs.KeyMaps
import RelPlan.Proofs.ScanShows

/-!
# What all rows of a scan have

A condition on every row that pulling may bring to light.  The rows that joins make have it if all
rows made of a left and a right one do.  Operations on a scan look at nothing but its rows, so two
functions that agree on rows with the condition give one scan (`Scan.All.filterMap_congr` and so
on).
-/

namespace RelPlan

variable {α β : Type} {P : α → Prop} {Q : β → Prop}

namespace Scan

/-- Every row satisfies the condition. -/
def All (P : α → Prop) : Scan α → Prop
  | done | fail _ => True
  | note _ s => (s ()).All P
  | row a s => P a ∧ (s ()).All P

variable {s : Scan α}

theorem all_ofList {as : List α} (h : ∀ a ∈ as, P a) : (ofList as).All P := by
  induction as with
  | nil => trivial
  | cons a as ih =>
    obtain ⟨ha, has⟩ := List.forall_mem_cons.1 h
    exact ⟨ha, ih has⟩

theorem all_true (s : Scan α) : s.All fun _ => True := by
  induction s with
  | done | fail => trivial
  | note n s ih => exact ih ()
  | row a s ih => exact ⟨trivial, ih ()⟩

theorem All.filterMap {f : α → Result (Option β)} (h : s.All P)
    (hf : ∀ a b, P a → f a = .ok (some b) → Q b) : (s.filterMap f).All Q := by
  induction s with
  | done | fail => trivial
  | note n s ih => exact ih () h
  | row a s ih =>
    rw [Scan.filterMap]
    split
    · next b hb => exact ⟨hf a b h.1 hb, ih () h.2⟩
    · exact ih () h.2
    · trivial

theorem All.map {f : α → Result β} (h : s.All P) (hf : ∀ a b, P a → f a = .ok b → Q b) :
    (s.map f).All Q := by
  refine h.filterMap fun a b ha hb => ?_
  obtain ⟨b', hb', heq⟩ := Result.map_eq_ok.1 hb
  cases heq
  exact hf a b ha hb'

theorem all_map {f : α → Result β} (h : ∀ a b, f a = .ok b → Q b) (s : Scan α) :
    (s.map f).All Q := s.all_true.map fun a b _ => h a b

theorem all_withNotes {s : Unit → Scan α} (h : (s ()).All P) (ns : List Note) :
    (withNotes ns s).All P := by
  induction ns with
  | nil => exact h
  | cons n ns ih => exact ih

theorem all_push {r : Result α} {rest : Unit → Scan α} (h : ∀ a, r = .ok a → P a)
    (hrest : (rest ()).All P) : (push r rest).All P := by
  cases r with
  | ok a => exact ⟨h a rfl, hrest⟩
  | error => trivial

theorem all_probe (s : Scan β) : (s.probe : Scan α).All P := by
  induction s with
  | done | row | fail => trivial
  | note n s ih => exact ih ()

namespace All

theorem imp {P' : α → Prop} (h : s.All P) (hP : ∀ a, P a → P' a) : s.All P' := by
  induction s with
  | done | fail => trivial
  | note n s ih => exact ih () h
  | row a s ih => exact ⟨hP a h.1, ih () h.2⟩

theorem filter (h : s.All P) (p : α → Result Bool) : (s.filter p).All P := by
  refine h.filterMap fun a b ha hb => ?_
  obtain ⟨v, -, hb⟩ := Result.bind_eq_ok.1 hb
  cases v <;> cases hb
  exact ha

theorem append {t : Unit → Scan α} (h : s.All P) (ht : (t ()).All P) : (s.append t).All P := by
  induction s with
  | done => exact ht
  | fail => trivial
  | note n s ih => exact ih () h
  | row a s ih => exact ⟨h.1, ih () h.2⟩

theorem take (h : s.All P) (k : Nat) : (s.take k).All P := by
  induction s generalizing k with
  | done | fail => cases k <;> trivial
  | note n s ih =>
    cases k with
    | zero => trivial
    | succ k => exact ih () h (k + 1)
  | row a s ih =>
    cases k with
    | zero => trivial
    | succ k => rw [take_row]; exact ⟨h.1, ih () h.2 k⟩

theorem drop (h : s.All P) (k : Nat) : (s.drop k).All P := by
  induction s generalizing k with
  | done | fail => cases k <;> trivial
  | note n s ih =>
    cases k with
    | zero => exact h
    | succ k => exact ih () h (k + 1)
  | row a s ih =>
    cases k with
    | zero => exact h
    | succ k => exact ih () h.2 k

theorem distinct (h : s.All P) (key : α → List Value) (seen : KeyMap Unit) :
    (s.distinct key seen).All P := by
  induction s generalizing seen with
  | done | fail => trivial
  | note n s ih => exact ih () h seen
  | row a s ih =>
    rw [Scan.distinct]
    split
    · exact ih () h.2 seen
    · exact ⟨h.1, ih () h.2 _⟩

theorem drain (h : s.All P) {as : List α} (hs : s.drain.result = .ok as) : ∀ a ∈ as, P a := by
  induction s generalizing as with
  | done => cases hs; simp
  | fail => cases hs
  | note n s ih => rw [drain_note] at hs; exact ih () h hs
  | row a s ih =>
    rw [drain_row] at hs
    obtain ⟨as', hs', rfl⟩ := Result.map_eq_ok.1 hs
    exact List.forall_mem_cons.2 ⟨h.1, ih () h.2 hs'⟩

theorem filterMap_congr {f g : α → Result (Option β)} (h : s.All P) (hfg : ∀ a, P a → f a = g a) :
    s.filterMap f = s.filterMap g := by
  induction s with
  | done | fail => rfl
  | note n s ih => exact congrArg _ (funext fun u => ih u h)
  | row a s ih =>
    rw [Scan.filterMap, Scan.filterMap, hfg a h.1]
    split
    · exact congrArg _ (funext fun u => ih u h.2)
    · exact ih () h.2
    · rfl

theorem map_congr {f g : α → Result β} (h : s.All P) (hfg : ∀ a, P a → f a = g a) :
    s.map f = s.map g :=
  h.filterMap_congr fun a ha => by rw [hfg a ha]

theorem filter_congr {f g : α → Result Bool} (h : s.All P) (hfg : ∀ a, P a → f a = g a) :
    s.filter f = s.filter g :=
  h.filterMap_congr fun a ha => by rw [hfg a ha]

theorem bind_congr {f g : α → Scan β} (h : s.All P) (hfg : ∀ a, P a → f a = g a) :
    s.bind f = s.bind g := by
  induction s with
  | done | fail => rfl
  | note n s ih => exact congrArg _ (funext fun u => ih u h)
  | row a s ih =>
    rw [bind_row, bind_row, hfg a h.1]
    exact congrArg _ (funext fun u => ih u h.2)

end All

theorem all_bind {f : α → Scan β} (h : ∀ a, (f a).All Q) (s : Scan α) : (s.bind f).All Q := by
  induction s with
  | done | fail => trivial
  | note n s ih => exact ih ()
  | row a s ih =>
    rw [bind_row]
    exact (h a).append (ih ())

end Scan

/-! ### The rows of joins -/

variable {columns : List Column} {scope scope' : Scope}

theorem all_nestedLoop (partners : Row → Logged (Unit → Scan Row)) (left : Unit → Scan Row) :
    (nestedLoop columns partners left).All (·.columns = columns) :=
  Scan.all_bind (fun _ => Scan.all_map (fun _ _ h => (Row.make_eq_ok h).1) _) _

theorem all_probeTable (rightKeys : List Expr) (table : HashTable) (left : Keyed) :
    (probeTable scope columns rightKeys table left).All (·.columns = columns) := by
  unfold probeTable
  split
  · next rows hrows =>
    refine Scan.all_ofList fun row hrow => ?_
    obtain ⟨os, hos, rfl⟩ := Result.filterMapM_eq_ok hrows
    clear hrows
    generalize table.lookup left.key = rights at hos
    induction hos with
    | nil => cases hrow
    | @cons right o rights os ho _ ih =>
      rcases List.mem_cons.1 (List.reduceOption_mem_iff.1 hrow) with rfl | hrow
      · obtain ⟨key, -, ho⟩ := Result.bind_eq_ok.1 ho
        obtain ⟨equal, -, ho⟩ := Result.bind_eq_ok.1 ho
        cases equal
        · cases ho
        · obtain ⟨row', hrow', heq⟩ := Result.map_eq_ok.1 ho
          cases heq
          exact (Row.make_eq_ok hrow').1
      · exact ih (List.reduceOption_mem_iff.2 hrow)
  · trivial

theorem all_buildThen {probe : HashTable → Scan Row} {P : Row → Prop}
    (h : ∀ table, (probe table).All P) (table : HashTable) (s : Scan Keyed) :
    (buildThen probe table s).All P := by
  induction s generalizing table with
  | done => exact h table
  | fail => trivial
  | note n s ih => exact ih () table
  | row x s ih => exact ih () (table.add x)

theorem all_hashJoin (pairs : List KeyPair) (left right : Unit → Scan Row) :
    (hashJoin scope columns pairs left right).All (·.columns = columns) :=
  all_buildThen (fun _ => Scan.all_bind (fun _ => all_probeTable _ _ _) _) _ _

section
variable {join : Row → Row → Result Row} {P : Row → Prop}

theorem all_mergeGroup (hjoin : ∀ l r row, join l r = .ok row → P row) (left first : Keyed)
    {next : (Unit → Scan Keyed) → Scan Row} (hnext : ∀ s, (next s).All P) (right : Scan Keyed) :
    (mergeGroup join left first next right).All P := by
  induction right with
  | done => exact hnext _
  | fail => trivial
  | note n s ih => exact ih ()
  | row x s ih =>
    rw [mergeGroup]
    split
    · exact Scan.all_push (hjoin _ _) (ih ())
    · exact hnext _

theorem all_mergeFrom (hjoin : ∀ l r row, join l r = .ok row → P row) (kept : Bool)
    (notes : List Note) (right : Unit → Scan Keyed) (group : Option MergeGroup)
    (left : Scan Keyed) : (mergeFrom join kept notes right group left).All P := by
  induction left generalizing notes right group with
  | done => exact Scan.all_withNotes (Scan.all_probe _) notes
  | fail e => exact Scan.all_withNotes (s := fun _ => .fail e) trivial notes
  | note n s ih => exact Scan.all_withNotes (s := fun _ => .note n _) (ih () [] right group) notes
  | row x s ih =>
    have hgroup (g : MergeGroup) : (Scan.push (join x.row g.first.row) fun _ =>
        mergeGroup join x g.first (fun beyond => mergeFrom join kept [] beyond (some g) (s ()))
          (g.rest ())).All P :=
      Scan.all_push (hjoin _ _) (all_mergeGroup hjoin _ _ (fun _ => ih () _ _ _) _)
    rw [mergeFrom]
    dsimp only
    split
    · exact Scan.all_withNotes (hgroup _) notes
    · split
      · exact Scan.all_withNotes (s := fun _ => .fail _) trivial _
      · exact Scan.all_withNotes (s := fun _ => .done) trivial _
      · split
        · exact ih () _ _ _
        · refine Scan.all_withNotes ?_ _
          split
          · exact hgroup ⟨_, _⟩
          · trivial

end

theorem all_mergeJoin (pairs : List KeyPair) (left : Unit → Scan Row) (right : Opened) :
    (mergeJoin scope columns pairs left right).All (·.columns = columns) :=
  all_mergeFrom (fun _ _ _ h => (Row.make_eq_ok h).1) _ _ _ _ _

section
variable {keys : List Expr} {P : Row → Prop} {left right : Unit → Scan Row}

theorem Scan.All.keyed {s : Scan Row} (h : s.All P) :
    (s.keyed scope keys).All fun x => P x.row := by
  refine h.filterMap fun row x hrow hx => ?_
  obtain ⟨o, -, hx⟩ := Result.bind_eq_ok.1 hx
  cases o <;> cases hx
  exact hrow

theorem Scan.All.keyed_congr {s : Scan Row} (h : s.All P)
    (hkey : ∀ row, P row → joinKey scope row keys = joinKey scope' row keys) :
    s.keyed scope keys = s.keyed scope' keys :=
  h.filterMap_congr fun row hrow => by rw [hkey row hrow]

/-- Every row in the table satisfies the condition. -/
def HashTable.Holds (P : Row → Prop) (table : HashTable) : Prop :=
  ∀ key, ∀ e ∈ table.groups.entries key, ∀ row ∈ e.2, P row

theorem HashTable.holds_empty : HashTable.Holds P {} := by
  intro key e he
  rw [KeyMap.entries_empty] at he
  cases he

theorem HashTable.Holds.add {table : HashTable} (h : table.Holds P) {x : Keyed} (hx : P x.row) :
    (table.add x).Holds P := by
  intro key e he row hrow
  simp only [HashTable.add, KeyMap.entries_upsert] at he
  split at he
  · rcases KeyMap.mem_upsertEntry he with he | ⟨o, ho, he⟩
    · exact h _ e he row hrow
    · rw [he] at hrow
      rcases List.mem_cons.1 hrow with rfl | hrow
      · exact hx
      · cases o with
        | none => simp at hrow
        | some d => exact h _ d (ho d rfl) row hrow
  · exact h key e he row hrow

theorem HashTable.Holds.lookup {table : HashTable} (h : table.Holds P) (key : List Value) :
    ∀ row ∈ table.lookup key, P row := by
  intro row hrow
  rw [HashTable.lookup, List.mem_reverse, KeyMap.find?] at hrow
  cases hfind : (table.groups.entries key).find? fun e => sameKeys e.1 key with
  | none => simp [hfind] at hrow
  | some e =>
    rw [hfind] at hrow
    exact h key e (List.mem_of_find?_eq_some hfind) row hrow

theorem buildThen_congr {probe probe' : HashTable → Scan Row} {s : Scan Keyed}
    (hs : s.All fun x => P x.row)
    (h : ∀ table : HashTable, table.Holds P → probe table = probe' table)
    {table : HashTable} (ht : table.Holds P) :
    buildThen probe table s = buildThen probe' table s := by
  induction s generalizing table with
  | done => exact congrArg _ (funext fun _ => h table ht)
  | fail => rfl
  | note n s ih => exact congrArg _ (funext fun u => ih u hs ht)
  | row x s ih => exact ih () hs.2 (ht.add hs.1)

theorem nestedLoop_congr {partners partners' : Row → Logged (Unit → Scan Row)}
    (hl : (left ()).All P) (h : ∀ row, P row → partners row = partners' row) :
    nestedLoop columns partners left = nestedLoop columns partners' left :=
  hl.bind_congr fun row hrow => by rw [h row hrow]

theorem hashJoin_congr {P' : Row → Prop} {pairs : List KeyPair} (hl : (left ()).All P')
    (hr : (right ()).All P)
    (hleft : ∀ row, P' row → joinKey scope row (pairs.map KeyPair.left) =
      joinKey scope' row (pairs.map KeyPair.left))
    (hright : ∀ row, P row → joinKey scope row (pairs.map KeyPair.right) =
      joinKey scope' row (pairs.map KeyPair.right)) :
    hashJoin scope columns pairs left right = hashJoin scope' columns pairs left right := by
  unfold hashJoin
  dsimp only
  rw [hl.keyed_congr hleft, hr.keyed_congr hright]
  refine buildThen_congr hr.keyed (fun table ht => ?_) HashTable.holds_empty
  refine (Scan.all_true _).bind_congr fun x _ => ?_
  have heach : joinEach scope columns (pairs.map KeyPair.right) x (table.lookup x.key) =
      joinEach scope' columns (pairs.map KeyPair.right) x (table.lookup x.key) :=
    Result.filterMapM_congr fun row hrow => by rw [hright row (ht.lookup x.key row hrow)]
  rw [probeTable, probeTable, heach]

theorem mergeJoin_congr {P' : Row → Prop} {pairs : List KeyPair} {right : Opened}
    (hl : (left ()).All P') (hr : (right.scan ()).All P)
    (hleft : ∀ row, P' row → joinKey scope row (pairs.map KeyPair.left) =
      joinKey scope' row (pairs.map KeyPair.left))
    (hright : ∀ row, P row → joinKey scope row (pairs.map KeyPair.right) =
      joinKey scope' row (pairs.map KeyPair.right)) :
    mergeJoin scope columns pairs left right = mergeJoin scope' columns pairs left right := by
  unfold mergeJoin
  rw [hl.keyed_congr hleft, hr.keyed_congr hright]

end

end RelPlan

import RelPlan.Proofs.HashScanners
import RelPlan.Proofs.LoopPairs
import RelPlan.Proofs.MergeRows
import RelPlan.Proofs.MergeScanners

/-!
# Joins and nested loops

Scans that drain are joined as a nested loop joins what they drain to, in its order.  A hash join
looks up the key of each left row in the table of all right rows (`result_drain_hashJoin`).  A
merge join has at hand the right rows of one group and those beyond it, and left rows that are
still to come find all their partners there (`MergeHolds`, `result_drain_mergeFrom`).  Both are
pulled row by row and come to an end (`hashJoin_eq_loopJoin`, `mergeJoin_eq_loopJoin`).
-/

namespace RelPlan

section
variable {scope : Scope} {columns : List Column} {pairs : List KeyPair} {es : List Expr}
  {L R : List Row} {left right : Unit → Scan Row} {join : Row → Row → Result Row}

theorem result_drain_keyed {s : Scan Row} {rows : List Row} (h : s.drain.result = .ok rows)
    (hes : HasExactKeys scope es rows) :
    (s.keyed scope es).drain.result = .ok (keyedRows scope es rows) := by
  refine Scan.result_drain_filterMap (fun row hrow => ?_) h
  obtain ⟨key?, hkey⟩ := hes.joinKey hrow
  rw [hkey]
  rfl

/-! ### Hash joins -/

theorem result_drain_buildThen {probe : HashTable → Scan Row} {s : Scan Keyed} {xs : List Keyed}
    (h : s.drain.result = .ok xs) (table : HashTable) :
    (buildThen probe table s).drain.result =
      (probe (xs.foldl (fun table x => table.add x) table)).drain.result := by
  induction s generalizing xs table with
  | done =>
    cases h
    rw [buildThen, Scan.drain_note]
    rfl
  | fail e => cases h
  | note n s ih =>
    rw [Scan.drain_note] at h
    rw [buildThen, Scan.drain_note]
    exact ih () h table
  | row x s ih =>
    obtain ⟨xs, rfl, hrest⟩ := Scan.result_drain_row h
    exact ih () hrest _

theorem joinEach_eq_joinAll {x : Keyed} {rights : List Row} (hx : ∀ v ∈ x.key, v.isNull = false)
    (h : ∀ r ∈ rights, joinKey scope r es = .ok (some x.key)) :
    joinEach scope columns es x rights =
      joinAll (fun l r => l.concat r columns) (rights.map (x.row, ·)) := by
  induction rights with
  | nil => rfl
  | cons r rights ih =>
    obtain ⟨hr, hrights⟩ := List.forall_mem_cons.1 h
    rw [List.map_cons, joinAll_cons, ← ih hrights, joinEach, List.filterMapM_cons, ← joinEach, hr]
    simp only [Result.ok_bind, Option.getD_some, keysEqual_self hx, if_true]
    cases x.row.concat r columns <;> rfl

theorem result_drain_probeTable (table : HashTable) (x : Keyed) :
    (probeTable scope columns es table x).drain.result =
      joinEach scope columns es x (table.lookup x.key) := by
  rw [probeTable]
  cases joinEach scope columns es x (table.lookup x.key) with
  | error e => rfl
  | ok rows =>
    dsimp only
    rw [Scan.drain_ofList]
    rfl

/-- In the table of all right rows a left row finds its partners. -/
theorem result_drain_probeTable_foldl {x : Keyed}
    (hl : HasExactKeys scope (pairs.map KeyPair.left) L)
    (hr : HasExactKeys scope (pairs.map KeyPair.right) R)
    (hx : x ∈ keyedRows scope (pairs.map KeyPair.left) L) :
    (probeTable scope columns (pairs.map KeyPair.right)
      ((keyedRows scope (pairs.map KeyPair.right) R).foldl (fun table y => table.add y) {})
      x).drain.result =
    joinAll (fun l r => l.concat r columns)
      (keyPartners (keyedRows scope (pairs.map KeyPair.right) R) x) := by
  obtain ⟨hrow, hkey⟩ := mem_keyedRows.1 hx
  have hexact : ∀ y ∈ keyedRows scope (pairs.map KeyPair.right) R, ∀ v ∈ y.key, v.isExact := by
    intro y hy
    obtain ⟨hrow, hkey⟩ := mem_keyedRows.1 hy
    exact (hr.isKey hrow hkey).exact
  rw [result_drain_probeTable,
    HashTable.lookup_foldl_of_exact {} hexact (hl.isKey hrow hkey).exact, HashTable.lookup_empty,
    List.nil_append, joinEach_eq_joinAll (not_null_of_joinKey hkey), keyPartners, List.map_map]
  · rfl
  · intro r hr
    obtain ⟨y, hy, rfl⟩ := List.mem_map.1 hr
    obtain ⟨hy, heq⟩ := List.mem_filter.1 hy
    rw [(mem_keyedRows.1 hy).2, of_decide_eq_true heq]

theorem result_drain_hashJoin (hL : (left ()).drain.result = .ok L)
    (hR : (right ()).drain.result = .ok R)
    (hl : HasExactKeys scope (pairs.map KeyPair.left) L)
    (hr : HasExactKeys scope (pairs.map KeyPair.right) R) :
    (hashJoin scope columns pairs left right).drain.result =
      joinAll (fun l r => l.concat r columns)
        ((keyedRows scope (pairs.map KeyPair.left) L).flatMap
          (keyPartners (keyedRows scope (pairs.map KeyPair.right) R))) := by
  show (buildThen _ {} _).drain.result = _
  rw [result_drain_buildThen (result_drain_keyed hR hr),
    Scan.result_drain_bind (result_drain_keyed hL hl),
    Result.mapM_congr fun x hx => result_drain_probeTable_foldl hl hr hx, joinAll_flatMap]

end

/-! ### Merge joins -/

/-- A row with its key as a record with it. -/
def Keyed.mark (y : Keyed) : KeyedRecord := (y.row.record, y.key)

/-- The rows after those with the key. -/
def keyedBeyond (key : List Value) (R : List Keyed) : List Keyed :=
  R.filter fun y => orderKeys y.key key = .gt

section
variable {n : Nat} {join : Row → Row → Result Row} {x y first : Keyed} {R R₁ R₂ T base : List Keyed}
  {qs : List (Row × Row)} {s : Scan Keyed} {t : Unit → Scan Keyed} {group : Option MergeGroup}
  {next : (Unit → Scan Keyed) → Scan Row} {key : List Value}

theorem keyPartners_keyedBeyond (hlt : orderKeys key x.key = .lt) :
    keyPartners (keyedBeyond key R) x = keyPartners R x := by
  rw [keyPartners, keyPartners, keyedBeyond, List.filter_filter]
  congr 1
  refine List.filter_congr fun y _ => ?_
  by_cases heq : y.key = x.key
  · have hgt : orderKeys y.key key = .gt := by rw [heq, ← orderKeys_swap, hlt]; rfl
    simp [heq, heq ▸ hgt]
  · simp [heq]

theorem Keyed.lt_of_lt_head (h : Ascending n ((y :: R).map Keyed.mark)) (hkey : IsKey n key)
    (hlt : orderKeys key y.key = .lt) : ∀ z ∈ y :: R, orderKeys key z.key = .lt := by
  intro z hz
  exact Ascending.lt_of_lt_head h hkey hlt z.mark (List.mem_map_of_mem hz)

theorem Keyed.head_le (h : Ascending n ((y :: R).map Keyed.mark)) :
    ∀ z ∈ y :: R, (orderKeys y.key z.key).isLE := by
  intro z hz
  exact Ascending.head_le h z.mark (List.mem_map_of_mem hz)

theorem Keyed.key_ne_of_lt (h : ∀ z ∈ R, orderKeys key z.key = .lt) : ∀ z ∈ R, z.key ≠ key := by
  intro z hz heq
  have hlt := h z hz
  rw [heq, orderKeys_self] at hlt
  cases hlt

/-- What a search for the first of the rows to come passes over has no partner among them. -/
theorem keyPartners_of_passed (hT : Ascending n ((x :: T).map Keyed.mark))
    (hR : Ascending n ((R₁ ++ R₂).map Keyed.mark))
    (hpassed : ∀ y ∈ R₁, (orderKeys x.key y.key != .gt) = false) :
    ∀ x' ∈ x :: T, keyPartners (R₁ ++ R₂) x' = keyPartners R₂ x' := by
  intro x' hx'
  rw [keyPartners_append, keyPartners_eq_nil, List.nil_append]
  intro y hy
  have hykey : IsKey n y.key := hR.keys y.mark (List.mem_map_of_mem (by simp [hy]))
  have hgt : orderKeys x.key y.key = .gt := by simpa using hpassed y hy
  have hlt : orderKeys y.key x.key = .lt := by rw [← orderKeys_swap, hgt]; rfl
  exact (Keyed.key_ne_of_lt (Keyed.lt_of_lt_head hT hykey hlt) x' hx').symm

theorem result_drain_mergeGroup (hs : s.drain.result = .ok R)
    (hR : Ascending n ((first :: R).map Keyed.mark)) (hx : x.key = first.key)
    (hnext : ∀ t : Unit → Scan Keyed, (t ()).drain.result = .ok (keyedBeyond first.key R) →
      (next t).drain.result = joinAll join qs) :
    (mergeGroup join x first next s).drain.result = joinAll join (keyPartners R x ++ qs) := by
  induction s generalizing R with
  | done =>
    cases hs
    exact hnext _ rfl
  | fail e => cases hs
  | note n s ih =>
    rw [Scan.drain_note] at hs
    rw [mergeGroup, Scan.drain_note]
    exact ih () hs hR hnext
  | row y s ih =>
    obtain ⟨R, rfl, hrest⟩ := Scan.result_drain_row hs
    have hfirst : IsKey n first.key := hR.head
    have hy : IsKey n y.key := hR.tail.head
    rw [mergeGroup]
    split
    · next hsame =>
      have heq : y.key = first.key := by
        rw [← orderKeys_eq_iff hy hfirst]
        simpa [sameGroup] using hsame
      have hbeyond : keyedBeyond first.key (y :: R) = keyedBeyond first.key R := by
        rw [keyedBeyond, List.filter_cons_of_neg, keyedBeyond]
        simp [heq]
      rw [hbeyond] at hnext
      rw [keyPartners_cons_of_eq (heq.trans hx.symm), List.cons_append, joinAll_cons,
        Scan.result_drain_push, ih () hrest (hR.sublist ?_) hnext]
      exact ((List.sublist_cons_self y R).cons_cons first).map Keyed.mark
    · next hother =>
      have hne : orderKeys y.key first.key ≠ .eq := by simpa [sameGroup] using hother
      have hlt : orderKeys first.key y.key = .lt :=
        orderKeys_lt_of_isLE_of_ne (Keyed.head_le hR y (by simp)) hne
      have habove := Keyed.lt_of_lt_head hR.tail hfirst hlt
      have hbeyond : keyedBeyond first.key (y :: R) = y :: R := by
        refine List.filter_eq_self.2 fun z hz => ?_
        rw [← orderKeys_swap, habove z hz]
        rfl
      rw [keyPartners_eq_nil (hx ▸ Keyed.key_ne_of_lt habove), List.nil_append]
      refine hnext _ ?_
      rw [hbeyond]
      exact hs

/-- What the join has at hand of the right rows `base`: all of them, or their first group and those
beyond it. -/
inductive MergeHolds (base : List Keyed) (t : Unit → Scan Keyed) : Option MergeGroup → Prop
  | ahead (h : (t ()).drain.result = .ok base) : MergeHolds base t none
  | within {g : MergeGroup} {R : List Keyed} (hbase : base = g.first :: R)
      (hrest : (g.rest ()).drain.result = .ok R)
      (hbeyond : (t ()).drain.result = .ok (keyedBeyond g.first.key R)) :
      MergeHolds base t (some g)

theorem MergeHolds.exists_drain (h : MergeHolds base t group) :
    ∃ rows, (t ()).drain.result = .ok rows := by
  cases h with
  | ahead h => exact ⟨_, h⟩
  | within _ _ hbeyond => exact ⟨_, hbeyond⟩

/-- Among the right rows from the head of the right input on there are all partners of the left rows
to come, unless the first of them belongs to the group. -/
theorem MergeHolds.exists_ahead (h : MergeHolds base t group)
    (hbase : Ascending n (base.map Keyed.mark)) (hT : Ascending n ((x :: T).map Keyed.mark))
    (hlow : ∀ g ∈ group, (orderKeys g.first.key x.key).isLE)
    (hne : ∀ g ∈ group, sameGroup x g.first = false) :
    ∃ R, (t ()).drain.result = .ok R ∧ Ascending n (R.map Keyed.mark) ∧
      ∀ x' ∈ x :: T, keyPartners base x' = keyPartners R x' := by
  cases h with
  | ahead h => exact ⟨base, h, hbase, fun _ _ => rfl⟩
  | @within g R hbase' hrest hbeyond =>
    subst hbase'
    have hfirst : IsKey n g.first.key := hbase.head
    have hother : orderKeys x.key g.first.key ≠ .eq := by simpa [sameGroup] using hne g rfl
    have hlt : orderKeys g.first.key x.key = .lt :=
      orderKeys_lt_of_isLE_of_ne (hlow g rfl) hother
    have habove : ∀ z ∈ x :: T, orderKeys g.first.key z.key = .lt :=
      Keyed.lt_of_lt_head hT hfirst hlt
    refine ⟨_, hbeyond, hbase.tail.sublist (List.filter_sublist.map Keyed.mark), fun x' hx' => ?_⟩
    rw [keyPartners_keyedBeyond (habove x' hx'), ← List.singleton_append, keyPartners_append,
      keyPartners_eq_nil, List.nil_append]
    intro y hy
    obtain rfl := List.mem_singleton.1 hy
    exact (Keyed.key_ne_of_lt habove x' hx').symm

theorem result_drain_joinGroup {g : MergeGroup} (hrest : (g.rest ()).drain.result = .ok R)
    (hR : Ascending n ((g.first :: R).map Keyed.mark)) (hx : x.key = g.first.key)
    (hnext : ∀ t : Unit → Scan Keyed, (t ()).drain.result = .ok (keyedBeyond g.first.key R) →
      (next t).drain.result = joinAll join qs) :
    (Scan.push (join x.row g.first.row) fun _ =>
      mergeGroup join x g.first next (g.rest ())).drain.result =
        joinAll join (keyPartners (g.first :: R) x ++ qs) := by
  rw [keyPartners_cons_of_eq hx.symm, List.cons_append, joinAll_cons, Scan.result_drain_push,
    result_drain_mergeGroup hrest hR hx hnext]

/-- Every left row gets the partners that it has among the right rows at hand. -/
theorem result_drain_mergeFrom {notes : List Note} (hs : s.drain.result = .ok T)
    (hT : Ascending n (T.map Keyed.mark)) (hbase : Ascending n (base.map Keyed.mark))
    (hholds : MergeHolds base t group)
    (hlow : ∀ g ∈ group, ∀ x ∈ T, (orderKeys g.first.key x.key).isLE) :
    (mergeFrom join true notes t group s).drain.result =
      joinAll join (T.flatMap (keyPartners base)) := by
  induction s generalizing T notes t group base with
  | done =>
    cases hs
    obtain ⟨rows, hrows⟩ := hholds.exists_drain
    rw [mergeFrom, Scan.result_drain_withNotes, Scan.result_drain_probe hrows]
    rfl
  | fail e => cases hs
  | note n s ih =>
    rw [Scan.drain_note] at hs
    rw [mergeFrom, Scan.result_drain_withNotes, Scan.drain_note]
    exact ih () hs hT hbase hholds hlow
  | row x s ih =>
    obtain ⟨T, rfl, hrest⟩ := Scan.result_drain_row hs
    have hx : IsKey n x.key := hT.head
    rw [mergeFrom, List.flatMap_cons]
    dsimp only
    split
    · next g hg =>
      obtain ⟨rfl, hsame⟩ := Option.filter_eq_some_iff.1 hg
      cases hholds with
      | @within _ R hbase' hgroup hbeyond =>
        subst hbase'
        have hfirst : IsKey n g.first.key := hbase.head
        have hkey : x.key = g.first.key := by
          rw [← orderKeys_eq_iff hx hfirst]
          simpa [sameGroup] using hsame
        rw [Scan.result_drain_withNotes]
        refine result_drain_joinGroup hgroup hbase hkey fun t ht => ?_
        refine ih () hrest hT.tail hbase (.within rfl hgroup ht) fun g' hg' x' hx' => ?_
        cases hg'
        exact hlow g rfl x' (List.mem_cons_of_mem _ hx')
    · next hg =>
      obtain ⟨R, hR, hasc, hpartners⟩ := hholds.exists_ahead hbase hT
        (fun g hg => hlow g hg x List.mem_cons_self)
        (fun g hg' => by simpa using Option.filter_eq_none_iff.1 hg g hg')
      rw [← List.flatMap_cons, List.flatMap_congr hpartners]
      rcases Scan.seek_spec hR with
        ⟨hno, hfound⟩ | ⟨before, y, after, rfl, hno, hy, hfound, hafter⟩
      · rw [← List.append_nil R] at hasc ⊢
        rw [hfound]
        dsimp only
        rw [Scan.result_drain_withNotes, List.flatMap_congr (keyPartners_of_passed hT hasc hno)]
        have hnone : (x :: T).flatMap (keyPartners []) = [] :=
          List.flatMap_eq_nil_iff.2 fun _ _ => rfl
        rw [hnone]
        rfl
      · rw [hfound]
        dsimp only
        rw [List.flatMap_congr (keyPartners_of_passed hT hasc hno)]
        have hasc' : Ascending n ((y :: after).map Keyed.mark) :=
          hasc.sublist ((List.sublist_append_right _ _).map Keyed.mark)
        split
        · next hlt =>
          have habove : ∀ z ∈ y :: after, orderKeys x.key z.key = .lt :=
            Keyed.lt_of_lt_head hasc' hx hlt
          rw [List.flatMap_cons, keyPartners_eq_nil (Keyed.key_ne_of_lt habove), List.nil_append]
          refine ih () hrest hT.tail hasc' (.ahead ?_) (by simp)
          rw [Scan.drain_row, hafter]
          rfl
        · next hlt =>
          have hyk : IsKey n y.key := hasc'.head
          have hkey : x.key = y.key := by
            rw [← orderKeys_eq_iff hx hyk]
            have hle : orderKeys x.key y.key ≠ .gt := by simpa using hy
            cases h : orderKeys x.key y.key <;> simp_all
          rw [Scan.result_drain_withNotes, if_pos rfl, List.flatMap_cons]
          refine result_drain_joinGroup (g := ⟨y, _⟩) hafter hasc' hkey fun t ht => ?_
          refine ih () hrest hT.tail hasc' (.within rfl hafter ht) fun g' hg' x' hx' => ?_
          cases hg'
          show (orderKeys y.key x'.key).isLE
          rw [← hkey]
          exact Keyed.head_le hT x' (List.mem_cons_of_mem _ hx')

end

section
variable {scope : Scope} {columns : List Column} {pairs : List KeyPair} {es : List Expr}
  {L R rows : List Row} {left : Unit → Scan Row} {n : Nat}

theorem HasExactKeys.ascending (h : HasExactKeys scope es rows) (hes : es.length = n)
    (hsorted : (keyedRows scope es rows).Pairwise fun x y => (orderKeys x.key y.key).isLE) :
    Ascending n ((keyedRows scope es rows).map Keyed.mark) := by
  refine ⟨fun c hc => ?_, List.pairwise_map.2 hsorted⟩
  obtain ⟨x, hx, rfl⟩ := List.mem_map.1 hc
  obtain ⟨hrow, hkey⟩ := mem_keyedRows.1 hx
  rw [← hes]
  exact h.isKey hrow hkey

theorem result_drain_mergeJoin {right : Opened} (hkept : right.kept = true)
    (hL : (left ()).drain.result = .ok L) (hR : (right.scan ()).drain.result = .ok R)
    (hl : HasExactKeys scope (pairs.map KeyPair.left) L)
    (hr : HasExactKeys scope (pairs.map KeyPair.right) R)
    (hsorted : (keyedRows scope (pairs.map KeyPair.left) L).Pairwise fun x y =>
      (orderKeys x.key y.key).isLE)
    (hsorted' : (keyedRows scope (pairs.map KeyPair.right) R).Pairwise fun x y =>
      (orderKeys x.key y.key).isLE) :
    (mergeJoin scope columns pairs left right).drain.result =
      joinAll (fun l r => l.concat r columns)
        ((keyedRows scope (pairs.map KeyPair.left) L).flatMap
          (keyPartners (keyedRows scope (pairs.map KeyPair.right) R))) := by
  rw [mergeJoin, hkept]
  exact result_drain_mergeFrom (result_drain_keyed hL hl)
    (hl.ascending (pairs.length_map KeyPair.left) hsorted)
    (hr.ascending (pairs.length_map KeyPair.right) hsorted')
    (.ahead (result_drain_keyed hR hr)) (by simp)

/-- A hash join comes to its end with the rows of a nested loop over all pairs of rows whose keys
are equal in a comparison, or with the failure of the first of them that does not fit. -/
theorem hashJoin_eq_loopJoin (scope : Scope) (columns : List Column) (pairs : List KeyPair)
    (left right : Unit → Scan Row) (hL : (left ()).drain.result = .ok L)
    (hR : (right ()).drain.result = .ok R)
    (hl : HasExactKeys scope (pairs.map KeyPair.left) L)
    (hr : HasExactKeys scope (pairs.map KeyPair.right) R) :
    Pull.collect (HashScanner.turn scope columns pairs) { left, build := some right } =
        .some (hashJoin scope columns pairs left right).drain ∧
      (hashJoin scope columns pairs left right).drain.result =
        loopJoin (KeyPair.equated scope pairs) columns L R ∧
      ((∀ l ∈ L, ∀ r ∈ R, l.values.length + r.values.length = columns.length) →
        ∃ rows, loopJoin (KeyPair.equated scope pairs) columns L R = .ok rows ∧
          (∀ row ∈ rows, row.columns = columns) ∧
          rows.map Row.values = (loopPairs (KeyPair.equated scope pairs) L R).map fun lr =>
            lr.1.values ++ lr.2.values) ∧
      ∀ lr ∈ loopPairs (KeyPair.equated scope pairs) L R, ∀ p ∈ pairs,
        p.left.evalRow scope lr.1 ≠ .ok .null ∧ p.right.evalRow scope lr.2 ≠ .ok .null := by
  refine ⟨HashScanner.collect_eq scope columns pairs left right, ?_, loopJoin_of_fits, ?_⟩
  · rw [result_drain_hashJoin hL hR hl hr, loopJoin]
    rw [flatMap_keyPartners fun l hlmem r hrmem => KeyPair.equated_iff hl hr hlmem hrmem]
  · rintro lr hlr
    exact KeyPair.ne_null_of_equated (rel_of_mem_loopPairs hlr)

/-- A row of a side, with its key and its number. -/
def sideRow (side : String) (key : Value) (number : Int64) : Row :=
  ⟨[⟨some side, "k", .int, false⟩, ⟨some side, "n", .int, false⟩], [key, .int number], none, rfl⟩

def sidePairs : List KeyPair := [⟨.ref ⟨some "l", "k"⟩, .ref ⟨some "r", "k"⟩⟩]

def sideColumns : List Column := (sideRow "l" .null 0).columns ++ (sideRow "r" .null 0).columns

/-- Keys repeat and are missing on both sides. -/
theorem hashJoin_eq_loopJoin_repeated :
    let L := [sideRow "l" (.int 2) 1, sideRow "l" .null 2, sideRow "l" (.int 1) 3,
      sideRow "l" (.int 2) 4]
    let R := [sideRow "r" (.int 1) 1, sideRow "r" (.int 2) 2, sideRow "r" .null 3,
      sideRow "r" (.int 2) 4]
    HasExactKeys .empty (sidePairs.map KeyPair.left) L ∧
      HasExactKeys .empty (sidePairs.map KeyPair.right) R ∧
      ∃ drained rows, Pull.collect (HashScanner.turn .empty sideColumns sidePairs)
          { left := fun _ => .ofList L, build := some fun _ => .ofList R } = .some drained ∧
        drained.result = .ok rows ∧
        rows.map Row.values = [[.int 2, .int 1, .int 2, .int 2], [.int 2, .int 1, .int 2, .int 4],
          [.int 1, .int 3, .int 1, .int 1], [.int 2, .int 4, .int 2, .int 2],
          [.int 2, .int 4, .int 2, .int 4]] := by
  intro L R
  have hl : HasExactKeys .empty (sidePairs.map KeyPair.left) L := by decide
  have hr : HasExactKeys .empty (sidePairs.map KeyPair.right) R := by decide
  obtain ⟨hcollect, hresult, hfits, -⟩ := hashJoin_eq_loopJoin .empty sideColumns sidePairs
    (fun _ => .ofList L) (fun _ => .ofList R) rfl rfl hl hr
  obtain ⟨rows, hrows, -, hvalues⟩ := hfits (by decide)
  exact ⟨hl, hr, _, rows, hcollect, hresult.trans hrows, hvalues.trans (by decide)⟩

/-- A merge join of rows sorted by their keys, of which the right ones are kept, comes to its end
with the rows of a nested loop over all pairs of rows whose keys are equal in the order, or with the
failure of the first of them that does not fit. -/
theorem mergeJoin_eq_loopJoin (scope : Scope) (columns : List Column) (pairs : List KeyPair)
    (left : Unit → Scan Row) (right : Opened) (hkept : right.kept = true)
    (hL : (left ()).drain.result = .ok L) (hR : (right.scan ()).drain.result = .ok R)
    (hl : HasExactKeys scope (pairs.map KeyPair.left) L)
    (hr : HasExactKeys scope (pairs.map KeyPair.right) R)
    (hsorted : (keyedRows scope (pairs.map KeyPair.left) L).Pairwise fun x y =>
      (orderKeys x.key y.key).isLE)
    (hsorted' : (keyedRows scope (pairs.map KeyPair.right) R).Pairwise fun x y =>
      (orderKeys x.key y.key).isLE) :
    Pull.collect (MergeScanner.turn scope columns pairs) { left, right := .start right } =
        .some (mergeJoin scope columns pairs left right).drain ∧
      (mergeJoin scope columns pairs left right).drain.result =
        loopJoin (KeyPair.tied scope pairs) columns L R ∧
      ((∀ l ∈ L, ∀ r ∈ R, l.values.length + r.values.length = columns.length) →
        ∃ rows, loopJoin (KeyPair.tied scope pairs) columns L R = .ok rows ∧
          (∀ row ∈ rows, row.columns = columns) ∧
          rows.map Row.values = (loopPairs (KeyPair.tied scope pairs) L R).map fun lr =>
            lr.1.values ++ lr.2.values) := by
  refine ⟨MergeScanner.collect_eq scope columns pairs left right, ?_, loopJoin_of_fits⟩
  rw [result_drain_mergeJoin hkept hL hR hl hr hsorted hsorted', loopJoin]
  rw [flatMap_keyPartners fun l hlmem r hrmem => KeyPair.tied_iff hl hr hlmem hrmem]

/-- A group that two left rows go through, and one that the right input ends with. -/
theorem mergeJoin_eq_loopJoin_repeated :
    let L := [sideRow "l" (.int 1) 1, sideRow "l" .null 2, sideRow "l" (.int 1) 3,
      sideRow "l" (.int 2) 4, sideRow "l" (.int 3) 5]
    let R := [sideRow "r" (.int 0) 1, sideRow "r" (.int 1) 2, sideRow "r" .null 3,
      sideRow "r" (.int 1) 4, sideRow "r" (.int 3) 5, sideRow "r" (.int 3) 6]
    (HasExactKeys .empty (sidePairs.map KeyPair.left) L ∧
      HasExactKeys .empty (sidePairs.map KeyPair.right) R) ∧
      ((keyedRows .empty (sidePairs.map KeyPair.left) L).Pairwise fun x y =>
        (orderKeys x.key y.key).isLE) ∧
      ((keyedRows .empty (sidePairs.map KeyPair.right) R).Pairwise fun x y =>
        (orderKeys x.key y.key).isLE) ∧
      ∃ drained rows, Pull.collect (MergeScanner.turn .empty sideColumns sidePairs)
          { left := fun _ => .ofList L, right := .start (.ofRows R) } = .some drained ∧
        drained.result = .ok rows ∧
        rows.map Row.values = [[.int 1, .int 1, .int 1, .int 2], [.int 1, .int 1, .int 1, .int 4],
          [.int 1, .int 3, .int 1, .int 2], [.int 1, .int 3, .int 1, .int 4],
          [.int 3, .int 5, .int 3, .int 5], [.int 3, .int 5, .int 3, .int 6]] := by
  intro L R
  have hl : HasExactKeys .empty (sidePairs.map KeyPair.left) L := by decide
  have hr : HasExactKeys .empty (sidePairs.map KeyPair.right) R := by decide
  have hsorted : (keyedRows .empty (sidePairs.map KeyPair.left) L).Pairwise fun x y =>
    (orderKeys x.key y.key).isLE := by decide
  have hsorted' : (keyedRows .empty (sidePairs.map KeyPair.right) R).Pairwise fun x y =>
    (orderKeys x.key y.key).isLE := by decide
  obtain ⟨hcollect, hresult, hfits⟩ := mergeJoin_eq_loopJoin .empty sideColumns sidePairs
    (fun _ => .ofList L) (.ofRows R) rfl rfl rfl hl hr hsorted hsorted'
  obtain ⟨rows, hrows, -, hvalues⟩ := hfits (by decide)
  exact ⟨⟨hl, hr⟩, hsorted, hsorted', _, rows, hcollect, hresult.trans hrows,
    hvalues.trans (by decide)⟩

end

end RelPlan

import RelPlan.Join.Merge
import RelPlan.Proofs.JoinRows

/-!
# The rows of merge joins

A merge join remembers the first row of the group that the left row before was joined with, and what
came after it.  On the right records from that row on, or from the head of the right input if there
is no group, it is ready for every left record that is not below (`MergeReady`), and gives each the
partners that it has among them.  So on inputs sorted by their keys it gives every left record its
partners (`shows_mergeJoin`).
-/

namespace RelPlan

variable {columns left right : List Column} {scope : Scope} {n : Nat}

namespace Scan

variable {α β : Type} {R : α → β → Prop} {s : Scan α} {T : List β} {p : α → Bool} {q : β → Bool}

theorem Shows.seekAfter_none (h : Shows R s T) (hpq : ∀ a b, R a b → p a = q b) {ns : List Note}
    (hs : (seekAfter p ns s).1.result = .ok none) : ∀ b ∈ T, q b = false := by
  induction h generalizing ns with
  | done => simp
  | fail e T => cases hs
  | note _ ih => exact ih hs
  | row hab _ ih =>
    rw [seekAfter] at hs
    split at hs
    · cases hs
    · next hp => exact List.forall_mem_cons.2 ⟨by rw [← hpq _ _ hab]; simpa using hp, ih hs⟩

/-- The first row that passes stands for the first member that does, and what is left for the
members after it. -/
theorem Shows.seekAfter_some (h : Shows R s T) (hpq : ∀ a b, R a b → p a = q b) {ns : List Note}
    {a : α} (hs : (seekAfter p ns s).1.result = .ok (some a)) : ∃ T₁ b T₂, T = T₁ ++ b :: T₂ ∧
      (∀ c ∈ T₁, q c = false) ∧ q b = true ∧ R a b ∧ Shows R ((seekAfter p ns s).2 ()) T₂ := by
  induction h generalizing ns with
  | done => cases hs
  | fail e T => cases hs
  | note _ ih => exact ih hs
  | @row a' b s T hab h ih =>
    rw [seekAfter] at hs ⊢
    split at hs
    · next hp =>
      cases hs
      rw [if_pos hp]
      exact ⟨[], b, T, rfl, by simp, by rw [← hpq _ _ hab, hp], hab, h⟩
    · next hp =>
      rw [if_neg hp]
      obtain ⟨T₁, b', T₂, rfl, hno, hq, hab', hrest⟩ := ih hs
      refine ⟨b :: T₁, b', T₂, rfl, List.forall_mem_cons.2 ⟨?_, hno⟩, hq, hab', hrest⟩
      rw [← hpq _ _ hab]
      simpa using hp

theorem Shows.push {r : Result α} {b : β} {rest : Unit → Scan α} (hr : ∀ a, r = .ok a → R a b)
    (h : Shows R (rest ()) T) : Shows R (push r rest) (b :: T) := by
  cases r with
  | ok a => exact .row (hr a rfl) h
  | error e => exact .fail e _

end Scan

/-- Keys of one length, without binary64 data, none of which comes after a greater one. -/
structure Ascending (n : Nat) (R : List KeyedRecord) : Prop where
  keys : ∀ c ∈ R, IsKey n c.2
  pairwise : R.Pairwise fun b c => (orderKeys b.2 c.2).isLE

namespace Ascending

variable {R R₁ R₂ T : List KeyedRecord} {b c : KeyedRecord}

theorem sublist (h : Ascending n R) (hs : R₁.Sublist R) : Ascending n R₁ :=
  ⟨fun c hc => h.keys c (hs.mem hc), h.pairwise.sublist hs⟩

theorem tail (h : Ascending n (c :: R)) : Ascending n R := h.sublist (List.sublist_cons_self c R)

theorem head (h : Ascending n (c :: R)) : IsKey n c.2 := h.keys c List.mem_cons_self

theorem head_le (h : Ascending n (c :: R)) : ∀ d ∈ c :: R, (orderKeys c.2 d.2).isLE := by
  intro d hd
  rcases List.mem_cons.1 hd with rfl | hd
  · rw [orderKeys_self]; rfl
  · exact (List.pairwise_cons.1 h.pairwise).1 d hd

theorem lt_of_lt_head (h : Ascending n (c :: R)) {key : List Value} (hk : IsKey n key)
    (hlt : orderKeys key c.2 = .lt) : ∀ d ∈ c :: R, orderKeys key d.2 = .lt := fun d hd =>
  orderKeys_lt_of_lt_of_isLE hk h.head (h.keys d hd) hlt (h.head_le d hd)

theorem ne_of_lt_head (h : Ascending n (c :: R)) {key : List Value} (hk : IsKey n key)
    (hlt : orderKeys key c.2 = .lt) : ∀ d ∈ c :: R, d.2 ≠ key := by
  intro d hd heq
  have := h.lt_of_lt_head hk hlt d hd
  rw [heq, orderKeys_self] at this
  cases this

end Ascending

/-- The records after those with the key. -/
def beyond (key : List Value) (R : List KeyedRecord) : List KeyedRecord :=
  R.filter fun c => orderKeys c.2 key = .gt

section
variable {R R₁ R₂ T : List KeyedRecord} {b c y : KeyedRecord} {key : List Value}

theorem partnersOf_append (h : ∀ c ∈ R₁, c.2 ≠ b.2) :
    partnersOf (R₁ ++ R₂) b = partnersOf R₂ b := by
  have hnone : (R₁.filter fun c => c.2 = b.2) = [] :=
    List.filter_eq_nil_iff.2 fun c hc => by simpa using h c hc
  rw [partnersOf, partnersOf, List.filter_append, hnone, List.nil_append]

theorem partnersOf_eq_nil (h : ∀ c ∈ R, c.2 ≠ b.2) : partnersOf R b = [] := by
  rw [← List.append_nil R, partnersOf_append h]
  rfl

theorem partnersOf_beyond (hlt : orderKeys key b.2 = .lt) :
    partnersOf (beyond key R) b = partnersOf R b := by
  rw [partnersOf, partnersOf, beyond, List.filter_filter]
  congr 2
  refine List.filter_congr fun c _ => ?_
  by_cases heq : c.2 = b.2
  · have hgt : orderKeys c.2 key = .gt := by rw [heq, ← orderKeys_swap, hlt]; rfl
    simp [heq, heq ▸ hgt]
  · simp [heq]

end

/-! ### Groups -/

section
variable {l x first : Keyed} {b c : KeyedRecord} {R T base : List KeyedRecord} {Z : List Record}
  {next : (Unit → Scan Keyed) → Scan Row} {s : Scan Keyed}

theorem shows_mergeGroup (hl : l.Stands left b) (hfirst : IsKey n first.key)
    (hs : s.Shows (Keyed.Stands right) R) (hR : Ascending n R)
    (hge : ∀ c ∈ R, (orderKeys first.key c.2).isLE)
    (hnext : ∀ t : Unit → Scan Keyed, (t ()).Shows (Keyed.Stands right) (beyond first.key R) →
      (next t).Shows (Row.Stands columns) Z) (hb : b.2 = first.key) :
    (mergeGroup (fun l r => l.concat r columns) l first next s).Shows (Row.Stands columns)
      (partnersOf R b ++ Z) := by
  induction hs with
  | done => exact hnext _ .done
  | fail e T => exact .fail e _
  | note _ ih => exact .note (ih hR hge hnext)
  | @row x c s R hx hs ih =>
    obtain ⟨hc, hrest⟩ := List.forall_mem_cons.1 hge
    have hkey : IsKey n c.2 := hR.head
    rw [mergeGroup]
    split
    · next hsame =>
      have heq : c.2 = first.key := by
        rw [← hx.2, ← orderKeys_eq_iff (hx.2 ▸ hkey) hfirst]
        simpa [sameGroup] using hsame
      have hbeyond : beyond first.key (c :: R) = beyond first.key R := by
        rw [beyond, List.filter_cons_of_neg, beyond]
        simp [heq]
      have hpartners : partnersOf (c :: R) b = b.1.append c.1 :: partnersOf R b := by
        simp [partnersOf, heq, hb]
      rw [hpartners, List.cons_append]
      refine .push (fun pair hpair => hl.1.concat hx.1 hpair) (ih hR.tail hrest ?_)
      rwa [hbeyond] at hnext
    · next hother =>
      have hne : orderKeys c.2 first.key ≠ .eq := by simpa [sameGroup, hx.2] using hother
      have hlt : orderKeys first.key c.2 = .lt := orderKeys_lt_of_isLE_of_ne hc hne
      have hbeyond : beyond first.key (c :: R) = c :: R := by
        refine List.filter_eq_self.2 fun d hd => ?_
        rw [← orderKeys_swap, hR.lt_of_lt_head hfirst hlt d hd]
        rfl
      rw [partnersOf_eq_nil fun d hd => hb ▸ hR.ne_of_lt_head hfirst hlt d hd, List.nil_append]
      exact hnext _ (by rw [hbeyond]; exact .row hx hs)

/-- What the join has at hand of the right records `base`: all of them, or their first group and
those beyond it. -/
inductive MergeReady (right : List Column) (base : List KeyedRecord) (t : Unit → Scan Keyed) :
    Option MergeGroup → Prop
  | ahead (h : (t ()).Shows (Keyed.Stands right) base) : MergeReady right base t none
  | within {g : MergeGroup} {y : KeyedRecord} {R : List KeyedRecord} (hbase : base = y :: R)
      (hfirst : g.first.Stands right y) (hrest : (g.rest ()).Shows (Keyed.Stands right) R)
      (hbeyond : (t ()).Shows (Keyed.Stands right) (beyond y.2 R)) :
      MergeReady right base t (some g)

theorem shows_joinGroup {g : MergeGroup} {y : KeyedRecord} (hx : x.Stands left b)
    (hfirst : g.first.Stands right y) (hrest : (g.rest ()).Shows (Keyed.Stands right) R)
    (hR : Ascending n (y :: R)) (hkey : b.2 = y.2)
    (hnext : ∀ t : Unit → Scan Keyed, (t ()).Shows (Keyed.Stands right) (beyond y.2 R) →
      (next t).Shows (Row.Stands columns) Z) :
    (Scan.push (x.row.concat g.first.row columns) fun _ =>
      mergeGroup (fun l r => l.concat r columns) x g.first next (g.rest ())).Shows
        (Row.Stands columns) (partnersOf (y :: R) b ++ Z) := by
  have hpartners : partnersOf (y :: R) b = b.1.append y.1 :: partnersOf R b := by
    simp [partnersOf, hkey]
  rw [hpartners, List.cons_append]
  refine .push (fun pair hpair => hx.1.concat hfirst.1 hpair) ?_
  refine shows_mergeGroup hx (hfirst.2 ▸ hR.head) hrest hR.tail ?_ ?_ (hkey.trans hfirst.2.symm)
  · rw [hfirst.2]
    exact fun c hc => hR.head_le c (List.mem_cons_of_mem _ hc)
  · rw [hfirst.2]
    exact hnext

/-- Among the right records from the head of the right input on there are all partners of the left
records to come, unless the first of them belongs to the group. -/
theorem MergeReady.exists_shows {t : Unit → Scan Keyed} {group : Option MergeGroup}
    (h : MergeReady right base t group) (hbase : Ascending n base) (hT : Ascending n (b :: T))
    (hlow : ∀ g ∈ group, (orderKeys g.first.key b.2).isLE)
    (hne : ∀ g ∈ group, orderKeys b.2 g.first.key ≠ .eq) :
    ∃ R, (t ()).Shows (Keyed.Stands right) R ∧ Ascending n R ∧
      ∀ b' ∈ b :: T, partnersOf base b' = partnersOf R b' := by
  cases h with
  | ahead h => exact ⟨base, h, hbase, fun _ _ => rfl⟩
  | @within g y R hbase' hfirst hrest hbeyond =>
    subst hbase'
    have hlt : orderKeys y.2 b.2 = .lt := by
      rw [← hfirst.2]
      exact orderKeys_lt_of_isLE_of_ne (hlow g rfl) (hne g rfl)
    refine ⟨beyond y.2 R, hbeyond, hbase.tail.sublist List.filter_sublist, fun b' hb' => ?_⟩
    rw [partnersOf_beyond (hT.lt_of_lt_head hbase.head hlt b' hb')]
    refine @partnersOf_append [y] _ _ fun c hc => ?_
    obtain rfl := List.mem_singleton.1 hc
    exact (hT.ne_of_lt_head hbase.head hlt b' hb').symm

/-- Every left record gets the partners that it has among the right records at hand. -/
theorem shows_mergeFrom {kept : Bool} {notes : List Note} {t : Unit → Scan Keyed}
    {group : Option MergeGroup} (hs : s.Shows (Keyed.Stands left) T) (hT : Ascending n T)
    (hbase : Ascending n base) (hready : MergeReady right base t group)
    (hlow : ∀ g ∈ group, ∀ b ∈ T, (orderKeys g.first.key b.2).isLE) :
    (mergeFrom (fun l r => l.concat r columns) kept notes t group s).Shows (Row.Stands columns)
      (T.flatMap (partnersOf base)) := by
  induction hs generalizing notes t group base with
  | done => exact .withNotes (Scan.shows_probe _) notes
  | fail e T => exact .withNotes (s := fun _ => .fail e) (.fail e _) notes
  | note _ ih => exact .withNotes (.note (ih hT hbase hready hlow)) notes
  | @row x b s T hx hs ih =>
    have hle (b' : KeyedRecord) (hb' : b' ∈ T) : (orderKeys b.2 b'.2).isLE :=
      hT.head_le b' (List.mem_cons_of_mem _ hb')
    rw [mergeFrom]
    dsimp only
    split
    · next g hg =>
      obtain ⟨rfl, hsame⟩ := Option.filter_eq_some_iff.1 hg
      cases hready with
      | @within _ y R hbase' hfirst hrest hbeyond =>
        subst hbase'
        have hkey : b.2 = y.2 := by
          rw [← orderKeys_eq_iff hT.head hbase.head, ← hx.2, ← hfirst.2]
          simpa [sameGroup] using hsame
        refine .withNotes ?_ notes
        refine shows_joinGroup hx hfirst hrest hbase hkey fun t ht => ?_
        refine ih hT.tail hbase (.within rfl hfirst hrest ht) fun g' hg' => ?_
        cases hg'
        rw [hfirst.2, ← hkey]
        exact hle
    · next hg =>
      have hne : ∀ g ∈ group, orderKeys b.2 g.first.key ≠ .eq := fun g hg' => by
        simpa [sameGroup, hx.2] using Option.filter_eq_none_iff.1 hg g hg'
      obtain ⟨R, hR, hasc, hpartners⟩ := hready.exists_shows hbase hT
        (fun g hg' => hlow g hg' b List.mem_cons_self) hne
      rw [List.flatMap_congr hpartners]
      have hpq (a : Keyed) (c : KeyedRecord) (hac : a.Stands right c) :
          (orderKeys x.key a.key != .gt) = (orderKeys b.2 c.2 != .gt) := by rw [hx.2, hac.2]
      -- what the search passes over has no partner among the rows to come
      have hbelow (c : KeyedRecord) (hc : c ∈ R) (hgt : (orderKeys b.2 c.2 != .gt) = false)
          (b' : KeyedRecord) (hb' : b' ∈ b :: T) : c.2 ≠ b'.2 := by
        have hgt : orderKeys b.2 c.2 = .gt := by simpa using hgt
        have hlt : orderKeys c.2 b.2 = .lt := by rw [← orderKeys_swap, hgt]; rfl
        exact (hT.ne_of_lt_head (hasc.keys c hc) hlt b' hb').symm
      split
      · exact .withNotes (s := fun _ => .fail _) (.fail _ _) _
      · next hfound =>
        have hnone := hR.seekAfter_none hpq hfound
        have hnil : (b :: T).flatMap (partnersOf R) = [] :=
          List.flatMap_eq_nil_iff.2 fun b' hb' => partnersOf_eq_nil fun c hc =>
            hbelow c hc (hnone c hc) b' hb'
        rw [hnil]
        exact .withNotes (s := fun _ => .done) .done _
      · next y hfound =>
        obtain ⟨R₁, c, R₂, rfl, hno, hq, hy, hrest⟩ := hR.seekAfter_some hpq hfound
        have hasc' : Ascending n (c :: R₂) := hasc.sublist (List.sublist_append_right _ _)
        have hpartners : ∀ b' ∈ b :: T, partnersOf (R₁ ++ c :: R₂) b' = partnersOf (c :: R₂) b' :=
          fun b' hb' => partnersOf_append fun d hd =>
            hbelow d (List.mem_append_left _ hd) (hno d hd) b' hb'
        rw [List.flatMap_congr hpartners]
        split
        · next hlt =>
          rw [hx.2, hy.2] at hlt
          rw [List.flatMap_cons, partnersOf_eq_nil (hasc'.ne_of_lt_head hT.head hlt),
            List.nil_append]
          exact ih hT.tail hasc' (.ahead (.row hy hrest)) (by simp)
        · next hlt =>
          have hkey : b.2 = c.2 := by
            rw [← orderKeys_eq_iff hT.head hasc'.head]
            rw [hx.2, hy.2] at hlt
            cases h : orderKeys b.2 c.2 <;> simp_all
          refine .withNotes ?_ _
          split
          · refine shows_joinGroup (g := ⟨y, _⟩) hx hy hrest hasc' hkey fun t ht => ?_
            refine ih hT.tail hasc' (.within rfl hy hrest ht) fun g' hg' => ?_
            cases hg'
            show ∀ b' ∈ T, (orderKeys y.key b'.2).isLE
            rw [hy.2, ← hkey]
            exact hle
          · exact .fail _ _

end

theorem ascending_keyedRecords {es : List Expr} {outer : Env} {T : List Record}
    (hes : ∀ e ∈ es, e.isExact) (ho : outer.IsExact) (hT : ∀ x ∈ T, x.Fits columns)
    (hs : (SortOrder.ascending es).Sorted (T.map (Record.env columns outer))) :
    Ascending es.length (keyedRecords columns outer es T) := by
  refine ⟨fun c hc => isKey_of_mem_keyedRecords hes ho hT hc, ?_⟩
  refine List.Pairwise.filterMap _ (fun x y hle b hb c hc => ?_) (List.pairwise_map.1 hs.pairwise)
  obtain ⟨key, hkey, rfl⟩ := Option.map_eq_some_iff.1 hb
  obtain ⟨key', hkey', rfl⟩ := Option.map_eq_some_iff.1 hc
  obtain ⟨vs, ws, hv, hw, hle⟩ := hle
  have hunique {env : Env} {key vs : List Value} (hkey : worthKey env es = some key)
      (hv : (SortOrder.ascending es).Worths env vs) : vs = key :=
    List.right_unique_forall₂' (fun _ _ _ h h' => Option.some.inj (h.symm.trans h'))
      (SortOrder.worths_ascending.1 hv) ((worthKey_eq_some hkey).imp fun _ _ h => h.1)
  rw [hunique hkey hv, hunique hkey' hw] at hle
  rwa [SortOrder.compare, SortOrder.compareBy_ascending] at hle
  exact (worthKey_eq_some hkey).length_eq.symm

theorem shows_mergeJoin {pairs : List KeyPair} {T U : List Record} {s : Unit → Scan Row}
    {opened : Opened} (hscope : scope.IsExact)
    (hl : ∀ p ∈ pairs, p.left.isExact) (hr : ∀ p ∈ pairs, p.right.isExact)
    (hT : ∀ x ∈ T, x.Fits left) (hU : ∀ y ∈ U, y.Fits right)
    (hTs : (Join.leftKeys pairs).Sorted (T.map (Record.env left scope.env)))
    (hUs : (Join.rightKeys pairs).Sorted (U.map (Record.env right scope.env)))
    (hs : (s ()).Shows (Row.Stands left) T) (ht : (opened.scan ()).Shows (Row.Stands right) U) :
    (mergeJoin scope columns pairs s opened).Shows (Row.Stands columns)
      ((keyedRecords left scope.env (pairs.map KeyPair.left) T).flatMap
        (partnersOf (keyedRecords right scope.env (pairs.map KeyPair.right) U))) := by
  have hlkeys : ∀ e ∈ pairs.map KeyPair.left, e.isExact := List.forall_mem_map.2 hl
  have hrkeys : ∀ e ∈ pairs.map KeyPair.right, e.isExact := List.forall_mem_map.2 hr
  have hleft := ascending_keyedRecords hlkeys hscope.env hT hTs
  have hright := ascending_keyedRecords hrkeys hscope.env hU hUs
  rw [List.length_map] at hleft hright
  exact shows_mergeFrom (shows_keyed hs) hleft hright (.ahead (shows_keyed ht)) (by simp)

end RelPlan

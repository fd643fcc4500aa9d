import RelPlan.Proofs.AccessRows
import RelPlan.Proofs.Conjunctions
import RelPlan.Proofs.MetRanges
import RelPlan.Proofs.OperandOrder
import RelPlan.Proofs.ScanAll
import RelPlan.Proofs.TracedTables

/-!
# What an index enforces

The conjuncts that an index takes over are not checked again on the rows that it gives.  Over any
data such a conjunct is true of each of these rows, but for three things (`AccessPath.Slips`): a key
that is compared with a value of another kind is found in an order in which any two values stand,
integers that round to `2 ^ 63` are equal to a bound and still differ, and a conjunct that writes
the operands of an `AND` or `OR` in another order than the key can fail where the key has a value.
-/

namespace RelPlan

variable {scope : Scope} {row : Row} {e k key other : Expr} {v w : Value} {cs : List Expr}
  {c : Comparison}

namespace AccessPath

variable {t : Table} {i : Index}

/-- The conjunct compares what is the key up to the order of operands, on either side, with an
expression that reads nothing of the table. -/
structure Compares (t : Table) (key k : Expr) (c : Comparison) (other e : Expr) : Prop where
  equiv : k.equiv key
  ranged : c ≠ .ne
  foreign : foreign t other = .ok true
  shape : e = .binary (.cmp c) k other ∨ e = .binary (.cmp c.flip) other k

def Asked (t : Table) (cs : List Expr) (scope : Scope) (key : Expr) (w : Value) : Prop :=
  ∃ e ∈ cs, ∃ k c other, Compares t key k c other e ∧ other.eval scope = .ok w

theorem compares_of_isOf {r : Restriction} (h : r.IsOf (foreign t) key) :
    ∃ k, Compares t key k r.comparison r.other r.conjunct := by
  obtain ⟨k, hk, hs⟩ := h.shape
  exact ⟨k, hk, h.ranged, h.foreign, hs⟩

/-- The comparison is evaluated, unless the key is written in another order or the values are not of
one kind. -/
theorem Compares.evalRow (h : Compares t key k c other e) (hcol : row.columns = t.columns)
    (hkey : ∀ r ∈ key.refs, ∃ j, resolve t.columns r = .ok (some j))
    (hv : key.evalRow .empty row = .ok v) (hw : other.eval scope = .ok w)
    (hvn : v.isNull = false) (hwn : w.isNull = false) :
    e.evalRow scope row = .ok (.bool (c.holds (v.order w))) ∨
      (key.connects ∧ ∃ cause, k.evalRow scope row = .error cause) ∨
      v.rank ≠ w.rank ∧ ∃ left right,
        e.evalRow scope row = .error (.typeMismatch .comparison left right) := by
  have hother : other.evalRow scope row = .ok w := by
    rw [Expr.evalRow_of_readsAny (hcol ▸ foreign_eq_true h.foreign), hw]
  have hv : key.evalRow scope row = .ok v := by
    rw [Expr.evalRow_of_resolves (hcol ▸ hkey), hv]
  match hk : k.evalRow scope row with
  | .error cause =>
    refine .inr (.inl ⟨?_, cause, rfl⟩)
    by_contra hplain
    have hok := Expr.evalWith_of_equiv h.equiv (by simpa using hplain) hv
    exact absurd (hok.symm.trans hk) (by simp)
  | .ok v' =>
    -- the two ways to write the key are worth the same, so they can only differ in failing
    obtain rfl : v = v' := by
      have hworth := Expr.worth_eq_of_equiv (row.env scope) h.equiv
      rw [Expr.worth_of_evalRow hv, Expr.worth_of_evalRow hk] at hworth
      exact (Option.some.inj hworth).symm
    have heval : e.evalRow scope row = c.apply v w ∨ e.evalRow scope row = c.flip.apply w v := by
      rcases h.shape with rfl | rfl
      · refine .inl ?_
        show (k.evalRow scope row >>= fun a => other.evalRow scope row >>= fun b => c.apply a b) = _
        rw [hk, hother]
        rfl
      · refine .inr ?_
        show (other.evalRow scope row >>= fun a => k.evalRow scope row >>= fun b =>
          c.flip.apply a b) = _
        rw [hk, hother]
        rfl
    by_cases hr : v.rank = w.rank
    · refine .inl ?_
      rcases heval with heval | heval
      · rw [heval, Comparison.apply_of_rank_eq hvn hwn hr]
      · rw [heval, Comparison.apply_of_rank_eq hwn hvn hr.symm, ← Value.order_swap,
          Comparison.holds_flip]
    · refine .inr (.inr ⟨hr, ?_⟩)
      rcases heval with heval | heval
      · exact ⟨_, _, heval.trans (Comparison.apply_of_rank_ne hvn hwn hr)⟩
      · exact ⟨_, _, heval.trans (Comparison.apply_of_rank_ne hwn hvn (Ne.symm hr))⟩

end AccessPath

/-! ### Conjuncts that an index has taken over -/

def BaseIndex.keys : BaseIndex → List Expr
  | ordered i => i.keys
  | hashed i => [i.key]

namespace AccessPath

variable {t : Table} {i : BaseIndex} {o : OrderedIndex}

/-- How a conjunct that an index has taken over is not true of a row that the index gives. -/
inductive Slips (t : Table) (i : BaseIndex) (cs : List Expr) (scope : Scope) (row : Row)
    (e : Expr) : Prop
  /-- The key has a value; written in another order of the operands of an `AND` or `OR`, as in the
  conjunct, it fails. -/
  | exchanged {key k other : Expr} {c : Comparison} {v : Value} {cause : QueryError}
      (mem : key ∈ i.keys) (compares : Compares t key k c other e) (connects : key.connects)
      (value : key.evalRow .empty row = .ok v) (fails : k.evalRow scope row = .error cause)
  /-- Nothing is known of the kind of the key, and it is not that of its other side. -/
  | kinds {o : OrderedIndex} {key k other : Expr} {c : Comparison} {v w : Value}
      (ordered : i = .ordered o) (mem : key ∈ o.keys) (compares : Compares t key k c other e)
      (type : key.typeIn t.columns = .any) (value : key.evalRow .empty row = .ok v)
      (asked : other.eval scope = .ok w) (differ : v.rank ≠ w.rank)
      (fails : ∃ left right, e.evalRow scope row = .error (.typeMismatch .comparison left right))
  /-- Among the key and its other sides are integers, and the datum `2 ^ 63` to which they round. -/
  | rounds {o : OrderedIndex} {key k other : Expr} {c : Comparison} {v x y z : Value}
      (ordered : i = .ordered o) (mem : key ∈ o.keys) (compares : Compares t key k c other e)
      (value : key.evalRow .empty row = .ok v) (straddles : Value.Straddles x y z)
      (among : ∀ u ∈ [x, y, z], u = v ∨ Asked t cs scope key u)
      (isFalse : e.evalRow scope row = .ok (.bool false))

/-- Where the order is transitive, a value that meets a range passes the conjuncts that the range
was made of. -/
theorem passes_of_met {S : Value → Prop} {type : DataType} {rs : List Restriction}
    (hcol : row.columns = t.columns)
    (hkey : ∀ r ∈ key.refs, ∃ j, resolve t.columns r = .ok (some j))
    (hv : key.evalRow .empty row = .ok v) (hof : ∀ r ∈ rs, r.IsOf (foreign t) key)
    (hmet : (ColumnRange.ofRestrictions rs).Met scope type v) (hS : Value.Chained S) (hSv : S v)
    (hother : ∀ r ∈ rs, ∀ w, r.other.eval scope = .ok w → S w) :
    ∀ r ∈ rs, r.conjunct.Passes (row.env scope) := by
  intro r hr
  have hbounds {b : Bound} (hb : b ∈ (ColumnRange.ofRestrictions rs).lower ++
      (ColumnRange.ofRestrictions rs).upper) := ColumnRange.mem_bounds_ofRestrictions hb
  have hrespected := hmet.respected hS hSv fun b hb w hw => by
    obtain ⟨r', hr', heq⟩ := hbounds hb
    exact hother r' hr' w (heq ▸ hw)
  have hrespected : (ColumnRange.ofRestrictions rs).Respected (row.env scope) v := by
    refine (ColumnRange.respected_congr fun b hb => ?_).2 hrespected
    obtain ⟨r', hr', heq⟩ := hbounds hb
    rw [heq]
    exact Expr.worth_of_readsAny (hcol ▸ foreign_eq_true (hof r' hr').foreign)
  have hworth : key.worth (row.env scope) = some v := by
    rw [Expr.worth_of_resolves (hcol ▸ hkey), Expr.worth_of_evalRow hv]
  exact (ColumnRange.respected_ofRestrictions (List.ne_nil_of_mem hr) hof hworth).1 hrespected r hr

/-- Nothing slips through where the kinds of the keys are known, their operands are all evaluated,
and neither a key nor what it is compared with is the datum `2 ^ 63`. -/
theorem not_slips
    (hkeys : ∀ key ∈ i.keys, key.connects = false ∧ key.typeIn t.columns ≠ .any ∧
      key.evalRow .empty row ≠ .ok (.float Binary64.twoPow63) ∧
      ¬ Asked t cs scope key (.float Binary64.twoPow63)) : ¬ Slips t i cs scope row e := by
  rintro (⟨hmem, -, hconnects, -, -⟩ | ⟨rfl, hmem, -, htype, -⟩ |
    ⟨rfl, hmem, -, hvalue, hstraddles, hamong, -⟩)
  · exact absurd hconnects (by simp [(hkeys _ hmem).1])
  · exact (hkeys _ hmem).2.1 htype
  · obtain ⟨m, n, rfl, rfl, rfl, -⟩ := hstraddles
    obtain ⟨-, -, hne, hnot⟩ := hkeys _ hmem
    rcases hamong (.float Binary64.twoPow63) (by simp) with rfl | hasked
    exacts [hne hvalue, hnot hasked]

theorem true_or_slips_of_met {rs : List Restriction} {r : Restriction}
    (hcol : row.columns = t.columns)
    (hfits : Table.checkTypes t.columns row.values = .ok ()) (hmem : key ∈ o.keys)
    (hkey : ∀ r ∈ key.refs, ∃ j, resolve t.columns r = .ok (some j))
    (hv : key.evalRow .empty row = .ok v)
    (hrs : Restriction.ofConjuncts (foreign t) key cs = .ok rs)
    (hmet : (ColumnRange.ofRestrictions rs).Met scope (key.typeIn t.columns) v) (hr : r ∈ rs) :
    r.conjunct.evalRow scope row = .ok (.bool true) ∨
      Slips t (.ordered o) cs scope row r.conjunct := by
  have hof := Restriction.isOf_of_ofConjuncts hrs
  obtain ⟨k, hcompares⟩ := compares_of_isOf (hof r hr).2
  obtain ⟨w, hw, hwn, hwtype⟩ := hmet.eval_other hr hcompares.ranged
  rcases hcompares.evalRow hcol hkey hv hw hmet.notNull hwn with
    heval | ⟨hconnects, cause, hfail⟩ | ⟨hrank, hfail⟩
  · cases hholds : r.comparison.holds (v.order w) with
    | true => exact .inl (by rw [heval, hholds])
    | false =>
      rw [hholds] at heval
      refine .inr ?_
      -- were the order transitive on what is compared here, the bounds would bear the conjunct out
      let S : Value → Prop := fun u => u = v ∨ Asked t cs scope key u
      have hnot : ¬ Value.Chained S := by
        intro hS
        have hpasses := passes_of_met hcol hkey hv (fun r hr => (hof r hr).2) hmet hS (.inl rfl)
          (fun r' hr' w hw => ?_) r hr
        · rw [Expr.Passes, Expr.worth_of_evalRow heval] at hpasses
          cases hpasses
        · obtain ⟨hmem', hof'⟩ := hof r' hr'
          obtain ⟨k', hcompares'⟩ := compares_of_isOf hof'
          exact .inr ⟨_, hmem', k', _, _, hcompares', hw⟩
      simp only [Value.chained_iff, not_forall, not_not] at hnot
      obtain ⟨x, y, z, hx, hy, hz, hstraddles⟩ := hnot
      exact .rounds rfl hmem hcompares hv hstraddles (by simp [hx, hy, hz, S]) heval
  · exact .inr (.exchanged hmem hcompares hconnects hv hfail)
  · have hany : key.typeIn t.columns = .any := by
      by_contra hknown
      have hvtype : (key.typeIn row.columns).Admits v := Expr.admits_of_evalRow (hcol ▸ hfits) hv
      rw [hcol] at hvtype
      exact hrank ((DataType.rank_eq_of_admits hknown hvtype hmet.notNull).trans
        (DataType.rank_eq_of_admits hknown hwtype hwn).symm)
    exact .inr (.kinds rfl hmem hcompares hany hv hw hrank hfail)

theorem true_or_slips_of_hits {i : HashedIndex} (hcompares : Compares t i.key k .eq other e)
    (hcol : row.columns = t.columns)
    (hkey : ∀ r ∈ i.key.refs, ∃ j, resolve t.columns r = .ok (some j))
    (hv : i.key.evalRow .empty row = .ok v) (hw : other.eval scope = .ok w)
    (hhit : HashedIndex.hits w v) :
    e.evalRow scope row = .ok (.bool true) ∨ Slips t (.hashed i) cs scope row e := by
  obtain ⟨hvn, hwn, horder⟩ := HashedIndex.hits_iff.1 hhit
  rcases hcompares.evalRow hcol hkey hv hw hvn hwn with
    heval | ⟨hconnects, cause, hfail⟩ | ⟨hrank, -⟩
  · exact .inl (by rw [heval, horder]; rfl)
  · exact .inr (.exchanged List.mem_cons_self hcompares hconnects hv hfail)
  · exact absurd (Value.rank_eq_of_order_eq horder) hrank

theorem all_rowsAt {P : Row → Prop} {index : String} {tids : List Nat}
    (h : ∀ tid ∈ tids, ∀ row, t.row tid = some row → P row) : (rowsAt t index tids).All P := by
  induction tids with
  | nil => trivial
  | cons tid tids ih =>
    obtain ⟨htid, htids⟩ := List.forall_mem_cons.1 h
    rw [rowsAt]
    split
    · next row hrow => exact ⟨htid row hrow, ih htids⟩
    · trivial

variable {f : Filter} {p : AccessPath}

/-- The path gives the row although the conjunct, which it enforces, is not true of it. -/
def LetsSlip (p : AccessPath) (f : Filter) (scope : Scope) (row : Row) (e : Expr) : Prop :=
  match p.route with
  | .full => False
  | .index i _ _ _ => Slips p.table i.base f.conjuncts scope row e

theorem mem_enforced {i : Index} {consumed : List Expr}
    (hconsumed : ∀ e ∈ consumed, e ∈ f.conjuncts)
    (h : e ∈ (Filter.union [i.condition, Filter.ofList consumed]).conjuncts) :
    e ∈ consumed ∨ ∃ c ∈ i.condition, e ∈ c.conjuncts := by
  obtain ⟨g, hg, c, hc, he⟩ := Filter.mem_conjuncts_union h
  simp only [List.mem_cons, List.not_mem_nil, or_false] at hg
  rcases hg with rfl | rfl
  · exact .inr ⟨c, hc, he⟩
  · refine .inl ?_
    rwa [Filter.conjuncts_of_mem_ofList hc fun d hd => ?_] at he
    obtain ⟨e', -, hd⟩ := Filter.mem_conjuncts (hconsumed d hd)
    exact Expr.conjuncts_eq_singleton hd

theorem mem_of_consumed {i : Index} {requested : Option SortOrder} {candidate : Candidate}
    (h : AccessPath.candidate t i cs requested = .ok (some candidate)) :
    ∀ e ∈ candidate.consumed, e ∈ cs := by
  obtain ⟨cond, base⟩ := i
  cases base with
  | ordered i =>
    obtain ⟨c, hc, heq⟩ := Result.map_eq_ok.1 h
    cases heq
    obtain ⟨ranges, consumed, dir, ordering, hextract, rfl, -⟩ := orderedCandidate_eq_ok hc
    exact (KeyRange.extractFrom_spec (by simp) hextract).1
  | hashed i =>
    obtain ⟨e, he, probe, -, rfl⟩ := hashedCandidate_eq_some h
    simpa using he

theorem true_or_slips_of_scan {i : Index} {known : List Row} {requested : Option SortOrder}
    {candidate : Candidate} {tids : List Nat} {tid : Nat} (ht : t.Traced known) (hi : i ∈ t.indexes)
    (hc : AccessPath.candidate t i cs requested = .ok (some candidate))
    (hscan : i.scan candidate.probe scope = .ok tids) (hmem : tid ∈ tids)
    (hrow : t.row tid = some row) :
    i.covers row = .ok true ∧ ∀ e ∈ candidate.consumed,
      e.evalRow scope row = .ok (.bool true) ∨ Slips t i.base cs scope row e := by
  have htraces := ht.indexes i hi
  -- no other row has been given the tid, so the entry is that of the row
  have hfound {x : Entry} (hx : x ∈ i.entries) (htid : x.tid = tid) : i.covers row = .ok true ∧
      i.base.entryOf row = .ok x ∧ row.columns = t.columns ∧
      Table.checkTypes t.columns row.values = .ok () := by
    obtain ⟨hentry, hknown⟩ := ht.entryOf hi hx (htid ▸ hrow)
    rcases Index.entryOf_eq_ok.1 hentry with ⟨-, hnone⟩ | ⟨y, hcovers, hy, heq⟩
    · cases hnone
    · cases heq
      exact ⟨hcovers, hy, ht.fits row hknown⟩
  obtain ⟨cond, base⟩ := i
  cases base with
  | ordered i =>
    obtain ⟨c, hc, heq⟩ := Result.map_eq_ok.1 hc
    cases heq
    obtain ⟨ranges, consumed, dir, ordering, hextract, rfl, -⟩ := orderedCandidate_eq_ok hc
    obtain ⟨limits, hlimits, x, hx, htid, hallow⟩ := OrderedIndex.exists_of_mem_scan hscan hmem
    obtain ⟨hcovers, hentry, hcol, hfits⟩ := hfound hx htid
    have htypes : i.checkedTypes = i.keys.map (Expr.typeIn t.columns) := by
      have hsize : i.size ≠ 0 := by
        rw [show i.size = i.tree.toList.length from htraces.size]
        exact (List.length_pos_of_mem hx).ne'
      unfold OrderedIndex.checkedTypes
      rw [if_neg hsize]
      exact htraces.typed
    rw [htypes] at hlimits
    have hvs := Result.mapM_eq_ok.1 (OrderedIndex.entryOf_eq_ok.1 hentry).2
    refine ⟨hcovers, fun e he => ?_⟩
    obtain ⟨key, hkey, v, hv, rs, hrs, hmet, r, hr, rfl⟩ :=
      (KeyRange.met_of_extractFrom hextract hlimits hvs hallow e he).resolve_left (by simp)
    exact true_or_slips_of_met hcol hfits hkey
      (htraces.resolved key (List.mem_append_right _ hkey)) hv hrs hmet hr
  | hashed i =>
    obtain ⟨e, he, probe, hequated, rfl⟩ := hashedCandidate_eq_some hc
    obtain ⟨hforeign, k, hk, hshape⟩ := equated_eq_some hequated
    obtain ⟨w, hw, v, hpair, hhit⟩ := HashedIndex.exists_of_mem_scan hscan hmem
    obtain ⟨hcovers, hentry, hcol, -⟩ := hfound (List.mem_map_of_mem hpair) rfl
    refine ⟨hcovers, fun e' he' => ?_⟩
    obtain rfl := List.mem_singleton.1 he'
    obtain ⟨tid', -, hentry⟩ := Result.bind_eq_ok.1 hentry
    obtain ⟨v', hv, hentry⟩ := Result.bind_eq_ok.1 hentry
    cases hentry
    exact true_or_slips_of_hits ⟨hk, by simp, hforeign, hshape⟩ hcol
      (htraces.resolved i.key (List.mem_append_right _ (by simp))) hv hw hhit

/-- A table `t` of rows under an ordered index with one key. -/
def indexedBy (key : Expr) (columns : List (String × DataType)) (rows : List (List Value)) :
    Table :=
  (Table.run (.addIndex (.ordered "i" [key] false) :: rows.map .insert) (.make "t" columns)).1

/-- `t.a > 5` -/
def aboveFive : Expr := .binary (.cmp .gt) (.ref ⟨some "t", "a"⟩) (.const (.int 5))

/-- Texts stand above all numbers in the index. -/
def mixed : Table :=
  indexedBy (.ref ⟨none, "a"⟩) [("a", .any)] [[.int 3], [.text "x"], [.int 7], [.null]]

theorem grown_mixed : mixed.Grown := ⟨"t", [("a", .any)], _, by decide, rfl⟩

def Enforced (t : Table) (e : Expr) : Prop :=
  ∀ p s, (select t (some e) none {}).result = .ok p → p.scan .empty = .ok s →
    (s ()).All fun row => ∀ c ∈ p.enforced.conjuncts, c.evalRow .empty row = .ok (.bool true)

/-- `t.a >= x AND t.a >= 2⁶³ - 1`, where `x` is the binary64 datum `2⁶³`. -/
def fromTwoPow63 : Expr :=
  .and (.binary (.cmp .ge) (.ref ⟨some "t", "a"⟩) (.const (.float Binary64.twoPow63)))
    (.binary (.cmp .ge) (.ref ⟨some "t", "a"⟩) (.const (.int 9223372036854775807)))

/-- `(t.q AND t.p) = FALSE` -/
def turnedAround : Expr :=
  .binary (.cmp .eq) (.and (.ref ⟨some "t", "q"⟩) (.ref ⟨some "t", "p"⟩)) (.const (.bool false))

end AccessPath

end RelPlan

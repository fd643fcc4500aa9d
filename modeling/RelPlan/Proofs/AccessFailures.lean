import RelPlan.Proofs.AccessRows
import RelPlan.Proofs.Admission
import RelPlan.Proofs.Conjunctions
import RelPlan.Proofs.FoundEntries

/-!
# When access paths fail

Choosing a path fails on no filter without ambiguous names.  Reading the chosen path fails where the
filter does not fail on any stored row only if the path cannot be opened: the expressions that the
index is asked for are evaluated once, before any row is read (`AccessPath.select_safe`).  That
holds over any data but the datum `2 ^ 63`, as a key that was once in an ordered index or as a
bound, so over exact data without exception (`GrownSharp.of_reachable`, `Selected.isSharp`).
-/

namespace RelPlan

namespace Result

variable {α β : Type} {x : Result α} {f : α → Result β}

/-- The computation does not fail. -/
def Succeeds (x : Result α) : Prop := ∃ a, x = .ok a

theorem succeeds_ok (a : α) : Succeeds (.ok a) := ⟨a, rfl⟩

theorem Succeeds.bind (hx : Succeeds x) (hf : ∀ a, Succeeds (f a)) : Succeeds (x >>= f) := by
  obtain ⟨a, rfl⟩ := hx
  exact hf a

theorem Succeeds.ite {p : Prop} [Decidable p] {y : Result α} (hx : Succeeds x) (hy : Succeeds y) :
    Succeeds (if p then x else y) := by
  split
  exacts [hx, hy]

theorem Succeeds.foldlM {g : β → α → Result β} {as : List α} (hg : ∀ b, ∀ a ∈ as, Succeeds (g b a))
    (b : β) : Succeeds (as.foldlM g b) := by
  induction as generalizing b with
  | nil => exact succeeds_ok b
  | cons a as ih =>
    obtain ⟨ha, has⟩ : (∀ b, Succeeds (g b a)) ∧ ∀ b, ∀ a ∈ as, Succeeds (g b a) :=
      ⟨fun b => hg b a (by simp), fun b a' ha' => hg b a' (by simp [ha'])⟩
    exact (ha b).bind fun b' => ih has b'

end Result

open Result

variable {t : Table} {scope : Scope} {f : Filter} {e key : Expr} {cs : List Expr} {i : Index}
  {p : AccessPath} {requested : Option SortOrder}

/-! ### Choosing a path -/

theorem Expr.succeeds_readsAny {columns : List Column} (h : e.Clear columns) :
    Succeeds (e.readsAny columns) := by
  unfold readsAny
  unfold Clear at h
  generalize e.refs = rs at h
  induction rs with
  | nil => exact succeeds_ok _
  | cons r rs ih =>
    obtain ⟨⟨o, ho⟩, hrs⟩ := List.forall_mem_cons.1 h
    rw [anyResolves, ho]
    cases o with
    | none => exact ih hrs
    | some => exact succeeds_ok _

theorem Expr.Clear.of_binary {columns : List Column} {op : BinaryOp} {l r : Expr}
    (h : (binary op l r).Clear columns) : l.Clear columns ∧ r.Clear columns :=
  ⟨fun x hx => h x (by simp [refs, hx]), fun x hx => h x (by simp [refs, hx])⟩

namespace AccessPath

theorem succeeds_foreign (h : e.Clear t.columns) : Succeeds (foreign t e) :=
  (Expr.succeeds_readsAny h).bind fun _ => succeeds_ok _

theorem succeeds_ofConjunct (h : e.Clear t.columns) :
    Succeeds (Restriction.ofConjunct (foreign t) key e) := by
  cases e with
  | binary op l r =>
    obtain ⟨hl, hr⟩ := h.of_binary
    rw [Restriction.ofConjunct_binary]
    refine ((succeeds_foreign hr).ite (succeeds_ok _)).bind fun keyLeft => ?_
    refine ((succeeds_ok _).ite ((succeeds_foreign hl).ite (succeeds_ok _))).bind fun keyRight => ?_
    exact (succeeds_ok _).ite ((succeeds_ok _).ite (succeeds_ok _))
  | const | ref | unary => exact succeeds_ok _

theorem succeeds_ofConjuncts (h : ∀ e ∈ cs, e.Clear t.columns) :
    Succeeds (Restriction.ofConjuncts (foreign t) key cs) := by
  induction cs with
  | nil => exact succeeds_ok _
  | cons e es ih =>
    obtain ⟨he, hes⟩ := List.forall_mem_cons.1 h
    exact (succeeds_ofConjunct he).bind fun _ => (ih hes).bind fun _ => succeeds_ok _

theorem succeeds_extractFrom (h : ∀ e ∈ cs, e.Clear t.columns) (keys consumed : List Expr) :
    Succeeds (KeyRange.extractFrom (foreign t) cs consumed keys) := by
  induction keys generalizing consumed with
  | nil => exact succeeds_ok _
  | cons key keys ih =>
    exact (succeeds_ofConjuncts h).bind fun rs =>
      (succeeds_ok _).ite ((ih _).bind fun _ => succeeds_ok _)

theorem succeeds_equated (h : e.Clear t.columns) : Succeeds (equated t key e) := by
  unfold equated
  split
  · next l r =>
    obtain ⟨hl, hr⟩ := h.of_binary
    rw [← equated, equated_binary]
    refine ((succeeds_foreign hr).ite (succeeds_ok _)).bind fun keyLeft => ?_
    refine ((succeeds_ok _).ite ((succeeds_foreign hl).ite (succeeds_ok _))).bind fun keyRight => ?_
    exact (succeeds_ok _).ite ((succeeds_ok _).ite (succeeds_ok _))
  · exact succeeds_ok _

theorem succeeds_hashedCandidate {i : HashedIndex} (h : ∀ e ∈ cs, e.Clear t.columns) :
    Succeeds (hashedCandidate t i cs) := by
  induction cs with
  | nil => exact succeeds_ok _
  | cons e es ih =>
    obtain ⟨he, hes⟩ := List.forall_mem_cons.1 h
    refine (succeeds_equated he).bind fun probe => ?_
    cases probe with
    | none => exact ih hes
    | some => exact succeeds_ok _

theorem succeeds_candidate (h : ∀ e ∈ cs, e.Clear t.columns) (i : Index) :
    Succeeds (candidate t i cs requested) := by
  unfold candidate
  split
  · next i _ =>
    rw [map_eq_pure_bind]
    refine Succeeds.bind (Succeeds.bind (succeeds_extractFrom h i.keys []) fun x => ?_)
      fun _ => succeeds_ok _
    dsimp only
    split <;> exact succeeds_ok _
  · exact succeeds_hashedCandidate h

theorem succeeds_consider (h : f.Clear t.columns) (weights : AccessWeights) (best : Choice)
    (i : Index) : Succeeds (consider t f requested weights best i).result := by
  unfold consider
  dsimp only
  split
  · exact succeeds_ok _
  · rw [Logged.result_bind]
    refine (succeeds_candidate h.conjuncts i).bind fun c => ?_
    cases c with
    | none => exact succeeds_ok _
    | some c =>
      simp only [Logged.result_bind, Logged.result_note, Result.ok_bind]
      generalize weights.filterWeight * _ + _ = score
      split <;> exact succeeds_ok _

theorem succeeds_select (h : f.Clear t.columns) (order : Option SortOrder)
    (weights : AccessWeights) : Succeeds (select t f order weights).result := by
  unfold select
  simp only [Logged.result_bind, Logged.result_foldlM, Logged.result_note, Logged.result_pure,
    Result.ok_bind]
  exact (Succeeds.foldlM (fun b i _ => succeeds_consider h weights b i) _).bind
    fun _ => succeeds_ok _

end AccessPath

/-- The expression can be evaluated, and its value, if it is not missing, can be compared with those
of the given type. -/
def Expr.ComparableTo (scope : Scope) (type : DataType) (e : Expr) : Prop :=
  ∃ v, e.eval scope = .ok v ∧ (v.isNull ∨ type.compatible v.dataType)

instance (scope : Scope) (type : DataType) (e : Expr) : Decidable (e.ComparableTo scope type) :=
  decidable_of_iff (∃ v ∈ (e.eval scope).toOption, v.isNull ∨ type.compatible v.dataType) <| by
    unfold Expr.ComparableTo
    rcases e.eval scope with err | v <;> simp [Except.toOption]

/-- Each bound can be compared with the column that it is set on. -/
def ColumnRange.comparable (scope : Scope) : List DataType → List ColumnRange → Prop
  | _, [] => True
  | types, c :: cs =>
    (∀ b ∈ c.lower ++ c.upper, b.expr.ComparableTo scope (types.headD .any)) ∧
      comparable scope types.tail cs

instance ColumnRange.decidableComparable (scope : Scope) :
    (types : List DataType) → (cs : List ColumnRange) → Decidable (comparable scope types cs)
  | _, [] => .isTrue trivial
  | types, _ :: cs =>
    have := decidableComparable scope types.tail cs
    inferInstanceAs (Decidable (_ ∧ _))

/-- What the index is asked for can be evaluated and compared with its keys.  The keys of an index
without entries have no type. -/
def BaseIndex.Comparable (i : BaseIndex) (scope : Scope) (probe : Probe) : Prop :=
  match i, probe with
  | .ordered i, .range r => ColumnRange.comparable scope i.checkedTypes r.columns
  | .hashed i, .key e => e.ComparableTo scope (if i.size = 0 then .any else i.keyType)
  | _, _ => False

instance (i : BaseIndex) (scope : Scope) (probe : Probe) : Decidable (i.Comparable scope probe) :=
  match i, probe with
  | .ordered i, .range r =>
    inferInstanceAs (Decidable (ColumnRange.comparable scope i.checkedTypes r.columns))
  | .hashed i, .key e =>
    inferInstanceAs (Decidable (e.ComparableTo scope (if i.size = 0 then .any else i.keyType)))
  | .ordered _, .key _ | .hashed _, .range _ => .isFalse id

/-- What the path asks its index for can be evaluated and compared with the keys. -/
def AccessPath.Comparable (p : AccessPath) (scope : Scope) : Prop :=
  match p.route with
  | .full => True
  | .index i probe _ _ => i.base.Comparable scope probe

instance (p : AccessPath) (scope : Scope) : Decidable (p.Comparable scope) :=
  match p with
  | ⟨_, .full⟩ => .isTrue trivial
  | ⟨_, .index i probe _ _⟩ => inferInstanceAs (Decidable (i.base.Comparable scope probe))

theorem succeeds_checkComparable {type : DataType} {v : Value}
    (h : v.isNull ∨ type.compatible v.dataType) : Succeeds (checkComparable type v) := by
  unfold checkComparable
  rw [if_pos (by simpa using h)]
  exact succeeds_ok _

theorem Limit.succeeds_tightestFrom {type : DataType} {tighter : Ordering} {bs : List Bound}
    (h : ∀ b ∈ bs, b.expr.ComparableTo scope type) (best : Option Limit) :
    Succeeds (tightestFrom scope type tighter best bs) := by
  induction bs generalizing best with
  | nil => exact succeeds_ok _
  | cons b bs ih =>
    obtain ⟨⟨v, hv, hcomp⟩, hbs⟩ := List.forall_mem_cons.1 h
    rw [tightestFrom, hv]
    exact (succeeds_checkComparable hcomp).bind fun _ => (succeeds_ok _).ite (ih hbs _)

theorem Limits.succeeds_ofRanges {types : List DataType} {cs : List ColumnRange}
    (h : ColumnRange.comparable scope types cs) : Succeeds (ofRanges scope types cs) := by
  induction cs generalizing types with
  | nil => exact succeeds_ok _
  | cons c cs ih =>
    obtain ⟨hc, hcs⟩ := h
    obtain ⟨hlower, hupper⟩ := List.forall_mem_append.1 hc
    refine (Limit.succeeds_tightestFrom hlower none).bind fun lower => ?_
    refine (Limit.succeeds_tightestFrom hupper none).bind fun upper => ?_
    refine (ih hcs).bind fun rest => ?_
    split <;> exact succeeds_ok _

theorem BaseIndex.Comparable.succeeds_scan {i : BaseIndex} {probe : Probe}
    (h : i.Comparable scope probe) : Succeeds (i.scan probe scope) := by
  unfold Comparable at h
  split at h
  · next i r =>
    refine (Limits.succeeds_ofRanges h).bind fun limits => ?_
    split
    · exact succeeds_ok _
    · split <;> exact succeeds_ok _
  · next i e =>
    obtain ⟨v, hv, hcomp⟩ := h
    rw [scan, HashedIndex.scan, hv, Result.ok_bind]
    have hread : Succeeds (if v.isNull then pure []
        else pure (((i.bucket (i.hash v)).filter fun x => HashedIndex.hits v x.2).map (·.1))) :=
      (succeeds_ok _).ite (succeeds_ok _)
    by_cases hsize : i.size = 0
    · rw [if_neg (by simpa using hsize)]
      exact hread
    · rw [if_neg hsize] at hcomp
      rw [if_pos hsize]
      exact (succeeds_checkComparable hcomp).bind fun _ => hread
  · cases h

namespace AccessPath

theorem Comparable.succeeds_scan (h : p.Comparable scope) : Succeeds (p.scan scope) := by
  obtain ⟨t, route⟩ := p
  cases route with
  | full => exact succeeds_ok _
  | index i probe enforced order =>
    exact (BaseIndex.Comparable.succeeds_scan h).bind fun _ => succeeds_ok _

end AccessPath

/-! ### Reading a path -/

instance (scope : Scope) (row : Row) (e : Expr) : Decidable (∃ b, e.holds scope row = .ok b) :=
  decidable_of_iff (e.holds scope row).toOption.isSome <| by
    rcases e.holds scope row with err | b <;> simp [Except.toOption]

theorem Scan.succeeds_filterMap {α β : Type} {g : α → Result (Option β)} {s : Scan α} {as : List α}
    (hs : s.drain.result = .ok as) (hg : ∀ a ∈ as, Succeeds (g a)) :
    Succeeds (s.filterMap g).drain.result := by
  induction s generalizing as with
  | done => exact succeeds_ok _
  | fail e => cases hs
  | note n s ih =>
    rw [drain_note] at hs
    rw [filterMap, drain_note]
    exact ih () hs hg
  | row a s ih =>
    rw [drain_row] at hs
    obtain ⟨as', hs', rfl⟩ := Result.map_eq_ok.1 hs
    obtain ⟨⟨b, hb⟩, hrest⟩ := List.forall_mem_cons.1 hg
    obtain ⟨bs, hbs⟩ := ih () hs' hrest
    rw [filterMap, hb]
    cases b with
    | none => exact ⟨bs, hbs⟩
    | some b => exact ⟨b :: bs, by rw [drain_row, hbs]; rfl⟩

namespace AccessPath

/-- No bound that an ordered index is asked for is the datum `2 ^ 63`. -/
def IsSharp (p : AccessPath) (scope : Scope) : Prop :=
  match p.route with
  | .full => True
  | .index _ probe _ _ => probe.IsSharp scope

instance (scope : Scope) (r : KeyRange) : Decidable (r.IsSharp scope) :=
  inferInstanceAs (Decidable (∀ c ∈ r.columns, ∀ b ∈ c.lower ++ c.upper,
    b.expr.eval scope ≠ .ok (.float Binary64.twoPow63)))

instance (scope : Scope) : (probe : Probe) → Decidable (probe.IsSharp scope)
  | .range r => inferInstanceAs (Decidable (r.IsSharp scope))
  | .key _ => .isTrue trivial

instance (p : AccessPath) (scope : Scope) : Decidable (p.IsSharp scope) :=
  match p with
  | ⟨_, .full⟩ => .isTrue trivial
  | ⟨_, .index _ probe _ _⟩ => inferInstanceAs (Decidable (probe.IsSharp scope))

theorem Selected.isSharp (hp : Selected t f requested p) (hf : f.IsExact) (hs : scope.IsExact) :
    p.IsSharp scope := by
  cases hp with
  | full => trivial
  | @index i c hi himp hc =>
    have hexact := isExact_probe hf.conjuncts hc
    show c.probe.IsSharp scope
    cases hprobe : c.probe with
    | key e => trivial
    | range r =>
      rw [hprobe] at hexact
      exact KeyRange.isSharp_of_isExact hs fun d hd b hb =>
        hexact b.expr (List.mem_flatMap.2 ⟨d, hd, List.mem_map_of_mem hb⟩)

/-- Where neither a key nor a bound is the datum `2 ^ 63`, a row that an index gives passes the
condition of the index and the conjuncts that were used up for the probe. -/
theorem passes_of_scan {known : List Row} {c : Candidate} {tids : List Nat} {tid : Nat} {row : Row}
    (ht : t.Traced known) (hi : i ∈ t.indexes)
    (hkeys : i.base.KeysIn (· ≠ .float Binary64.twoPow63))
    (hc : candidate t i cs requested = .ok (some c)) (hsharp : c.probe.IsSharp scope)
    (hscan : i.scan c.probe scope = .ok tids) (hmem : tid ∈ tids) (hrow : t.row tid = some row) :
    Filter.Passes (row.env scope) i.condition ∧ ∀ e ∈ c.consumed, e.Passes (row.env scope) := by
  have hcol : row.columns = t.columns :=
    (ht.fits row (ht.rows row (List.mem_of_find?_eq_some hrow))).1
  have hentry {x : Entry} (hx : x ∈ i.entries) (htid : x.tid = tid) :
      i.entryOf row = .ok (some x) :=
    (ht.entryOf hi hx (htid ▸ hrow)).1
  constructor
  · obtain ⟨x, hx, htid⟩ := Index.exists_of_mem_scan hscan hmem
    rcases Index.entryOf_eq_ok.1 (hentry hx htid) with ⟨-, hnone⟩ | ⟨y, hcovers, -⟩
    · cases hnone
    · exact (Index.passes_condition scope (ht.indexes i hi).resolved hcol hcovers).2 rfl
  · obtain ⟨cond, base⟩ := i
    cases base with
    | ordered i =>
      obtain ⟨c', hc, heq⟩ := Result.map_eq_ok.1 hc
      cases heq
      obtain ⟨ranges, consumed, dir, ordering, hextract, rfl, -⟩ := orderedCandidate_eq_ok hc
      obtain ⟨limits, hlimits, x, hx, htid, hallow⟩ := OrderedIndex.exists_of_mem_scan hscan hmem
      obtain ⟨-, hspec⟩ := Limits.ofRanges_spec_in Value.chained_ne_twoPow63
        (fun r hr b hb w hw heq => hsharp r hr b hb (heq ▸ hw)) hlimits
      have hrespected := ((hspec limits rfl).2 x.key (hkeys x hx)).1 hallow
      exact (allRespected_iff_passes hextract hcol (Index.worth_keys scope (hentry hx htid))).1
        hrespected
    | hashed i =>
      obtain ⟨e, -, probe, hequated, rfl⟩ := hashedCandidate_eq_some hc
      obtain ⟨w, hw, v, hpair, hhit⟩ := HashedIndex.exists_of_mem_scan hscan hmem
      obtain ⟨u, hu, hworth⟩ := Index.worth_key scope (hentry (List.mem_map_of_mem hpair) rfl)
      obtain rfl : v = u := by simpa using hu
      have hof := isOf_of_equated hequated
      have hprobe : probe.worth (row.env scope) = some w := by
        rw [Expr.worth_of_readsAny (hcol ▸ foreign_eq_true hof.foreign), Expr.worth_of_eval hw]
      obtain ⟨hvn, hwn, horder⟩ := HashedIndex.hits_iff.1 hhit
      simp only [List.mem_singleton, forall_eq]
      exact (hof.passes_conjunct hworth).2
        ⟨w, hprobe, Comparison.worth_eq_true.2 ⟨hvn, hwn, by simp [Comparison.holds, horder]⟩⟩

theorem Selected.reads (ht : t.GrownSharp) (hp : Selected t f requested p)
    (hsharp : p.IsSharp scope) {s : Unit → Scan Row} (hscan : p.scan scope = .ok s) :
    ∃ rows, (s ()).drain.result = .ok rows ∧
      ∀ row ∈ rows, row ∈ t.rows ∧ p.enforced.Passes (row.env scope) := by
  have hkept := ht.kept
  obtain ⟨known, htraced⟩ := ht.grown.traced
  cases hp with
  | full =>
    cases hscan
    exact ⟨t.rows, by simp, fun row hrow => ⟨hrow, Filter.passes_none⟩⟩
  | @index i c hi himp hc =>
    obtain ⟨tids, rows, htids, hdrain, hrows⟩ :=
      drain_index (fun _ hx => hkept.row_of_mem_entries hi hx) hscan
    refine ⟨rows, hdrain, fun row hrow => ?_⟩
    obtain ⟨tid, htid, hfound⟩ := exists_of_forall₂ hrows hrow
    obtain ⟨hcond, hconsumed⟩ := passes_of_scan htraced hi (hkept.indexes i hi).placed.keysIn hc
      hsharp htids htid hfound
    refine ⟨List.mem_of_find?_eq_some hfound, Filter.passes_union.2 ?_⟩
    simp only [List.forall_mem_cons, List.not_mem_nil, false_imp_iff, implies_true, and_true]
    exact ⟨hcond, Filter.passes_ofList.2 hconsumed⟩

/-- An opened path can be read wherever the filter can be told on each stored row. -/
theorem Selected.succeeds_drain (ht : t.GrownSharp)
    (htell : ∀ row ∈ t.rows, ∀ e ∈ f, ∃ b, e.holds scope row = .ok b)
    (hp : Selected t f requested p) (hsharp : p.IsSharp scope) {s : Unit → Scan Row}
    (hscan : p.scan scope = .ok s) : Succeeds (p.drain scope (f.diff p.enforced)) := by
  obtain ⟨rows, hdrain, hrows⟩ := hp.reads ht hsharp hscan
  have htests (row : Row) (hrow : row ∈ rows) :
      ∀ e ∈ f.diff p.enforced, ∃ b, e.holds scope row = .ok b := by
    obtain ⟨hstored, hpass⟩ := hrows row hrow
    exact Filter.holds_diff hpass (htell row hstored)
  unfold drain
  rw [hscan, Result.ok_bind]
  cases hdiff : f.diff p.enforced with
  | none => exact ⟨rows, hdrain⟩
  | some e =>
    refine Scan.succeeds_filterMap hdrain fun row hrow => ?_
    obtain ⟨b, hb⟩ := htests row hrow e hdiff
    refine ⟨if b then some row else none, ?_⟩
    show (e.holds scope row >>= fun b => pure (if b then some row else none)) = _
    rw [hb]
    rfl

/-- A table `t` of binary64 `a` and integers `b`, indexed by `a`, from which a row was removed. -/
def measuredOps : List Table.Op :=
  [.addIndex (.ordered "i" [.ref ⟨none, "a"⟩] false), .insert [.float ⟨0⟩, .int 0],
    .insert [.float ⟨0x4004000000000000⟩, .int 3], .insert [.null, .int 5],
    .insert [.float ⟨0x3fd0000000000000⟩, .int 0], .insert [.float ⟨0x4023000000000000⟩, .int 9],
    .deleteTid 3]

def measured : Table := (Table.run measuredOps (.make "t" [("a", .float), ("b", .int)])).1

/-- `t.a > 0.125 AND 10 / t.b > 2`. -/
def quotientAbove : Expr :=
  .and (.binary (.cmp .gt) (.ref ⟨some "t", "a"⟩) (.const (.float ⟨0x3fc0000000000000⟩)))
    (.binary (.cmp .gt) (.binary (.arith .div) (.const (.int 10)) (.ref ⟨some "t", "b"⟩))
      (.const (.int 2)))

/-- If the predicate can be told on each stored row, a path is chosen for it and can be read. -/
def Harmless (t : Table) (e : Expr) : Prop :=
  (∀ row ∈ t.rows, ∃ b, e.holds .empty row = .ok b) →
    ∃ p, (select t (some e) none {}).result = .ok p ∧
      ∃ rows, p.drain .empty (Filter.diff (some e) p.enforced) = .ok rows

instance (t : Table) (e : Expr) : Decidable (Harmless t e) :=
  have : Decidable (∃ p, (select t (some e) none {}).result = .ok p ∧
      ∃ rows, p.drain .empty (Filter.diff (some e) p.enforced) = .ok rows) :=
    decidable_of_iff (∃ p ∈ (select t (some e) none {}).result.toOption,
        (p.drain .empty (Filter.diff (some e) p.enforced)).toOption.isSome) <| by
      rcases (select t (some e) none {}).result with err | p
      · simp [Except.toOption]
      · rcases h : p.drain .empty (Filter.diff (some e) p.enforced) with err | rows <;>
          simp [Except.toOption, h]
  inferInstanceAs (Decidable (_ → _))

/-- `1 / 0` -/
def divided : Expr := .binary (.arith .div) (.const (.int 1)) (.const (.int 0))

/-- A table `t` of `a`, indexed by `a`. -/
def indexedByA (values : List Value) : Table :=
  (Table.run (.addIndex (.ordered "i" [.ref ⟨none, "a"⟩] false) :: values.map fun v => .insert [v])
    (.make "t" [("a", .int)])).1

/-- A table in which two columns share a name, indexed by the third. -/
def twiceNamed : Table :=
  (Table.run [.addIndex (.ordered "i" [.ref ⟨none, "b"⟩] false)]
    (.make "t" [("a", .int), ("a", .int), ("b", .int)])).1

/-- `t.a >= x AND t.a >= 2⁶³ - 1 AND 1 / 0 = 1`, where `x` is the binary64 datum `2⁶³`.  It equals
`2⁶³ - 2` as well as `2⁶³ - 1` in a comparison. -/
def roundedBounds : Expr :=
  .and (.and
      (.binary (.cmp .ge) (.ref ⟨some "t", "a"⟩) (.const (.float (.ofInt 9223372036854775808))))
      (.binary (.cmp .ge) (.ref ⟨some "t", "a"⟩) (.const (.int 9223372036854775807))))
    (.binary (.cmp .eq) divided (.const (.int 1)))

/-- The entry of `2⁶³ - 1` goes to the left of the datum `2⁶³`, and to the right of it stands
`2⁶³ - 2`.  The datum is removed, and then the entry is not found. -/
def leftBehindOps : List Table.Op :=
  [.addIndex (.ordered "i" [.ref ⟨none, "a"⟩] false), .insert [.int 0], .insert [.int (-1)],
    .insert [.int 9223372036854775806], .insert [.float Binary64.twoPow63], .deleteTid 0,
    .insert [.int 9223372036854775807], .deleteTid 3, .deleteTid 4]

def leftBehind : Table := (Table.run leftBehindOps (.make "t" [("a", .float)])).1

/-- `t.a >= 5` -/
def fromFive : Expr := .binary (.cmp .ge) (.ref ⟨some "t", "a"⟩) (.const (.int 5))

end AccessPath

end RelPlan

import RelPlan.Join.NestedLoop
import RelPlan.Proofs.HandingOn
import RelPlan.Proofs.KeyMaps
import RelPlan.Proofs.Records

/-!
# The rows of joins

A join shows for each left record the right records that go with it, joined with it, one after the
other.  A nested loop takes them from what its right input shows inside the left row
(`shows_nestedLoop`); a hash join takes those of equal keys (`shows_hashJoin`).  Keys are equal
where all conjuncts pass that the keys were made from (`matches_iff`).
-/

namespace RelPlan

variable {columns left right : List Column} {scope : Scope} {outer : Env} {es : List Expr}
  {T U : List Record} {row row' : Row} {x y : Record}

theorem Row.Stands.concat (hx : row.Stands left x) (hy : row'.Stands right y) {pair : Row}
    (h : row.concat row' columns = .ok pair) : pair.Stands columns (x.append y) := by
  obtain ⟨hcol, hvalues, htid⟩ := Row.make_eq_ok h
  obtain ⟨-, rfl⟩ := hx
  obtain ⟨-, rfl⟩ := hy
  refine ⟨hcol, ?_⟩
  simp [Row.record, Record.append, hvalues, htid]

/-! ### Nested loops -/

/-- The right input may show different records inside different rows, as long as they are what goes
with the left record. -/
theorem shows_nestedLoop {partners : Row → Logged (Unit → Scan Row)} {s : Unit → Scan Row}
    {P : Record → List Record → Prop} (hs : (s ()).Shows (Row.Stands left) T)
    (hT : ∀ x ∈ T, ∃ U, P x U)
    (hpartners : ∀ row x, row.Stands left x → x ∈ T → ∀ t, (partners row).result = .ok t →
      ∃ U, P x U ∧ (t ()).Shows (Row.Stands right) U) :
    ∃ Zs, List.Forall₂ (fun x Z => ∃ U, P x U ∧ Z = U.map x.append) T Zs ∧
      (nestedLoop columns partners s).Shows (Row.Stands columns) Zs.flatten := by
  refine hs.mem.bind (fun x hx => ?_) fun row x ⟨hrow, hx⟩ => ?_
  · obtain ⟨U, hU⟩ := hT x hx
    exact ⟨_, U, hU, rfl⟩
  · obtain ⟨U, hU, hshow⟩ : ∃ U, P x U ∧
        (Scan.ofLogged (partners row)).Shows (Row.Stands right) U := by
      cases hp : (partners row).result with
      | error e =>
        obtain ⟨U, hU⟩ := hT x hx
        refine ⟨U, hU, ?_⟩
        rw [Scan.ofLogged, hp]
        exact .withNotes (.fail e U) _
      | ok t =>
        obtain ⟨U, hU, hshow⟩ := hpartners row x hrow hx t hp
        refine ⟨U, hU, ?_⟩
        rw [Scan.ofLogged, hp]
        exact .withNotes hshow _
    exact ⟨_, ⟨U, hU, rfl⟩, hshow.map fun row' y hrow' pair hpair => hrow.concat hrow' hpair⟩

/-- The values of key expressions, if they have all one and none is `NULL`. -/
def worthKey (env : Env) : List Expr → Option (List Value)
  | [] => some []
  | e :: es => do
    let v ← e.worth env
    if v.isNull then none else (worthKey env es).map (v :: ·)

theorem worthKey_of_joinKey {o : Option (List Value)} (h : joinKey scope row es = .ok o) :
    worthKey (row.env scope) es = o := by
  induction es generalizing o with
  | nil => cases h; rfl
  | cons e es ih =>
    obtain ⟨v, hv, h⟩ := Result.bind_eq_ok.1 h
    rw [worthKey, Expr.worth_of_evalRow hv]
    show (if v.isNull then none else _) = o
    split at h
    · next hnull => cases h; rw [if_pos hnull]
    · next hnull =>
      obtain ⟨o', ho', h⟩ := Result.bind_eq_ok.1 h
      cases h
      rw [if_neg hnull, ih ho']

theorem worthKey_eq_some {env : Env} {key : List Value} (h : worthKey env es = some key) :
    List.Forall₂ (fun e v => e.worth env = some v ∧ v.isNull = false) es key := by
  induction es generalizing key with
  | nil => cases h; exact .nil
  | cons e es ih =>
    obtain ⟨v, hv, h⟩ := Option.bind_eq_some_iff.1 h
    split at h
    · cases h
    · next hnull =>
      obtain ⟨key', hkey', rfl⟩ := Option.map_eq_some_iff.1 h
      exact .cons ⟨hv, by simpa using hnull⟩ (ih hkey')

/-- A record and its key. -/
abbrev KeyedRecord := Record × List Value

/-- The row stands for the record, and has its key. -/
def Keyed.Stands (columns : List Column) (a : Keyed) (b : KeyedRecord) : Prop :=
  a.row.Stands columns b.1 ∧ a.key = b.2

/-- The records that have a key, with it. -/
def keyedRecords (columns : List Column) (outer : Env) (es : List Expr) (T : List Record) :
    List KeyedRecord :=
  T.filterMap fun x => (worthKey (x.env columns outer) es).map (x, ·)

theorem mem_keyedRecords {b : KeyedRecord} : b ∈ keyedRecords columns outer es T ↔
    b.1 ∈ T ∧ worthKey (b.1.env columns outer) es = some b.2 := by
  obtain ⟨x, key⟩ := b
  simp only [keyedRecords, List.mem_filterMap, Option.map_eq_some_iff, Prod.mk.injEq]
  constructor
  · rintro ⟨y, hy, key', hkey, rfl, rfl⟩
    exact ⟨hy, hkey⟩
  · rintro ⟨hx, hkey⟩
    exact ⟨x, hx, key, hkey, rfl, rfl⟩

theorem isKey_of_mem_keyedRecords {b : KeyedRecord} (hes : ∀ e ∈ es, e.isExact)
    (ho : outer.IsExact) (hT : ∀ x ∈ T, x.Fits columns)
    (hb : b ∈ keyedRecords columns outer es T) : IsKey es.length b.2 := by
  obtain ⟨hx, hkey⟩ := mem_keyedRecords.1 hb
  have hall := worthKey_eq_some hkey
  refine ⟨hall.length_eq.symm, fun v hv => ?_⟩
  obtain ⟨e, he, hworth, -⟩ := exists_of_forall₂ hall hv
  exact Expr.worth_isExact (hes e he) ((hT _ hx).env ho) hworth

theorem shows_keyed {s : Scan Row} (h : s.Shows (Row.Stands columns) T) :
    (s.keyed scope es).Shows (Keyed.Stands columns) (keyedRecords columns scope.env es T) := by
  refine h.filterMap fun row x hrow o ho => ?_
  obtain ⟨key, hkey, ho⟩ := Result.bind_eq_ok.1 ho
  cases ho
  rw [← hrow.env, worthKey_of_joinKey hkey]
  cases key with
  | none => exact .none
  | some key => exact .some ⟨hrow, rfl⟩

/-! ### Hash joins -/

theorem keysEqual_self {key : List Value} (hkey : ∀ v ∈ key, v.isNull = false) :
    keysEqual key key = .ok true := by
  induction key with
  | nil => rfl
  | cons v key ih =>
    obtain ⟨hv, hkey⟩ := List.forall_mem_cons.1 hkey
    have hcompare : v.compareSql v = .ok (some .eq) := by simp [Value.compareSql, hv]
    rw [keysEqual, hcompare]
    exact ih hkey

theorem not_null_of_worthKey {env : Env} {key : List Value} (h : worthKey env es = some key) :
    ∀ v ∈ key, v.isNull = false := by
  intro v hv
  obtain ⟨e, -, -, hnull⟩ := exists_of_forall₂ (worthKey_eq_some h) hv
  exact hnull

theorem joinEach_eq_ok {l : Keyed} {rights rows : List Row} (hl : l.row.Stands left x)
    (hrights : List.Forall₂ (fun row y => row.Stands right y ∧
      worthKey (y.env right scope.env) es = some l.key) rights U)
    (h : joinEach scope columns es l rights = .ok rows) :
    List.Forall₂ (Row.Stands columns) rows (U.map x.append) := by
  obtain ⟨os, hos, rfl⟩ := Result.filterMapM_eq_ok h
  clear h
  induction hrights generalizing os with
  | nil => cases hos; exact .nil
  | cons hrow _ ih =>
    cases hos with | cons ho hos =>
    obtain ⟨hstands, hkey⟩ := hrow
    obtain ⟨key, hkey', ho⟩ := Result.bind_eq_ok.1 ho
    obtain rfl : some l.key = key := by
      rw [← hkey, ← hstands.env, worthKey_of_joinKey hkey']
    obtain ⟨equal, hequal, ho⟩ := Result.bind_eq_ok.1 ho
    obtain rfl : true = equal :=
      Except.ok.inj ((keysEqual_self (not_null_of_worthKey hkey)).symm.trans hequal)
    obtain ⟨pair, hpair, rfl⟩ := Result.map_eq_ok.1 ho
    exact .cons (hl.concat hstands hpair) (ih _ hos)

/-- What a left record is joined with: the right records that have its key. -/
def partnersOf (R : List KeyedRecord) (b : KeyedRecord) : List Record :=
  ((R.filter fun c => c.2 = b.2).map Prod.fst).map b.1.append

theorem shows_buildThen {α β : Type} {S : Row → β → Prop} {Z : List β} {R : List α}
    {RK : Keyed → α → Prop} {probe : HashTable → Scan Row} {s : Scan Keyed} (h : s.Shows RK R)
    {table : HashTable}
    (hp : ∀ rs, List.Forall₂ RK rs R →
      (probe (rs.foldl (fun table x => table.add x) table)).Shows S Z) :
    (buildThen probe table s).Shows S Z := by
  induction h generalizing table with
  | done => exact .note (hp [] .nil)
  | fail e T => exact .fail e Z
  | note _ ih => exact .note (ih hp)
  | row hab _ ih => exact ih fun rs hrs => hp (_ :: rs) (.cons hab hrs)

theorem shows_hashJoin {pairs : List KeyPair} {s t : Unit → Scan Row} (hscope : scope.IsExact)
    (hl : ∀ p ∈ pairs, p.left.isExact) (hr : ∀ p ∈ pairs, p.right.isExact)
    (hT : ∀ x ∈ T, x.Fits left) (hU : ∀ y ∈ U, y.Fits right) (hs : (s ()).Shows (Row.Stands left) T)
    (ht : (t ()).Shows (Row.Stands right) U) :
    (hashJoin scope columns pairs s t).Shows (Row.Stands columns)
      ((keyedRecords left scope.env (pairs.map KeyPair.left) T).flatMap
        (partnersOf (keyedRecords right scope.env (pairs.map KeyPair.right) U))) := by
  have hlkeys : ∀ e ∈ pairs.map KeyPair.left, e.isExact := List.forall_mem_map.2 hl
  have hrkeys : ∀ e ∈ pairs.map KeyPair.right, e.isExact := List.forall_mem_map.2 hr
  refine shows_buildThen (shows_keyed ht).mem fun rs hrs => ?_
  refine (shows_keyed hs).mem.flatMap fun l b ⟨hl, hb⟩ => ?_
  have hexact : ∀ r ∈ rs, ∀ v ∈ r.key, v.isExact := by
    intro r hr
    obtain ⟨c, -, ⟨-, hkey⟩, hc⟩ := exists_of_forall₂ hrs.flip hr
    rw [hkey]
    exact (isKey_of_mem_keyedRecords hrkeys hscope.env hU hc).exact
  have hkey : ∀ v ∈ l.key, v.isExact := by
    rw [hl.2]
    exact (isKey_of_mem_keyedRecords hlkeys hscope.env hT hb).exact
  have hlookup := HashTable.lookup_foldl_of_exact {} hexact hkey
  rw [probeTable, hlookup]
  split
  · next rows hrows =>
    refine Scan.shows_ofList ?_
    have hsame : List.Forall₂ (fun r c => Keyed.Stands right r c ∧
        c ∈ keyedRecords right scope.env (pairs.map KeyPair.right) U)
        (rs.filter fun r => r.key = l.key)
        ((keyedRecords right scope.env (pairs.map KeyPair.right) U).filter fun c => c.2 = b.2) :=
      List.rel_filter (fun r c h => by simp [h.1.2, hl.2]) hrs
    have hkeys : ∀ r ∈ rs.filter fun r => r.key = l.key, r.key = l.key := fun r hr => by
      simpa using (List.mem_filter.1 hr).2
    have hrights : List.Forall₂ (fun row y => row.Stands right y ∧
        worthKey (y.env right scope.env) (pairs.map KeyPair.right) = some l.key)
        (({} : HashTable).lookup l.key ++ (rs.filter fun r => r.key = l.key).map Keyed.row)
        (((keyedRecords right scope.env (pairs.map KeyPair.right) U).filter
          fun c => c.2 = b.2).map Prod.fst) := by
      rw [HashTable.lookup_empty, List.nil_append, List.forall₂_map_left_iff,
        List.forall₂_map_right_iff]
      refine ((List.forall₂_and_left _ _).2 ⟨hkeys, hsame⟩).imp fun r c hrc => ?_
      obtain ⟨hkey, hstands, hc⟩ := hrc
      exact ⟨hstands.1, by rw [(mem_keyedRecords.1 hc).2, ← hstands.2, hkey]⟩
    exact joinEach_eq_ok hl.1 hrights hrows
  · exact .fail _ _

/-- Both sides have a key, and it is the same. -/
def KeyPair.Matches (pairs : List KeyPair) (a b : Env) : Prop :=
  (worthKey a (pairs.map KeyPair.left)).isSome ∧
    worthKey b (pairs.map KeyPair.right) = worthKey a (pairs.map KeyPair.left)

instance (pairs : List KeyPair) (a b : Env) : Decidable (KeyPair.Matches pairs a b) :=
  inferInstanceAs (Decidable (_ ∧ _))

theorem flatMap_partnersOf (pairs : List KeyPair) (outer : Env) (T U : List Record) :
    (keyedRecords left outer (pairs.map KeyPair.left) T).flatMap
        (partnersOf (keyedRecords right outer (pairs.map KeyPair.right) U)) =
      T.flatMap fun x => (U.filter fun y =>
        KeyPair.Matches pairs (x.env left outer) (y.env right outer)).map x.append := by
  have hpartners (b : KeyedRecord) :
      partnersOf (keyedRecords right outer (pairs.map KeyPair.right) U) b =
        (U.filter fun y => worthKey (y.env right outer) (pairs.map KeyPair.right) =
          some b.2).map b.1.append := by
    rw [partnersOf, keyedRecords]
    congr 1
    induction U with
    | nil => rfl
    | cons y U ih =>
      cases hy : worthKey (y.env right outer) (pairs.map KeyPair.right) with
      | none => simpa [hy] using ih
      | some key => by_cases hkey : key = b.2 <;> simpa [hy, hkey] using ih
  generalize keyedRecords right outer (pairs.map KeyPair.right) U = R at hpartners
  induction T with
  | nil => rfl
  | cons x T ih =>
    rw [List.flatMap_cons, ← ih, keyedRecords, List.filterMap_cons]
    cases hx : worthKey (x.env left outer) (pairs.map KeyPair.left) with
    | none => simp [KeyPair.Matches, hx, keyedRecords]
    | some key => simp [KeyPair.Matches, hx, hpartners, keyedRecords]

theorem worthKey_cons_eq_some {env : Env} {e : Expr} {key : List Value} :
    worthKey env (e :: es) = some key ↔ ∃ v key', e.worth env = some v ∧ v.isNull = false ∧
      worthKey env es = some key' ∧ key = v :: key' := by
  simp only [worthKey, Option.bind_eq_bind, Option.bind_eq_some_iff]
  constructor
  · rintro ⟨v, hv, h⟩
    split at h
    · cases h
    · next hnull =>
      obtain ⟨key', hkey', rfl⟩ := Option.map_eq_some_iff.1 h
      exact ⟨v, key', hv, by simpa using hnull, hkey', rfl⟩
  · rintro ⟨v, key', hv, hnull, hkey', rfl⟩
    exact ⟨v, hv, by simp [hnull, hkey']⟩

theorem KeyPair.matches_iff_exists {pairs : List KeyPair} {a b : Env} :
    Matches pairs a b ↔ ∃ key, worthKey a (pairs.map KeyPair.left) = some key ∧
      worthKey b (pairs.map KeyPair.right) = some key := by
  rw [Matches, Option.isSome_iff_exists]
  constructor
  · rintro ⟨⟨key, hkey⟩, heq⟩
    exact ⟨key, hkey, heq.trans hkey⟩
  · rintro ⟨key, hkey, hkey'⟩
    exact ⟨⟨key, hkey⟩, hkey'.trans hkey.symm⟩

theorem KeyPair.matches_cons {p : KeyPair} {pairs : List KeyPair} {a b : Env} :
    Matches (p :: pairs) a b ↔ (∃ v, p.left.worth a = some v ∧ p.right.worth b = some v ∧
      v.isNull = false) ∧ Matches pairs a b := by
  simp only [matches_iff_exists, List.map_cons, worthKey_cons_eq_some]
  constructor
  · rintro ⟨key, ⟨v, key', hv, hnull, hkey, rfl⟩, w, key'', hw, -, hkey', heq⟩
    obtain ⟨rfl, rfl⟩ := List.cons.inj heq
    exact ⟨⟨v, hv, hw, hnull⟩, key', hkey, hkey'⟩
  · rintro ⟨⟨v, hv, hw, hnull⟩, key, hkey, hkey'⟩
    exact ⟨v :: key, ⟨v, key, hv, hnull, hkey, rfl⟩, v, key, hw, hnull, hkey', rfl⟩

/-- A pair of records passes the conjuncts if their keys are equal. -/
theorem matches_iff {cs : List Expr} {pairs : List KeyPair}
    (hpairs : List.Forall₂ (KeyPair.IsOf left right) cs pairs) (hcs : ∀ c ∈ cs, c.isExact)
    (hclear : ∀ c ∈ cs, c.Clear (left ++ right)) (hx : x.Fits left) (hy : y.Fits right)
    (ho : outer.IsExact) :
    (∀ c ∈ cs, c.Passes ((x.append y).env (left ++ right) outer)) ↔
      KeyPair.Matches pairs (x.env left outer) (y.env right outer) := by
  induction hpairs with
  | nil => simp [KeyPair.Matches, worthKey]
  | @cons c p cs pairs hof _ ih =>
    obtain ⟨hc, hcs⟩ := List.forall_mem_cons.1 hcs
    obtain ⟨hclear, hclears⟩ := List.forall_mem_cons.1 hclear
    rw [List.forall_mem_cons, KeyPair.matches_cons, ih hcs hclears]
    refine and_congr_left fun _ => ?_
    obtain ⟨hpl, hpr⟩ := hof.isExact hc
    obtain ⟨hcl, hcr⟩ := hof.clear hclear
    have hl : p.left.worth ((x.append y).env (left ++ right) outer) =
        p.left.worth (x.env left outer) := hof.left.worth_append_left hcl hx.length outer outer
    have hr : p.right.worth ((x.append y).env (left ++ right) outer) =
        p.right.worth (y.env right outer) := hof.right.worth_append_right hcr hx.length outer outer
    have hlx (v : Value) (hv : p.left.worth (x.env left outer) = some v) : v.isExact :=
      Expr.worth_isExact hpl (hx.env ho) hv
    have hrx (v : Value) (hv : p.right.worth (y.env right outer) = some v) : v.isExact :=
      Expr.worth_isExact hpr (hy.env ho) hv
    have hequal (v w : Value) (hv : v.isExact) (hw : w.isExact) :
        Comparison.eq.worth v w = .bool true ↔ v = w ∧ v.isNull = false := by
      rw [Comparison.worth_eq_true]
      simp only [Comparison.holds, beq_iff_eq, Value.order_eq_iff hv hw]
      grind
    have hpass : c.Passes ((x.append y).env (left ++ right) outer) ↔
        ∃ v w, p.left.worth (x.env left outer) = some v ∧
          p.right.worth (y.env right outer) = some w ∧ Comparison.eq.worth v w = .bool true := by
      rcases hof.shape with rfl | rfl
      · simp only [Expr.Passes, Expr.worth, hl, hr]
        cases p.left.worth (x.env left outer) <;> cases p.right.worth (y.env right outer) <;> simp
      · have hcomm (v w : Value) : Comparison.eq.worth w v = Comparison.eq.worth v w :=
          Comparison.worth_flip .eq v w
        simp only [Expr.Passes, Expr.worth, hl, hr]
        cases p.left.worth (x.env left outer) <;> cases p.right.worth (y.env right outer) <;>
          simp [hcomm]
    rw [hpass]
    constructor
    · rintro ⟨v, w, hv, hw, heq⟩
      obtain ⟨rfl, hnull⟩ := (hequal v w (hlx v hv) (hrx w hw)).1 heq
      exact ⟨v, hv, hw, hnull⟩
    · rintro ⟨v, hv, hw, hnull⟩
      exact ⟨v, v, hv, hw, (hequal v v (hlx v hv) (hrx v hw)).2 ⟨rfl, hnull⟩⟩

end RelPlan

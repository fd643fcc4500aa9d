import RelPlan.Proofs.AccessRows
import RelPlan.Proofs.SameKeys

/-!
# What canonical forms decide

A comparison sees no more of a value than its canonical form, and so does every operator that does
not compute with numbers.  Alike expressions, whose constants may differ in form, are therefore
worth one key unless they compute with them (`Expr.oneKey_of_alike`): `1 / 2` and `1.0 / 2` are
worth `0` and `0.5`.  All that an index makes of a bound or of a probe is its canonical form as
well, so it gives the same rows for expressions that are worth the same keys
(`OrderedIndex.scan_of_oneKey`, `HashedIndex.scan_of_oneKey`).
-/

namespace RelPlan

variable {scope : Scope}

namespace Value

variable {v v' w w' : Value}

@[simp] theorem isNull_canon (v : Value) : v.canon.isNull = v.isNull := by
  rcases canon_eq v with h | ⟨x, n, rfl, -, h⟩ <;> rw [h]
  rfl

theorem isNull_congr (h : v.canon = v'.canon) : v.isNull = v'.isNull := by
  rw [← isNull_canon, h, isNull_canon]

theorem rank_congr (h : v.canon = v'.canon) : v.rank = v'.rank := by
  rw [← rank_canon, h, rank_canon]

theorem order_congr (h : v.canon = v'.canon) (h' : w.canon = w'.canon) :
    v.order w = v'.order w' := by
  rw [← order_canon, ← order_canon_right, h, h', order_canon, order_canon_right]

theorem same_congr (h : v.canon = v'.canon) (h' : w.canon = w'.canon) :
    v.same w = v'.same w' := by
  rw [same, same, order_congr h h']

theorem truth_congr {x y : Option Bool} (h : v.canon = w.canon) (hx : v.truth = .ok x)
    (hy : w.truth = .ok y) : x = y := by
  have hexact {v : Value} {x : Option Bool} (hx : v.truth = .ok x) : v.canon = v := by
    cases v <;> first | rfl | cases hx
  rw [hexact hx, hexact hy] at h
  rw [h] at hx
  exact Except.ok.inj (hx.symm.trans hy)

theorem compareSql_congr {x y : Option Ordering} (h : v.canon = v'.canon)
    (h' : w.canon = w'.canon) (hx : v.compareSql w = .ok x) (hy : v'.compareSql w' = .ok y) :
    x = y := by
  unfold compareSql at hx hy
  rw [isNull_congr h, isNull_congr h', rank_congr h, rank_congr h', order_congr h h'] at hx
  split at hx
  · next hnull =>
    rw [if_pos hnull] at hy
    exact Except.ok.inj (hx.symm.trans hy)
  · next hnull =>
    rw [if_neg hnull] at hy
    split at hx
    · next hrank =>
      rw [if_pos hrank] at hy
      exact Except.ok.inj (hx.symm.trans hy)
    · cases hx

end Value

theorem UnaryOp.apply_congr {op : UnaryOp} {a b v w : Value} (hop : op ≠ .negate)
    (h : a.canon = b.canon) (hv : op.apply a = .ok v) (hw : op.apply b = .ok w) : v = w := by
  cases op with
  | negate => exact absurd rfl hop
  | isNull | isNotNull =>
    cases hv
    cases hw
    rw [Value.isNull_congr h]
  | not =>
    obtain ⟨x, hx, hv⟩ := Result.bind_eq_ok.1 hv
    obtain ⟨y, hy, hw⟩ := Result.bind_eq_ok.1 hw
    cases hv
    cases hw
    rw [Value.truth_congr h hx hy]

theorem Comparison.apply_congr {c : Comparison} {a a' b b' v w : Value} (h : a.canon = a'.canon)
    (h' : b.canon = b'.canon) (hv : c.apply a b = .ok v) (hw : c.apply a' b' = .ok w) : v = w := by
  obtain ⟨x, hx, hv⟩ := Result.bind_eq_ok.1 hv
  obtain ⟨y, hy, hw⟩ := Result.bind_eq_ok.1 hw
  cases hv
  cases hw
  rw [Value.compareSql_congr h h' hx hy]

namespace Expr

variable {d e l l' r r' : Expr}

/-- Two alike expressions compute with constants of two forms, or have the datum `2 ^ 63` where the
other one has an integer that rounds to it. -/
def mixes : Expr → Expr → Bool
  | const a, const b => a.canon ≠ b.canon
  | unary .negate a, unary _ b => a ≠ b
  | unary _ a, unary _ b => a.mixes b
  | binary (.arith _) l r, binary _ l' r' => l ≠ l' || r ≠ r'
  | binary _ l r, binary _ l' r' => l.mixes l' || r.mixes r'
  | _, _ => false

/-- If both have a value in the scope, it is one key. -/
def OneKey (scope : Scope) (d e : Expr) : Prop :=
  ∀ v w, d.eval scope = .ok v → e.eval scope = .ok w → v.canon = w.canon

theorem OneKey.refl (e : Expr) : e.OneKey scope e :=
  fun _ _ hv hw => congrArg Value.canon (Except.ok.inj (hv.symm.trans hw))

theorem OneKey.unary {op : UnaryOp} (hop : op ≠ .negate) (h : d.OneKey scope e) :
    (unary op d).OneKey scope (unary op e) := by
  intro v w hv hw
  obtain ⟨x, hx, hv⟩ := Result.bind_eq_ok.1 hv
  obtain ⟨y, hy, hw⟩ := Result.bind_eq_ok.1 hw
  rw [UnaryOp.apply_congr hop (h x y hx hy) hv hw]

section
variable (hl : l.OneKey scope l') (hr : r.OneKey scope r')
include hl hr

theorem OneKey.compare (c : Comparison) :
    (binary (.cmp c) l r).OneKey scope (binary (.cmp c) l' r') := by
  intro v w hv hw
  obtain ⟨x, hx, hv⟩ := Result.bind_eq_ok.1 hv
  obtain ⟨x', hx', hw⟩ := Result.bind_eq_ok.1 hw
  obtain ⟨y, hy, hv⟩ := Result.bind_eq_ok.1 hv
  obtain ⟨y', hy', hw⟩ := Result.bind_eq_ok.1 hw
  rw [Comparison.apply_congr (hl x x' hx hx') (hr y y' hy hy') hv hw]

theorem OneKey.distinct : (binary .distinct l r).OneKey scope (binary .distinct l' r') := by
  intro v w hv hw
  obtain ⟨x, hx, hv⟩ := Result.bind_eq_ok.1 hv
  obtain ⟨x', hx', hw⟩ := Result.bind_eq_ok.1 hw
  obtain ⟨y, hy, hv⟩ := Result.bind_eq_ok.1 hv
  obtain ⟨y', hy', hw⟩ := Result.bind_eq_ok.1 hw
  cases hv
  cases hw
  rw [Value.same_congr (hl x x' hx hx') (hr y y' hy hy')]

theorem OneKey.connect {op : BinaryOp} (hop : op = .and ∨ op = .or) :
    (binary op l r).OneKey scope (binary op l' r') := by
  intro v w hv hw
  rcases hop with rfl | rfl
  all_goals
    obtain ⟨x, hx, hv⟩ := Result.bind_eq_ok.1 hv
    obtain ⟨x', hx', hw⟩ := Result.bind_eq_ok.1 hw
    obtain ⟨a, ha, hv⟩ := Result.bind_eq_ok.1 hv
    obtain ⟨a', ha', hw⟩ := Result.bind_eq_ok.1 hw
    -- the left operands are one truth value, so both or neither leave the right one alone
    obtain rfl := Value.truth_congr (hl x x' hx hx') ha ha'
    split at hv
    · next hdecides =>
      rw [if_pos hdecides] at hw
      rw [Except.ok.inj (hv.symm.trans hw)]
    · next hopen =>
      rw [if_neg hopen] at hw
      obtain ⟨y, hy, hv⟩ := Result.bind_eq_ok.1 hv
      obtain ⟨y', hy', hw⟩ := Result.bind_eq_ok.1 hw
      obtain ⟨b, hb, hv⟩ := Result.bind_eq_ok.1 hv
      obtain ⟨b', hb', hw⟩ := Result.bind_eq_ok.1 hw
      obtain rfl := Value.truth_congr (hr y y' hy hy') hb hb'
      rw [Except.ok.inj (hv.symm.trans hw)]

end

/-- Alike expressions are worth one key unless they compute with constants of two forms. -/
theorem oneKey_of_alike (h : d.alike e) (hmix : d.mixes e = false) : d.OneKey scope e := by
  induction d generalizing e with
  | const a =>
    cases e <;> simp only [alike, Bool.false_eq_true] at h
    intro v w hv hw
    cases hv
    cases hw
    simpa [mixes] using hmix
  | ref r =>
    cases e <;> simp only [alike, decide_eq_true_eq, Bool.false_eq_true] at h
    exact h ▸ .refl _
  | unary op a ih =>
    cases e <;> simp only [alike, Bool.and_eq_true, decide_eq_true_eq, Bool.false_eq_true] at h
    obtain ⟨rfl, h⟩ := h
    cases op with
    | negate =>
      simp only [mixes, decide_eq_false_iff_not, not_not] at hmix
      exact hmix ▸ .refl _
    | not | isNull | isNotNull => exact .unary (by simp) (ih h hmix)
  | binary op l r ihl ihr =>
    cases e <;> simp only [alike, Bool.and_eq_true, decide_eq_true_eq, Bool.false_eq_true] at h
    obtain ⟨⟨rfl, hl⟩, hr⟩ := h
    cases op with
    | arith f =>
      simp only [mixes, Bool.or_eq_false_iff, decide_eq_false_iff_not, not_not] at hmix
      exact hmix.1 ▸ hmix.2 ▸ .refl _
    | cmp c =>
      obtain ⟨hml, hmr⟩ := Bool.or_eq_false_iff.1 hmix
      exact .compare (ihl hl hml) (ihr hr hmr) c
    | distinct =>
      obtain ⟨hml, hmr⟩ := Bool.or_eq_false_iff.1 hmix
      exact .distinct (ihl hl hml) (ihr hr hmr)
    | and | or =>
      obtain ⟨hml, hmr⟩ := Bool.or_eq_false_iff.1 hmix
      exact .connect (ihl hl hml) (ihr hr hmr) (by simp)

end Expr

/-- The limit with the canonical form of its value. -/
def Limit.canon (l : Limit) : Limit := { l with value := l.value.canon }

namespace Limits

def canon (b : Limits) : Limits := ⟨b.lower.map Limit.canon, b.upper.map Limit.canon⟩

@[simp] theorem allow_canon (b : Limits) (v : Value) : b.canon.allow v = b.allow v := by
  cases hl : b.lower <;> cases hu : b.upper <;>
    simp [allow, canon, hl, hu, Limit.canon, Limit.allowsFromBelow, Limit.allowsFromAbove]

@[simp] theorem allowKey_canon (bs : List Limits) (vs : List Value) :
    allowKey (bs.map canon) vs = allowKey bs vs := by
  fun_induction allowKey bs vs <;> simp_all [allowKey]

@[simp] theorem reachBelow_canon (bs : List Limits) (vs : List Value) :
    reachBelow (bs.map canon) vs = reachBelow bs vs := by
  induction bs generalizing vs with
  | nil => rfl
  | cons b bs ih =>
    cases vs with
    | nil => rfl
    | cons v vs => cases h : b.lower <;> simp [reachBelow, canon, Limit.canon, h, ih]

@[simp] theorem reachAbove_canon (bs : List Limits) (vs : List Value) :
    reachAbove (bs.map canon) vs = reachAbove bs vs := by
  induction bs generalizing vs with
  | nil => rfl
  | cons b bs ih =>
    cases vs with
    | nil => rfl
    | cons v vs => cases h : b.upper <;> simp [reachAbove, canon, Limit.canon, h, ih]

end Limits

namespace Tree

@[simp] theorem scan_canon (bs : List Limits) (t : Tree) :
    t.scan (bs.map Limits.canon) = t.scan bs := by
  induction t with
  | leaf => rfl
  | node s l e r ihl ihr => simp [scan, ihl, ihr]

@[simp] theorem scanBackward_canon (bs : List Limits) (t : Tree) :
    t.scanBackward (bs.map Limits.canon) = t.scanBackward bs := by
  induction t with
  | leaf => rfl
  | node s l e r ihl ihr => simp [scanBackward, ihl, ihr]

end Tree

/-! ### Probes that are worth the same keys -/

def Bound.OneKey (scope : Scope) (b b' : Bound) : Prop :=
  b.inclusive = b'.inclusive ∧ b.expr.OneKey scope b'.expr

def ColumnRange.OneKey (scope : Scope) (c c' : ColumnRange) : Prop :=
  List.Forall₂ (Bound.OneKey scope) c.lower c'.lower ∧
    List.Forall₂ (Bound.OneKey scope) c.upper c'.upper

/-- Probes of one shape whose expressions are worth one key wherever they stand in one place. -/
def Probe.OneKey (scope : Scope) : Probe → Probe → Prop
  | range a, range b =>
    a.direction = b.direction ∧ List.Forall₂ (ColumnRange.OneKey scope) a.columns b.columns
  | key d, key e => d.OneKey scope e
  | _, _ => False

namespace Limit

variable {type : DataType} {tighter : Ordering} {best best' : Option Limit} {bs bs' : List Bound}
  {r r' : Option (Option Limit)}

theorem canon_eq_iff {l l' : Limit} :
    l.canon = l'.canon ↔ l.value.canon = l'.value.canon ∧ l.inclusive = l'.inclusive := by
  simp [canon]

theorem canon_tighten {l l' : Limit} (hbest : best.map canon = best'.map canon)
    (h : l.canon = l'.canon) :
    (tighten tighter best l).canon = (tighten tighter best' l').canon := by
  cases best with
  | none =>
    cases best' with
    | none => exact h
    | some b' => cases hbest
  | some b =>
    cases best' with
    | none => cases hbest
    | some b' =>
      have hb : b.canon = b'.canon := Option.some.inj hbest
      obtain ⟨hv, hi⟩ := canon_eq_iff.1 h
      simp only [tighten, Value.order_congr hv (canon_eq_iff.1 hb).1, hi]
      split
      · exact h
      · exact hb

theorem canon_tightestFrom (hbs : List.Forall₂ (Bound.OneKey scope) bs bs')
    (hbest : best.map canon = best'.map canon)
    (h : tightestFrom scope type tighter best bs = .ok r)
    (h' : tightestFrom scope type tighter best' bs' = .ok r') :
    r.map (Option.map canon) = r'.map (Option.map canon) := by
  induction hbs generalizing best best' with
  | nil =>
    cases h
    cases h'
    simpa using hbest
  | cons hb _ ih =>
    obtain ⟨hinc, hkey⟩ := hb
    obtain ⟨v, hv, h⟩ := Result.bind_eq_ok.1 h
    obtain ⟨v', hv', h'⟩ := Result.bind_eq_ok.1 h'
    obtain ⟨-, -, h⟩ := Result.bind_eq_ok.1 h
    obtain ⟨-, -, h'⟩ := Result.bind_eq_ok.1 h'
    have hcanon := hkey v v' hv hv'
    rw [Value.isNull_congr hcanon] at h
    split at h
    · next hnull =>
      rw [if_pos hnull] at h'
      rw [Except.ok.inj (h.symm.trans h')]
    · next hnull =>
      rw [if_neg hnull] at h'
      refine ih ?_ h h'
      exact congrArg some (canon_tighten hbest (canon_eq_iff.2 ⟨hcanon, hinc⟩))

end Limit

namespace Limits

variable {types : List DataType} {c : ColumnRange} {cs cs' : List ColumnRange}
  {r r' : Option (List Limits)}

/-- The limits of a column before those of the columns after it.  There are none if a bound is
`NULL`. -/
def join (lower upper : Option (Option Limit)) (rest : Option (List Limits)) :
    Option (List Limits) :=
  lower.bind fun l => upper.bind fun u => rest.map fun bs => ⟨l, u⟩ :: bs

theorem ofRanges_cons_eq_ok (h : ofRanges scope types (c :: cs) = .ok r) :
    ∃ lower upper rest, Limit.tightestFrom scope (types.headD .any) .gt none c.lower = .ok lower ∧
      Limit.tightestFrom scope (types.headD .any) .lt none c.upper = .ok upper ∧
      ofRanges scope types.tail cs = .ok rest ∧ r = join lower upper rest := by
  rw [ofRanges] at h
  obtain ⟨lower, hl, h⟩ := Result.bind_eq_ok.1 h
  obtain ⟨upper, hu, h⟩ := Result.bind_eq_ok.1 h
  obtain ⟨rest, hrest, h⟩ := Result.bind_eq_ok.1 h
  refine ⟨lower, upper, rest, hl, hu, hrest, ?_⟩
  cases lower <;> cases upper <;> cases rest <;> exact (Except.ok.inj h).symm

theorem canon_join (lower upper : Option (Option Limit)) (rest : Option (List Limits)) :
    (join lower upper rest).map (List.map canon) = join (lower.map (Option.map Limit.canon))
      (upper.map (Option.map Limit.canon)) (rest.map (List.map canon)) := by
  cases lower <;> cases upper <;> cases rest <;> rfl

theorem canon_ofRanges (hcs : List.Forall₂ (ColumnRange.OneKey scope) cs cs')
    (h : ofRanges scope types cs = .ok r) (h' : ofRanges scope types cs' = .ok r') :
    r.map (List.map canon) = r'.map (List.map canon) := by
  induction hcs generalizing types r r' with
  | nil =>
    rw [ofRanges] at h h'
    rw [Except.ok.inj (h.symm.trans h')]
  | cons hc _ ih =>
    obtain ⟨lower, upper, rest, hl, hu, hrest, rfl⟩ := ofRanges_cons_eq_ok h
    obtain ⟨lower', upper', rest', hl', hu', hrest', rfl⟩ := ofRanges_cons_eq_ok h'
    rw [canon_join, canon_join, Limit.canon_tightestFrom hc.1 rfl hl hl',
      Limit.canon_tightestFrom hc.2 rfl hu hu', ih hrest hrest']

end Limits

/-- An ordered index gives the same rows for probes that are worth the same keys. -/
theorem OrderedIndex.scan_of_oneKey {i : OrderedIndex} {a b : KeyRange} {tids tids' : List Nat}
    (h : Probe.OneKey scope (.range a) (.range b)) (hs : i.scan a scope = .ok tids)
    (hs' : i.scan b scope = .ok tids') : tids = tids' := by
  obtain ⟨hdir, hcolumns⟩ := h
  obtain ⟨limits, hlimits, hs⟩ := Result.bind_eq_ok.1 hs
  obtain ⟨limits', hlimits', hs'⟩ := Result.bind_eq_ok.1 hs'
  have hcanon := Limits.canon_ofRanges hcolumns hlimits hlimits'
  rw [← hdir] at hs'
  cases limits with
  | none =>
    obtain rfl : limits' = none := by simpa using hcanon.symm
    exact Except.ok.inj (hs.symm.trans hs')
  | some bs =>
    obtain ⟨bs', rfl, hbs⟩ := Option.map_eq_some_iff.1 hcanon.symm
    have hscan : i.tree.scan bs = i.tree.scan bs' := by
      rw [← Tree.scan_canon, ← hbs, Tree.scan_canon]
    have hback : i.tree.scanBackward bs = i.tree.scanBackward bs' := by
      rw [← Tree.scanBackward_canon, ← hbs, Tree.scanBackward_canon]
    cases hdir : a.direction <;> simp only [hdir, hscan, hback] at hs hs' <;>
      exact Except.ok.inj (hs.symm.trans hs')

theorem HashedIndex.hits_congr {v w : Value} (h : v.canon = w.canon) : hits v = hits w := by
  funext x
  rw [Bool.eq_iff_iff, hits_iff, hits_iff, Value.isNull_congr h, Value.order_congr rfl h]

/-- A hashed index does so if the values of one key that it is asked for share a bucket. -/
theorem HashedIndex.scan_of_oneKey {i : HashedIndex} {d e : Expr} {tids tids' : List Nat}
    (h : d.OneKey scope e)
    (hhash : ∀ v w, d.eval scope = .ok v → e.eval scope = .ok w → i.hash v = i.hash w)
    (hs : i.scan d scope = .ok tids) (hs' : i.scan e scope = .ok tids') : tids = tids' := by
  obtain ⟨v, hv, rfl⟩ := scan_eq_ok hs
  obtain ⟨w, hw, rfl⟩ := scan_eq_ok hs'
  have hcanon := h v w hv hw
  rw [Value.isNull_congr hcanon, hits_congr hcanon, hhash v w hv hw]

end RelPlan

import RelPlan.Proofs.Delivery
import RelPlan.Proofs.MergeRows

/-!
# What settled joins deliver

A join parts its conjuncts.  Those of the left input decide which left records there are, and the
others which right records go with one, be it that they are read inside the left row, or on the
right record alone and by equal keys (`JoinParts.joins`).  So the pairs that a join shows are those
that pass all of them (`perm_of_joined`), and they are in the order of the left records
(`sorted_of_joined`).
-/

namespace RelPlan

section
variable {left right : List Column} {outer : Env} {x y : Record} {c : Expr}

namespace Expr

/-- On the pair an expression is worth what it is worth on the right record inside the left one. -/
theorem Clear.worth_append (h : c.Clear (left ++ right)) (hx : x.cells.length = left.length) :
    c.worth ((x.append y).env (left ++ right) outer) =
      c.worth (y.env right (x.env left outer)) :=
  worth_congr fun r hr => cellsEnv_append hx (h r hr)

theorem Clear.worth_left (h : c.Clear (left ++ right)) (hx : x.cells.length = left.length)
    (hr : c.readsAny right = .ok false) :
    c.worth ((x.append y).env (left ++ right) outer) = c.worth (x.env left outer) := by
  rw [h.worth_append hx]
  exact worth_congr fun r hr' => cellsEnv_none (readsAny_eq_false.1 hr r hr')

theorem Clear.worth_right (h : c.Clear (left ++ right)) (hx : x.cells.length = left.length)
    (hl : c.readsAny left = .ok false) :
    c.worth ((x.append y).env (left ++ right) outer) = c.worth (y.env right outer) := by
  rw [h.worth_append hx]
  refine worth_congr fun r hr => ?_
  have hout : x.env left outer r = outer r := cellsEnv_none (readsAny_eq_false.1 hl r hr)
  unfold Record.env cellsEnv
  split
  exacts [rfl, hout, rfl]

end Expr

variable {goes : Record → Record → Bool} {X Y T : List Record} {Zs : List (List Record)}

/-- Each left record is joined with the right ones that go with it, in any order. -/
def Joined (goes : Record → Record → Bool) (Y T : List Record) (Zs : List (List Record)) : Prop :=
  List.Forall₂ (fun x Z => ∃ U : List Record, U.Perm (Y.filter (goes x)) ∧ Z = U.map x.append) T Zs

theorem joined_flatMap {U : Record → List Record} (h : ∀ x ∈ T, (U x).Perm (Y.filter (goes x))) :
    ∃ Zs, Joined goes Y T Zs ∧ Zs.flatten = T.flatMap fun x => (U x).map x.append := by
  refine ⟨T.map fun x => (U x).map x.append, ?_, rfl⟩
  exact List.forall₂_map_right_iff.2 (List.forall₂_same.2 fun x hx => ⟨U x, h x hx, rfl⟩)

/-- The pairs are those that pass what the left records pass and what makes the right ones go with
them. -/
theorem perm_of_joined {p q : Record → Bool} (h : Joined goes Y T Zs)
    (hT : T.Perm (X.filter p)) (hq : ∀ x ∈ X, ∀ y ∈ Y, q (x.append y) = (p x && goes x y)) :
    Zs.flatten.Perm ((X.flatMap fun x => Y.map x.append).filter q) := by
  have hflat : Zs.flatten.Perm (T.flatMap fun x => (Y.filter (goes x)).map x.append) := by
    clear hT
    induction h with
    | nil => exact .nil
    | cons hZ _ ih =>
      obtain ⟨U, hU, rfl⟩ := hZ
      exact (hU.map _).append ih
  refine hflat.trans ((hT.flatMap_right _).trans (.of_eq ?_))
  clear hflat hT h
  induction X with
  | nil => rfl
  | cons x X ih =>
    obtain ⟨hx, hX⟩ := List.forall_mem_cons.1 hq
    rw [List.flatMap_cons, List.filter_append, ← ih hX, List.filter_map]
    have hgoes : (Y.filter (q ∘ x.append)) = Y.filter fun y => p x && goes x y :=
      List.filter_congr hx
    rw [hgoes, List.filter_cons]
    cases p x with
    | true => simp
    | false => simp

theorem sorted_of_joined {o : SortOrder} (h : Joined goes Y T Zs) (ho : o.Bound left)
    (hc : ∀ k ∈ o.keys, k.expr.Clear (left ++ right)) (hT : ∀ x ∈ T, x.cells.length = left.length)
    (hs : o.Sorted (T.map (Record.env left outer))) :
    o.Sorted (Zs.flatten.map (Record.env (left ++ right) outer)) := by
  obtain ⟨hself, hpair⟩ := hs
  rw [List.pairwise_map] at hpair
  have hself (x : Record) (hx : x ∈ T) := hself _ (List.mem_map_of_mem hx)
  have hmem (Z : List Record) (hZ : Z ∈ Zs) (z : Record) (hz : z ∈ Z) :
      ∃ x ∈ T, ∃ y, z = x.append y := by
    obtain ⟨x, hx, U, -, rfl⟩ := exists_of_forall₂ h hZ
    obtain ⟨y, -, rfl⟩ := List.mem_map.1 hz
    exact ⟨x, hx, y, rfl⟩
  refine ⟨List.forall_mem_map.2 fun z hz => ?_, ?_⟩
  · obtain ⟨Z, hZ, hz⟩ := List.mem_flatten.1 hz
    obtain ⟨x, hx, y, rfl⟩ := hmem Z hZ z hz
    exact .of_left ho hc (hT x hx) (hT x hx) (hself x hx)
  · rw [List.pairwise_map, List.pairwise_flatten]
    refine ⟨fun Z hZ => ?_, ?_⟩
    · obtain ⟨x, hx, U, -, rfl⟩ := exists_of_forall₂ h hZ
      refine List.pairwise_map.2 (List.pairwise_of_forall fun y y' => ?_)
      exact .of_left ho hc (hT x hx) (hT x hx) (hself x hx)
    · have hall := (List.forall₂_and_left _ _).2 ⟨fun x hx => hT x hx, h⟩
      refine pairwise_of_forall₂ hall ?_ hpair
      rintro x x' Z Z' ⟨hx, U, -, rfl⟩ ⟨hx', U', -, rfl⟩ hle z hz z' hz'
      obtain ⟨y, -, rfl⟩ := List.mem_map.1 hz
      obtain ⟨y', -, rfl⟩ := List.mem_map.1 hz'
      exact .of_left ho hc hx hx' hle

/-! ### Parts of a join -/

/-- Nothing in the parts is ambiguous, and those of one input read nothing of the other. -/
structure JoinParts.Proper (left right : List Column) (parts : JoinParts) : Prop where
  clear : ∀ c, (c ∈ parts.left ∨ c ∈ parts.right ∨ c ∈ parts.straddling) → c.Clear (left ++ right)
  exact : ∀ c, (c ∈ parts.left ∨ c ∈ parts.right ∨ c ∈ parts.straddling) → c.isExact
  onLeft : ∀ c ∈ parts.left, c.readsAny right = .ok false
  onRight : ∀ c ∈ parts.right, c.readsAny left = .ok false

theorem Join.Decides.proper {cs : List Expr} {parts : JoinParts} {d : Join.Decision}
    (h : Join.Decides left right cs parts d) (hclear : ∀ c ∈ cs, c.Clear (left ++ right))
    (hexact : ∀ c ∈ cs, c.isExact) : parts.Proper left right :=
  ⟨fun c hc => hclear c ((h.mem c).2 hc), fun c hc => hexact c ((h.mem c).2 hc), h.onLeft,
    h.onRight⟩

/-- The conjuncts that the left record does not decide pass on the pair. -/
def JoinParts.joins (parts : JoinParts) (left right : List Column) (outer : Env) (x y : Record) :
    Bool :=
  Filter.Passes ((x.append y).env (left ++ right) outer)
    (Filter.ofList (parts.right ++ parts.straddling))

namespace JoinParts.Proper

variable {parts : JoinParts} (hp : parts.Proper left right)
include hp

/-- Inside the left row the right record decides whether it goes with it. -/
theorem joins_iff_within (hx : x.cells.length = left.length) :
    parts.joins left right outer x y ↔ Filter.Passes (y.env right (x.env left outer))
      (Filter.ofList (parts.right ++ parts.straddling)) := by
  rw [joins, decide_eq_true_iff, Filter.passes_ofList, Filter.passes_ofList]
  refine forall₂_congr fun c hc => ?_
  rw [Expr.Passes, (hp.clear c (.inr (List.mem_append.1 hc))).worth_append hx, Expr.Passes]

variable {pairs : List KeyPair}

/-- By itself the right record decides only what reads nothing else; the rest is that the keys are
equal. -/
theorem joins_iff_matches
    (hpairs : List.Forall₂ (KeyPair.IsOf left right) parts.straddling pairs) (hx : x.Fits left)
    (hy : y.Fits right) (ho : outer.IsExact) : parts.joins left right outer x y ↔
      Filter.Passes (y.env right outer) (Filter.ofList parts.right) ∧
        KeyPair.Matches pairs (x.env left outer) (y.env right outer) := by
  rw [joins, decide_eq_true_iff, Filter.passes_ofList, Filter.passes_ofList, List.forall_mem_append,
    ← matches_iff hpairs (fun c hc => hp.exact c (.inr (.inr hc)))
      (fun c hc => hp.clear c (.inr (.inr hc))) hx hy ho]
  refine and_congr_left fun _ => forall₂_congr fun c hc => ?_
  rw [Expr.Passes, (hp.clear c (.inr (.inl hc))).worth_right hx.length (hp.onRight c hc),
    Expr.Passes]

theorem isExact_pairs (hpairs : List.Forall₂ (KeyPair.IsOf left right) parts.straddling pairs) :
    ∀ p ∈ pairs, p.left.isExact ∧ p.right.isExact := by
  intro p hp'
  obtain ⟨c, hc, hof⟩ := exists_of_forall₂ hpairs hp'
  exact hof.isExact (hp.exact c (.inr (.inr hc)))

theorem joined_matches {U : List Record}
    (hpairs : List.Forall₂ (KeyPair.IsOf left right) parts.straddling pairs)
    (hT : ∀ x ∈ T, x.Fits left) (hY : ∀ y ∈ Y, y.Fits right) (ho : outer.IsExact)
    (hU : U.Perm (Y.filter fun y =>
      Filter.Passes (y.env right outer) (Filter.ofList parts.right))) :
    ∃ Zs, Joined (parts.joins left right outer) Y T Zs ∧ Zs.flatten =
      (keyedRecords left outer (pairs.map KeyPair.left) T).flatMap
        (partnersOf (keyedRecords right outer (pairs.map KeyPair.right) U)) := by
  rw [flatMap_partnersOf]
  refine joined_flatMap fun x hx => (hU.filter _).trans (.of_eq ?_)
  rw [List.filter_filter]
  refine List.filter_congr fun y hy => ?_
  rw [Bool.eq_iff_iff, hp.joins_iff_matches hpairs (hT x hx) (hY y hy) ho, Bool.and_eq_true,
    decide_eq_true_iff, decide_eq_true_iff, and_comm]

end JoinParts.Proper

/-- The conjuncts pass on a pair if those of the left input pass on the left record and the right
record goes with it. -/
theorem Join.Decides.passes_iff {cs : List Expr} {parts : JoinParts} {d : Join.Decision}
    (h : Join.Decides left right cs parts d) (hp : parts.Proper left right)
    (hx : x.cells.length = left.length) :
    (∀ c ∈ cs, c.Passes ((x.append y).env (left ++ right) outer)) ↔
      Filter.Passes (x.env left outer) (Filter.ofList parts.left) ∧
        parts.joins left right outer x y := by
  have hleft : (∀ c ∈ parts.left, c.Passes ((x.append y).env (left ++ right) outer)) ↔
      Filter.Passes (x.env left outer) (Filter.ofList parts.left) := by
    rw [Filter.passes_ofList]
    refine forall₂_congr fun c hc => ?_
    rw [Expr.Passes, (hp.clear c (.inl hc)).worth_left hx (hp.onLeft c hc), Expr.Passes]
  rw [← hleft, JoinParts.joins, decide_eq_true_iff, Filter.passes_ofList, ← List.forall_mem_append]
  refine forall_congr' fun c => imp_congr_left ?_
  rw [h.mem, List.mem_append, List.mem_append]

end

/-! ### What the strategies show -/

namespace Plan

variable {left right left' right' : Plan} {parts : JoinParts} {handed : Option SortOrder}
  {scope : Scope} {opened : Opened} {j : Join} {pairs : List KeyPair}

/-- The opened scan of a join shows pairs: what the left input delivers, joined with the right
records that go with it. -/
def ShowsPairs (left right : Plan) (parts : JoinParts) (handed : Option SortOrder) (left' : Plan)
    (scope : Scope) (opened : Opened) : Prop :=
  ∃ lo Ψ U Zs,
    Delivery True left handed left' scope lo (fun cells => Filter.Passes
      (cellsEnv left.columns scope.env cells) (Filter.ofList parts.left)) Ψ U ∧
    Joined (parts.joins left.columns right.columns scope.env) right.records
      (U.filter fun x => Ψ x.cells) Zs ∧
    (opened.scan ()).Shows (Row.Stands (left.columns ++ right.columns)) Zs.flatten

theorem Delivers.passes {p q : Plan} {f : Filter} {o : Option SortOrder}
    (h : p.Delivers True f o q) (hscope : scope.IsExact)
    (hopen : (q.scan scope).result = .ok opened) :
    ∃ Ψ U, Delivery True p o q scope opened
        (fun cells => f.Passes (cellsEnv p.columns scope.env cells)) Ψ U ∧
      ∀ x ∈ U.filter fun x => Ψ x.cells, x.Fits p.columns := by
  obtain ⟨Ψ, U, hd⟩ := h.delivery (fun _ => hscope) hopen
    (fun cells => f.Passes (cellsEnv p.columns scope.env cells))
    fun _ _ => (Filter.Admits.passes ..).congr (by simp)
  exact ⟨Ψ, U, hd, fun x hx => h.fits trivial x (hd.checked_sub hx)⟩

section
variable (hp : parts.Proper left.columns right.columns) (hscope : scope.IsExact)
  (hlcol : left'.columns = left.columns) (hrcol : right'.columns = right.columns)
  (hopen : ((pair .settled (.join j) left' right').scan scope).result = .ok opened)
include hp hscope hlcol hrcol hopen

theorem showsPairs_nestedLoop (hj : j.strategy = some .nestedLoop)
    (ihl : left.Delivers True (Filter.ofList parts.left) handed left')
    (ihr : right.Delivers True (Filter.ofList (parts.right ++ parts.straddling)) none right') :
    ShowsPairs left right parts handed left' scope opened := by
  rw [scan_nestedLoop hj, hlcol, hrcol] at hopen
  obtain ⟨lo, hlo, hopen⟩ := Logged.result_bind_eq_ok.1 hopen
  cases hopen
  obtain ⟨Ψ, U, h, hfits⟩ := ihl.passes hscope hlo
  have hpartners (row : Row) (x : Record) (hrow : row.Stands left.columns x)
      (hx : x ∈ U.filter fun x => Ψ x.cells) (t : Unit → Scan Row)
      (ht : (right'.scan (scope.push row) >>= fun r =>
        pure (r.filter (scope.push row) right'.residual).scan).result = .ok t) :
      ∃ V, V.Perm (right.records.filter (parts.joins left.columns right.columns scope.env x)) ∧
        (t ()).Shows (Row.Stands right.columns) V := by
    obtain ⟨ro, hro, ht⟩ := Logged.result_bind_eq_ok.1 ht
    cases ht
    have hinner := hscope.push (hrow.isExact (hfits x hx))
    obtain ⟨Ψ', V, h', -⟩ := ihr.passes hinner hro
    refine ⟨_, h'.perm.trans (.of_eq (List.filter_congr fun y hy => ?_)), h'.checked⟩
    rw [Bool.eq_iff_iff, hp.joins_iff_within (hfits x hx).length, ← hrow.env, decide_eq_true_iff]
    rfl
  obtain ⟨Zs, hZs, hshow⟩ := shows_nestedLoop h.checked (fun x _ => ⟨_, .refl _⟩) hpartners
  exact ⟨lo, Ψ, U, Zs, h, hZs, hshow⟩

variable (hpairs : List.Forall₂ (KeyPair.IsOf left.columns right.columns) parts.straddling pairs)
include hpairs

theorem showsPairs_hash (hj : j.strategy = some (.hash pairs))
    (ihl : left.Delivers True (Filter.ofList parts.left) handed left')
    (ihr : right.Delivers True (Filter.ofList parts.right) none right') :
    ShowsPairs left right parts handed left' scope opened := by
  rw [scan_hash hj, hlcol, hrcol] at hopen
  obtain ⟨lo, hlo, hopen⟩ := Logged.result_bind_eq_ok.1 hopen
  obtain ⟨ro, hro, hopen⟩ := Logged.result_bind_eq_ok.1 hopen
  cases hopen
  obtain ⟨Ψ, U, h, hT⟩ := ihl.passes hscope hlo
  obtain ⟨Ψ', V, h', hV⟩ := ihr.passes hscope hro
  have hexact := hp.isExact_pairs hpairs
  obtain ⟨Zs, hZs, heq⟩ := hp.joined_matches hpairs hT (ihr.fits trivial) hscope.env h'.perm
  refine ⟨lo, Ψ, U, Zs, h, hZs, ?_⟩
  rw [heq]
  exact shows_hashJoin hscope (fun p hp => (hexact p hp).1) (fun p hp => (hexact p hp).2) hT hV
    h.checked h'.checked

theorem showsPairs_merge (hj : j.strategy = some (.merge pairs))
    (ihl : (left.sort (Join.leftKeys pairs)).Delivers True (Filter.ofList parts.left) handed left')
    (ihr : (right.sortBuffered (Join.rightKeys pairs)).Delivers True
      (Filter.ofList parts.right) none right') :
    ShowsPairs (left.sort (Join.leftKeys pairs)) right parts handed left' scope opened := by
  rw [scan_merge hj, hlcol, hrcol] at hopen
  obtain ⟨lo, hlo, hopen⟩ := Logged.result_bind_eq_ok.1 hopen
  obtain ⟨ro, hro, hopen⟩ := Logged.result_bind_eq_ok.1 hopen
  cases hopen
  obtain ⟨Ψ, U, h, hT⟩ := ihl.passes hscope hlo
  obtain ⟨Ψ', V, h', hV⟩ := ihr.passes hscope hro
  have hexact := hp.isExact_pairs hpairs
  obtain ⟨Zs, hZs, heq⟩ := hp.joined_matches hpairs hT (ihr.fits trivial) hscope.env h'.perm
  refine ⟨lo, Ψ, U, Zs, h, hZs, ?_⟩
  rw [heq]
  exact shows_mergeJoin hscope (fun p hp => (hexact p hp).1) (fun p hp => (hexact p hp).2) hT hV
    ((h.own trivial).sublist (List.filter_sublist.map _))
    ((h'.own trivial).sublist (List.filter_sublist.map _))
    h.checked h'.checked

end

theorem showsPairs_of_decides {cs : List Expr} {d : Join.Decision}
    (hdec : Join.Decides left.columns right.columns cs parts d)
    (hp : parts.Proper left.columns right.columns) (hscope : scope.IsExact)
    (hlcol : left'.columns = left.columns) (hrcol : right'.columns = right.columns)
    (hopen : ((pair .settled (.join j) left' right').scan scope).result = .ok opened)
    (hj : j.strategy = some d.strategy)
    (ihl : (Join.arrangeLeft d.strategy left).Delivers True d.forLeft handed left')
    (ihr : (Join.arrangeRight d.strategy right).Delivers True d.forRight none right') :
    ShowsPairs (Join.arrangeLeft d.strategy left) right parts handed left' scope opened := by
  have hfl := hdec.forLeft
  have hfr := hdec.forRight
  obtain ⟨strategy, fl, fr⟩ := d
  simp only at *
  subst hfl
  rcases hfr with ⟨rfl, rfl⟩ | ⟨hs, hpairs, rfl⟩
  · exact showsPairs_nestedLoop hp hscope hlcol hrcol hopen hj ihl ihr
  · generalize strategy.pairs = pairs at hs hpairs
    rcases hs with rfl | rfl
    · exact showsPairs_hash hp hscope hlcol hrcol hopen hpairs hj ihl ihr
    · exact showsPairs_merge hp hscope hlcol hrcol hopen hpairs hj ihl ihr

theorem unmet_join_eq_none (h : (pair .settled (.join j) left right).unmet = none) :
    j.pending = none ∧ (left.unmet = none ∨ j.wanted = none) := by
  rw [unmet, if_pos rfl] at h
  split at h
  · cases h
  · next hpending =>
    refine ⟨hpending, ?_⟩
    cases hcase : left.unmet with
    | none => exact .inl rfl
    | some => exact .inr (by simpa [hcase] using h)

theorem sorted_join {cs : List Expr} {d : Join.Decision} {condition pushed : Filter}
    {choice : JoinChoice} {requested wanted pending : Option SortOrder} {lo : Opened}
    {goes : Record → Record → Bool} {Φ Ψ : List (Option Value) → Bool} {U Y : List Record}
    {Zs : List (List Record)} (hdec : Join.Decides left.columns right.columns cs parts d)
    (hp : parts.Proper left.columns right.columns)
    (ho : Join.Places d.strategy left.columns right.columns requested wanted handed pending)
    (h : Delivery True (Join.arrangeLeft d.strategy left) handed left' scope lo Φ Ψ U)
    (hlen : ∀ x ∈ U, x.cells.length = left.columns.length)
    (hZs : Joined goes Y (U.filter fun x => Ψ x.cells) Zs)
    (hunmet : (pair .settled (.join ⟨condition, choice, pushed, wanted, some d.strategy, pending⟩)
      left' right').unmet = none) :
    ∀ o ∈ requested,
      o.Sorted (Zs.flatten.map (Record.env (left.columns ++ right.columns) scope.env)) := by
  obtain ⟨hpending, hmet⟩ := unmet_join_eq_none hunmet
  have hlow {k : SortOrder} (hb : k.Bound left.columns)
      (hc : ∀ k' ∈ k.keys, k'.expr.Clear (left.columns ++ right.columns))
      (hs : k.Sorted (U.map (Record.env left.columns scope.env))) :
      k.Sorted (Zs.flatten.map (Record.env (left.columns ++ right.columns) scope.env)) :=
    sorted_of_joined hZs hb hc (fun x hx => hlen x (List.mem_of_mem_filter hx))
      (hs.sublist (List.filter_sublist.map _))
  cases ho with
  | none => simp
  | @merge pairs o₁ o₂ hs hqo =>
    -- merging goes by the order of the keys that the left input was sorted by
    rintro _ ⟨⟩
    have hown := h.own trivial
    rw [columns_arrangeLeft, hs] at hown
    have hkeys (k : SortKey) (hk : k ∈ (Join.leftKeys pairs).keys) :
        k.expr.Bound left.columns ∧ k.expr.Clear (left.columns ++ right.columns) := by
      obtain ⟨e, he, rfl⟩ := List.mem_map.1 hk
      obtain ⟨p, hp', rfl⟩ := List.mem_map.1 he
      obtain ⟨c, hc, hof⟩ := hdec.exists_isOf p (by rw [hs]; exact hp')
      exact ⟨hof.left, (hof.clear (hp.clear c (.inr (.inr hc)))).1⟩
    have hsorted := hlow (fun k hk => (hkeys k hk).1) (fun k hk => (hkeys k hk).2) hown
    exact SortOrder.sorted_of_qualify hqo (sorted_of_unmet_eq_none hpending hsorted o₂ rfl)
  | @left o₁ o₂ hs hqo hr =>
    rintro _ ⟨⟩
    have hsorted := h.sorted trivial (hmet.resolve_right (by simp)) o₂ rfl
    rw [columns_arrangeLeft] at hsorted
    have hclear : ∀ k ∈ o₂.keys, k.expr.Clear (left.columns ++ right.columns) :=
      SortOrder.forall_of_mapM hqo fun _ _ _ he => Expr.clear_of_qualify he
    exact SortOrder.sorted_of_qualify hqo
      (hlow (SortOrder.bound_of_resolvesWithin hr) hclear hsorted)
  | stays => cases hpending

theorem delivers_join {condition : Option Expr} {condition' f : Filter} {choice : JoinChoice}
    {o wanted pending : Option SortOrder} {d : Join.Decision}
    (hcond : condition.mapM (Expr.bindTo (left.columns ++ right.columns)) = .ok condition')
    (hd : Join.decide
      { condition := condition', choice, pushed := f.taken, wanted := SortOrder.taken o }
      left.columns right.columns = .ok d)
    (ho : Join.Places d.strategy left.columns right.columns (SortOrder.taken o) wanted handed
      pending)
    (hlcol : left'.columns = left.columns) (hrcol : right'.columns = right.columns)
    (hx : Filter.IsExact condition) (hf : f.IsExact)
    (ihl : (Join.arrangeLeft d.strategy left).Delivers True d.forLeft handed left')
    (ihr : (Join.arrangeRight d.strategy right).Delivers True d.forRight none right') :
    (Plan.join condition choice left right).Delivers True f o
      (pair .settled (.join ⟨condition', choice, f.taken, wanted, some d.strategy, pending⟩)
        left' right') := by
  obtain ⟨pushed, parts, hq, hdec⟩ := Join.decide_spec hd
  obtain ⟨hbound, hexact, hpasses⟩ := Filter.bindTo_spec hcond
  have hexact := hexact hx
  have hpushed := Filter.isExact_rename (Filter.isExact_taken hf) hq
  have hfaithful := Filter.faithful_of_qualify hq
  have hkclear :
      (Filter.fold (.union [condition', pushed])).Clear (left.columns ++ right.columns) :=
    (Filter.RefsIn.union (fun e he => (hbound e he).clear) (Filter.clear_rename hfaithful hq)).fold
  have hkexact : (Filter.fold (.union [condition', pushed])).IsExact :=
    Filter.isExact_fold (hexact.union hpushed)
  have hp := hdec.proper hkclear.conjuncts hkexact.conjuncts
  have hlfits (x : Record) (hx : x ∈ left.records) : x.Fits left.columns := by
    have := ihl.fits trivial x
    rw [records_arrangeLeft, columns_arrangeLeft] at this
    exact this hx
  have hrfits (y : Record) (hy : y ∈ right.records) : y.Fits right.columns := by
    have := ihr.fits trivial y
    rw [records_arrangeRight, columns_arrangeRight] at this
    exact this hy
  have hmem (z : Record) (hz : z ∈ (Plan.join condition choice left right).records) :
      ∃ x ∈ left.records, ∃ y ∈ right.records, x.append y = z := by
    obtain ⟨x, hx, hz⟩ := List.mem_flatMap.1 (List.mem_of_mem_filter hz)
    obtain ⟨y, hy, rfl⟩ := List.mem_map.1 hz
    exact ⟨x, hx, y, hy, rfl⟩
  have hfits (z : Record) (hz : z ∈ (Plan.join condition choice left right).records) :
      z.Fits (left.columns ++ right.columns) := by
    obtain ⟨x, hx, y, hy, rfl⟩ := hmem z hz
    exact (hlfits x hx).append (hrfits y hy)
  refine ⟨fun _ => hfits, fun {scope opened} hscope hopen Φ hΦ => ?_⟩
  have hscope := hscope trivial
  obtain ⟨lo, Ψ, U, Zs, h, hZs, hshow⟩ :=
    showsPairs_of_decides hdec hp hscope hlcol hrcol hopen rfl ihl ihr
  rw [columns_arrangeLeft] at hZs hshow
  have hT := h.perm
  rw [records_arrangeLeft, columns_arrangeLeft] at hT
  -- a pair passes the condition, of which the parts are the conjuncts, together with the filter
  have hkeep (x : Record) (hx : x ∈ left.records) (y : Record) (hy : y ∈ right.records) :
      (Φ (x.append y).cells && decide (Filter.Passes
        ((x.append y).env (left.columns ++ right.columns) Scope.empty.env) condition)) =
      (Filter.Passes (cellsEnv left.columns scope.env x.cells) (Filter.ofList parts.left) &&
        parts.joins left.columns right.columns scope.env x y) := by
    have hown : Filter.Admits (left.columns ++ right.columns) scope.env (x.append y).cells
        condition'
        (Filter.Passes ((x.append y).env (left.columns ++ right.columns) Scope.empty.env)
          condition) := (Filter.Admits.passes ..).congr (hpasses _ _ _)
    have hunion := hown.union fun hpass => by
      have hz : x.append y ∈ (Plan.join condition choice left right).records :=
        List.mem_filter.2 ⟨List.mem_flatMap.2 ⟨x, hx, List.mem_map_of_mem hy⟩, by simpa using hpass⟩
      exact (hΦ _ hz).push.rename hfaithful hq
    have hiff := hunion.fold.iff hkclear
    change _ ↔ Filter.Passes ((x.append y).env _ _) _ at hiff
    rw [Filter.passes_iff_conjuncts (f := Filter.fold _),
      hdec.passes_iff hp (hlfits x hx).length] at hiff
    rw [Bool.eq_iff_iff, Bool.and_eq_true, Bool.and_eq_true, decide_eq_true_iff, decide_eq_true_iff,
      and_comm]
    exact hiff
  have hperm : Zs.flatten.Perm
      ((Plan.join condition choice left right).records.filter fun z => Φ z.cells) := by
    refine (perm_of_joined (q := fun z => Φ z.cells && Filter.Passes
      (z.env (left.columns ++ right.columns) Scope.empty.env) condition) hZs hT hkeep).trans
      (.of_eq ?_)
    exact (List.filter_filter).symm
  have hsub : Zs.flatten ⊆ (Plan.join condition choice left right).records :=
    fun z hz => List.mem_of_mem_filter (hperm.subset hz)
  refine ⟨fun _ => true, Zs.flatten, ⟨hsub, hshow, fun _ _ => .none rfl, by rwa [List.filter_true]⟩,
    fun _ => .of_isEmpty rfl _, fun _ hunmet => sorted_of_taken ?_⟩
  refine sorted_join hdec hp ho h (fun x hx => (hlfits x ?_).length) hZs hunmet
  exact records_arrangeLeft d.strategy left ▸ h.sub hx

end Plan

end RelPlan

import RelPlan.Proofs.Cells
import RelPlan.Proofs.KeyBounds
import RelPlan.Proofs.ScanShows
import RelPlan.Proofs.SortValues
import RelPlan.Proofs.TableRuns

/-!
# The rows of an access path

An index that is in step with the rows of a table gives, for a probe that was made from conjuncts of
a filter, exactly the rows that satisfy those conjuncts and the condition of the index.  What the
path enforces can therefore be dropped from the filter (`AccessPath.select_sound`).
-/

namespace RelPlan

variable {t : Table} {i : Index} {row : Row} {rows : List Row} {scope : Scope} {x y : Entry}
  {cs : List Expr} {requested : Option SortOrder} {c : AccessPath.Candidate} {tids : List Nat}

theorem Expr.worth_of_evalAll {inner : Scope} {es : List Expr} {vs : List Value}
    (hinner : inner.rows <+: scope.rows) (h : evalAll inner row es = .ok vs) :
    List.Forall₂ (fun e v => e.worth (row.env scope) = some v) es vs :=
  (Result.mapM_eq_ok.1 h).imp fun _ _ hv => worth_of_evalRow_inner hinner hv

namespace Index

theorem worth_keys (scope : Scope) {i : OrderedIndex} {c : Option Expr}
    (hx : entryOf ⟨c, .ordered i⟩ row = .ok (some x)) :
    List.Forall₂ (fun k v => k.worth (row.env scope) = some v) i.keys x.key := by
  obtain ⟨-, hx⟩ | ⟨y, -, hy, hx⟩ := entryOf_eq_ok.1 hx
  · cases hx
  cases hx
  obtain ⟨tid, -, hy⟩ := Result.bind_eq_ok.1 hy
  obtain ⟨key, hkey, hy⟩ := Result.bind_eq_ok.1 hy
  cases hy
  exact Expr.worth_of_evalAll List.nil_prefix hkey

theorem worth_key (scope : Scope) {i : HashedIndex} {c : Option Expr}
    (hx : entryOf ⟨c, .hashed i⟩ row = .ok (some x)) :
    ∃ v, x.key = [v] ∧ i.key.worth (row.env scope) = some v := by
  obtain ⟨-, hx⟩ | ⟨y, -, hy, hx⟩ := entryOf_eq_ok.1 hx
  · cases hx
  cases hx
  obtain ⟨tid, -, hy⟩ := Result.bind_eq_ok.1 hy
  obtain ⟨v, hv, hy⟩ := Result.bind_eq_ok.1 hy
  cases hy
  exact ⟨v, rfl, Expr.worth_of_evalRow_inner List.nil_prefix hv⟩

theorem passes_condition (scope : Scope) {b : Bool}
    (hattached : ∀ e ∈ i.exprs, ∀ r ∈ e.refs, ∃ k, resolve t.columns r = .ok (some k))
    (hcol : row.columns = t.columns) (hcovers : i.covers row = .ok b) :
    Filter.Passes (row.env scope) i.condition ↔ b := by
  unfold covers at hcovers
  split at hcovers
  · next hnone => simp_all
  · next e hsome =>
    rw [hsome, Filter.passes_some, ← Expr.passes_iff_of_holds hcovers, Expr.Passes, Expr.Passes,
      Expr.worth_of_resolves]
    exact hcol ▸ hattached e (List.mem_append_left _ (by simp [hsome]))

theorem InStep.passes_condition (scope : Scope) (h : i.InStep t.columns rows)
    (hcol : row.columns = t.columns) {o : Option Entry} (ho : i.entryOf row = .ok o) :
    Filter.Passes (row.env scope) i.condition ↔ o.isSome := by
  refine Index.passes_condition scope h.attached hcol ?_
  obtain ⟨hc, rfl⟩ | ⟨x, hc, -, rfl⟩ := entryOf_eq_ok.1 ho <;> exact hc

end Index

theorem Value.compareSql_eq_iff {v w : Value} :
    v.compareSql w = .ok (some .eq) ↔ v.isNull = false ∧ w.isNull = false ∧ v.order w = .eq := by
  unfold compareSql
  cases hv : v.isNull <;> cases hw : w.isNull <;> simp
  by_cases hr : v.rank = w.rank
  · simp [hr]
  · have ho : v.order w ≠ .eq := fun ho => hr (Value.rank_eq_of_order_eq ho)
    simp [hr, ho]

theorem HashedIndex.hits_eq (w v : Value) :
    hits w v = decide (v.compareSql w = .ok (some .eq)) := by
  unfold hits
  split
  · next h => simp [h]
  · next h => simpa using h

theorem HashedIndex.hits_iff {v w : Value} :
    hits w v ↔ v.isNull = false ∧ w.isNull = false ∧ v.order w = .eq := by
  rw [hits_eq, decide_eq_true_eq, Value.compareSql_eq_iff]

/-- The expressions that an index is asked with. -/
def Probe.exprs : Probe → List Expr
  | range r => r.columns.flatMap fun c => (c.lower ++ c.upper).map Bound.expr
  | key e => [e]

namespace AccessPath

theorem foreign_eq_true {e : Expr} (h : foreign t e = .ok true) :
    e.readsAny t.columns = .ok false := by
  obtain ⟨b, hb, h⟩ := Result.bind_eq_ok.1 h
  cases b <;> simp_all

/-- Ranges stand for the conjuncts that they were read off.  Their bounds are foreign, so they are
worth the same before the scan and on a row. -/
theorem allRespected_iff_passes {keys conjuncts consumed : List Expr} {ranges : List ColumnRange}
    {vs : List Value}
    (h : KeyRange.extract (foreign t) keys conjuncts = .ok (ranges, consumed))
    (hcol : row.columns = t.columns)
    (hkeys : List.Forall₂ (fun k v => k.worth (row.env scope) = some v) keys vs) :
    ColumnRange.AllRespected scope.env ranges vs ↔ ∀ e ∈ consumed, e.Passes (row.env scope) := by
  rw [(KeyRange.extractFrom_spec (by simp) h).2 _ vs hkeys]
  simp only [List.not_mem_nil, false_imp_iff, implies_true, true_and]
  refine (ColumnRange.allRespected_congr fun r hr b hb => ?_).symm
  obtain ⟨key, s, -, hof, heq⟩ := KeyRange.bound_of_extractFrom h r hr b hb
  rw [heq]
  exact Expr.worth_of_readsAny (hcol ▸ foreign_eq_true hof.foreign)

/-- What a probe that was made from conjuncts gives: the entries of the rows that satisfy them, in
the order of the candidate. -/
structure Gives (t : Table) (i : Index) (scope : Scope) (c : Candidate) (tids : List Nat)
    (found : List Entry) (p : Entry → Bool) : Prop where
  tids : tids = found.map Entry.tid
  perm : found.Perm (i.entries.filter p)
  sorted : found.Pairwise fun x y => (c.ordering.compare x.key y.key).isLE
  stands : ∀ row x, row.columns = t.columns → row.IsExact → i.entryOf row = .ok (some x) →
    (p x ↔ ∀ e ∈ c.consumed, e.Passes (row.env scope))

theorem orderedCandidate_eq_ok {i : OrderedIndex} (h : orderedCandidate t i cs requested = .ok c) :
    ∃ ranges consumed dir ordering,
      KeyRange.extract (foreign t) i.keys cs = .ok (ranges, consumed) ∧
        c = ⟨.range ⟨ranges, dir⟩, consumed, ordering⟩ ∧
        (dir = .forward ∧ ordering = i.ordering ∨
          dir = .backward ∧ ordering = i.ordering.reversed) := by
  obtain ⟨⟨ranges, consumed⟩, hextract, h⟩ := Result.bind_eq_ok.1 h
  dsimp only at h
  split at h <;> cases h
  exacts [⟨_, _, _, _, hextract, rfl, .inl ⟨rfl, rfl⟩⟩,
    ⟨_, _, _, _, hextract, rfl, .inr ⟨rfl, rfl⟩⟩]

theorem gives_ordered {i : OrderedIndex} {cond : Option Expr}
    (h : Index.InStep t.columns rows ⟨cond, .ordered i⟩) (hcs : ∀ e ∈ cs, e.isExact)
    (hc : orderedCandidate t i cs requested = .ok c) (hs : scope.IsExact)
    (hscan : Index.scan ⟨cond, .ordered i⟩ c.probe scope = .ok tids) :
    (∀ e ∈ c.consumed, e ∈ cs) ∧ ∃ found p, Gives t ⟨cond, .ordered i⟩ scope c tids found p := by
  obtain ⟨ranges, consumed, dir, ordering, hextract, rfl, hdir⟩ := orderedCandidate_eq_ok hc
  obtain ⟨hsub, -⟩ := KeyRange.extractFrom_spec (by simp) hextract
  have hbounds (r : ColumnRange) (hr : r ∈ ranges) (b : Bound) (hb : b ∈ r.lower ++ r.upper) :
      b.expr.isExact := by
    obtain ⟨key, s, hmem, hof, heq⟩ := KeyRange.bound_of_extractFrom hextract r hr b hb
    exact heq ▸ hof.isExact_other (hcs _ hmem)
  refine ⟨hsub, ?_⟩
  obtain ⟨limits?, hlimits, hgiven⟩ := Result.bind_eq_ok.1 hscan
  clear hscan
  have hrx : ∀ r ∈ ranges, r.IsExact := fun r hr =>
    ⟨fun b hb => hbounds r hr b (List.mem_append_left _ hb),
      fun b hb => hbounds r hr b (List.mem_append_right _ hb)⟩
  obtain ⟨hnone, hsome⟩ := Limits.ofRanges_spec (fun r hr => (hrx r hr).isExactIn hs) hlimits
  have hstands (row : Row) (x : Entry) (hcol : row.columns = t.columns)
      (hx : Index.entryOf ⟨cond, .ordered i⟩ row = .ok (some x)) :
      ColumnRange.AllRespected scope.env ranges x.key ↔
        ∀ e ∈ consumed, e.Passes (row.env scope) :=
    allRespected_iff_passes hextract hcol (Index.worth_keys scope hx)
  cases limits? with
  | none =>
    cases hgiven
    refine ⟨[], fun _ => false, rfl, by simp, .nil, fun row x hcol _ hx => ?_⟩
    simp [← hstands row x hcol hx, hnone rfl]
  | some limits =>
    obtain ⟨hlx, hallow⟩ := hsome limits rfl
    have hsharp : ∀ b ∈ limits, b.IsSharp := fun b hb => (hlx b hb).isSharp
    have htree := h.sound.placed
    have hkeysx (x : Entry) (hx : x ∈ i.tree.toList) := (htree.keys x hx).exact
    let p : Entry → Bool := fun x => Limits.allowKey limits x.key
    have hp (row : Row) (x : Entry) (hcol : row.columns = t.columns) (hr : row.IsExact)
        (hx : Index.entryOf ⟨cond, .ordered i⟩ row = .ok (some x)) :
        p x ↔ ∀ e ∈ consumed, e.Passes (row.env scope) := by
      rw [← hstands row x hcol hx]
      exact hallow x.key (Index.isKey_of_entryOf h.exact hr hx).exact
    have hsorted : (i.tree.toList.filter p).Pairwise Entry.le := htree.sorted.filter p
    have hlength (x : Entry) (hx : x ∈ i.tree.toList.filter p) : x.key.length = i.keys.length :=
      (htree.keys x (List.mem_of_mem_filter hx)).length
    rcases hdir with ⟨rfl, rfl⟩ | ⟨rfl, rfl⟩
    · cases hgiven
      refine ⟨i.tree.toList.filter p, p, Tree.scan_eq htree hsharp, .refl _, ?_, hp⟩
      refine hsorted.imp_of_mem fun {x y} hx hy hle => ?_
      rw [SortOrder.compare, OrderedIndex.ordering, SortOrder.compareBy_ascending (hlength x hx)]
      exact hle
    · cases hgiven
      refine ⟨(i.tree.toList.filter p).reverse, p, ?_, List.reverse_perm _, ?_, hp⟩
      · rw [Tree.scanBackward_eq, Tree.scan_eq htree hsharp, List.map_reverse]
      · refine List.pairwise_reverse.2 (hsorted.imp_of_mem fun {x y} hx hy hle => ?_)
        rw [SortOrder.compare, SortOrder.compareBy_reversed, OrderedIndex.ordering,
          SortOrder.compareBy_ascending (hlength x hx)]
        exact hle

theorem equated_binary (t : Table) (key l r : Expr) :
    equated t key (.binary (.cmp .eq) l r) =
      (if l.equiv key then foreign t r else .ok false) >>= fun keyLeft =>
      (if keyLeft then .ok false else if r.equiv key then foreign t l else .ok false) >>=
        fun keyRight =>
      if keyLeft then .ok (some r) else if keyRight then .ok (some l) else .ok none := by
  rw [equated]
  cases l.equiv key <;> cases r.equiv key <;> rcases foreign t r with _ | (_ | _) <;> simp

theorem equated_eq_some {key e probe : Expr} (h : equated t key e = .ok (some probe)) :
    foreign t probe = .ok true ∧ ∃ k, k.equiv key ∧
      (e = .binary (.cmp .eq) k probe ∨ e = .binary (.cmp .eq) probe k) := by
  unfold equated at h
  split at h
  · next l r =>
    rw [← equated, equated_binary] at h
    obtain ⟨keyLeft, hleft, h⟩ := Result.bind_eq_ok.1 h
    obtain ⟨keyRight, hright, h⟩ := Result.bind_eq_ok.1 h
    split at h
    · next hkey =>
      cases h
      split at hleft
      · next hl => exact ⟨by rw [hleft, hkey], l, hl, .inl rfl⟩
      · cases hleft; cases hkey
    · next hkey =>
      rw [if_neg hkey] at hright
      split at h
      · next hkey =>
        cases h
        split at hright
        · next hr => exact ⟨by rw [hright, hkey], r, hr, .inr rfl⟩
        · cases hright; cases hkey
      · cases h
  · cases h

theorem isOf_of_equated {key e probe : Expr} (h : equated t key e = .ok (some probe)) :
    (⟨e, .eq, probe⟩ : Restriction).IsOf (foreign t) key := by
  obtain ⟨hforeign, k, hk, hshape⟩ := equated_eq_some h
  exact ⟨by simp, hforeign, k, hk, hshape⟩

theorem hashedCandidate_eq_some {i : HashedIndex} (h : hashedCandidate t i cs = .ok (some c)) :
    ∃ e ∈ cs, ∃ probe, equated t i.key e = .ok (some probe) ∧ c = ⟨.key probe, [e], .empty⟩ := by
  induction cs with
  | nil => cases h
  | cons e es ih =>
    obtain ⟨o, ho, h⟩ := Result.bind_eq_ok.1 h
    match o, h with
    | some probe, h => cases h; exact ⟨e, by simp, probe, ho, rfl⟩
    | none, h =>
      obtain ⟨e', he', hrest⟩ := ih h
      exact ⟨e', List.mem_cons_of_mem _ he', hrest⟩

theorem restriction_of_probe (h : candidate t i cs requested = .ok (some c)) :
    ∀ d ∈ c.probe.exprs, ∃ (key : Expr) (s : Restriction),
      s.conjunct ∈ cs ∧ s.IsOf (foreign t) key ∧ d = s.other := by
  obtain ⟨cond, base⟩ := i
  cases base with
  | ordered i =>
    obtain ⟨c', hc, hsome⟩ := Result.map_eq_ok.1 h
    cases hsome
    obtain ⟨ranges, consumed, dir, ordering, hextract, rfl, -⟩ := orderedCandidate_eq_ok hc
    intro d hd
    obtain ⟨r, hr, hd⟩ := List.mem_flatMap.1 hd
    obtain ⟨b, hb, rfl⟩ := List.mem_map.1 hd
    exact KeyRange.bound_of_extractFrom hextract r hr b hb
  | hashed i =>
    obtain ⟨e, he, probe, hequated, rfl⟩ := hashedCandidate_eq_some h
    intro d hd
    exact ⟨i.key, ⟨e, .eq, probe⟩, he, isOf_of_equated hequated, List.mem_singleton.1 hd⟩

/-- A probe reads what the conjuncts read that it was made from, and nothing of the table. -/
theorem refsIn_probe {G : ColumnRef → Prop} (hcs : ∀ e ∈ cs, e.RefsIn G)
    (h : candidate t i cs requested = .ok (some c)) :
    ∀ d ∈ c.probe.exprs, d.RefsIn fun r => G r ∧ resolve t.columns r = .ok none := by
  intro d hd r hr
  obtain ⟨key, s, hmem, hof, rfl⟩ := restriction_of_probe h d hd
  exact ⟨hcs _ hmem r (hof.refs_other hr),
    Expr.readsAny_eq_false.1 (foreign_eq_true hof.foreign) r hr⟩

theorem isExact_probe (hcs : ∀ e ∈ cs, e.isExact) (h : candidate t i cs requested = .ok (some c)) :
    ∀ d ∈ c.probe.exprs, d.isExact := by
  intro d hd
  obtain ⟨key, s, hmem, hof, rfl⟩ := restriction_of_probe h d hd
  exact hof.isExact_other (hcs _ hmem)

theorem gives_hashed {i : HashedIndex} {cond : Option Expr}
    (h : Index.InStep t.columns rows ⟨cond, .hashed i⟩) (hrows : ∀ r ∈ rows, r.IsExact)
    (hcs : ∀ e ∈ cs, e.isExact)
    (hc : hashedCandidate t i cs = .ok (some c)) (hs : scope.IsExact)
    (hscan : Index.scan ⟨cond, .hashed i⟩ c.probe scope = .ok tids) :
    (∀ e ∈ c.consumed, e ∈ cs) ∧ ∃ found p, Gives t ⟨cond, .hashed i⟩ scope c tids found p := by
  obtain ⟨e, he, probe, hequated, rfl⟩ := hashedCandidate_eq_some hc
  have hof := isOf_of_equated hequated
  obtain ⟨w, hw, htids⟩ := HashedIndex.scan_eq_ok hscan
  have hwx := Expr.eval_isExact (hof.isExact_other (hcs e he)) hs hw
  let p : Entry → Bool := fun x => x.key.any (HashedIndex.hits w)
  have hstands (row : Row) (x : Entry) (hcol : row.columns = t.columns) (_ : row.IsExact)
      (hx : Index.entryOf ⟨cond, .hashed i⟩ row = .ok (some x)) :
      p x ↔ ∀ e' ∈ [e], e'.Passes (row.env scope) := by
    obtain ⟨v, hv, hworth⟩ := Index.worth_key scope hx
    have hpw : probe.worth (row.env scope) = some w := by
      rw [Expr.worth_of_readsAny (hcol ▸ foreign_eq_true hof.foreign), Expr.worth_of_eval hw]
    have hpass : e.Passes (row.env scope) ↔ Comparison.eq.worth v w = .bool true := by
      rw [hof.passes_conjunct hworth, hpw]
      simp
    simp only [p, hv, List.any_cons, List.any_nil, Bool.or_false, List.mem_singleton, forall_eq,
      hpass, HashedIndex.hits_iff, Comparison.worth_eq_true, Comparison.holds, beq_iff_eq]
  have hentries : i.entries.filter p =
      (i.pairs.filter fun x => HashedIndex.hits w x.2).map fun x => ⟨[x.2], x.1⟩ := by
    rw [HashedIndex.entries, List.filter_map]
    congr 2
    funext x
    simp [p]
  -- a value that the probe hits is the probe, so it stands in the bucket of its hash
  have hbucket : ((i.bucket (i.hash w)).filter fun x => HashedIndex.hits w x.2).Perm
      (i.pairs.filter fun x => HashedIndex.hits w x.2) := by
    refine HashedIndex.Placed.filter_bucket_perm h.sound.placed fun x hx hhit => ?_
    have hentry : (⟨[x.2], x.1⟩ : Entry) ∈ (⟨cond, .hashed i⟩ : Index).entries :=
      List.mem_map_of_mem hx
    obtain ⟨row, hrow, hentry⟩ := h.exists_row hentry
    have hxx := (Index.isKey_of_entryOf h.exact (hrows row hrow) hentry).exact x.2 (by simp)
    rw [(Value.order_eq_iff hxx hwx).1 (HashedIndex.hits_iff.1 hhit).2.2]
  have hsorted (l : List Entry) :
      l.Pairwise fun x y => (SortOrder.empty.compare x.key y.key).isLE :=
    List.pairwise_of_forall fun _ _ => rfl
  refine ⟨by simpa using he, ?_⟩
  by_cases hnull : w.isNull
  · refine ⟨[], p, by simp [htids, hnull], ?_, .nil, hstands⟩
    have hnone : i.entries.filter p = [] := by
      rw [hentries, List.map_eq_nil_iff]
      exact List.filter_eq_nil_iff.2 fun x _ hhit => by
        simp [(HashedIndex.hits_iff.1 hhit).2.1] at hnull
    exact hnone ▸ .refl _
  · refine ⟨((i.bucket (i.hash w)).filter fun x => HashedIndex.hits w x.2).map
      fun x => ⟨[x.2], x.1⟩, p, ?_, ?_, hsorted _, hstands⟩
    · simp [htids, hnull]
    · exact hentries ▸ hbucket.map _

theorem gives_of_candidate (h : i.InStep t.columns rows) (hrows : ∀ r ∈ rows, r.IsExact)
    (hcs : ∀ e ∈ cs, e.isExact) (hc : candidate t i cs requested = .ok (some c))
    (hs : scope.IsExact) (hscan : i.scan c.probe scope = .ok tids) :
    (∀ e ∈ c.consumed, e ∈ cs) ∧ ∃ found p, Gives t i scope c tids found p := by
  obtain ⟨cond, b⟩ := i
  cases b with
  | ordered i =>
    obtain ⟨c', hc, hsome⟩ := Result.map_eq_ok.1 hc
    cases hsome
    exact gives_ordered h hcs hc hs hscan
  | hashed i => exact gives_hashed h hrows hcs hc hs hscan

/-! ### From entries to rows -/

variable {p : Entry → Bool} {found : List Entry}

/-- Tids of entries are the tids of the rows that the entries belong to. -/
theorem rows_of_found (ht : t.Sound) (hi : i ∈ t.indexes) (hrows : List.Forall₂
    (fun tid row => t.row tid = some row) (found.map Entry.tid) rows)
    (hfound : ∀ x ∈ found, x ∈ i.entries) :
    List.Forall₂ (fun x row => row ∈ t.rows ∧ i.entryOf row = .ok (some x)) found rows := by
  rw [List.forall₂_map_left_iff] at hrows
  induction hrows with
  | nil => exact .nil
  | @cons x row found rows hrow _ ih =>
    obtain ⟨hx, hrest⟩ := List.forall_mem_cons.1 hfound
    obtain ⟨r, hr, hentry⟩ := (ht.indexes i hi).exists_row hx
    have hrow' := ht.row_eq_some_iff.2 ⟨hr, Index.tid_of_entryOf hentry⟩
    obtain rfl : row = r := by simpa [hrow] using hrow'
    exact .cons ⟨hr, hentry⟩ (ih hrest)

/-- The rows of the entries that pass are the stored rows whose entry passes. -/
theorem rows_perm (ht : t.Sound) (hi : i ∈ t.indexes) (hrows : List.Forall₂
    (fun tid row => t.row tid = some row) (found.map Entry.tid) rows)
    (hperm : found.Perm (i.entries.filter p)) :
    rows.Perm (t.rows.filter fun row => (i.entryOf row).toOption.join.any p) := by
  obtain ⟨es, hes, hentries⟩ := (ht.indexes i hi).agrees
  have hes' : es = t.rows.map fun row => (i.entryOf row).toOption.join := by
    have hall := Result.mapM_eq_ok.1 hes
    clear hes hentries
    generalize t.rows = rs at hall
    induction hall with
    | nil => rfl
    | cons ho _ ih => simp [ho, ih, Except.toOption]
  have hfind : rows = found.filterMap fun x => t.row x.tid := by
    rw [List.forall₂_map_left_iff] at hrows
    clear hperm
    induction hrows with
    | nil => rfl
    | cons hrow _ ih => simp [hrow, ih]
  have hback (row : Row) (hrow : row ∈ t.rows) (o : Option Entry)
      (ho : (i.entryOf row).toOption.join = o) :
      (o.filter p).bind (fun x => t.row x.tid) = if o.any p then some row else none := by
    cases o with
    | none => rfl
    | some x =>
      have hx := Expr.toOption_eq_some.1 (Option.join_eq_some_iff.1 ho)
      have hfound := ht.row_eq_some_iff.2 ⟨hrow, Index.tid_of_entryOf hx⟩
      cases hpx : p x <;> simp [Option.filter, hpx, hfound]
  have hlist : ((t.rows.filterMap fun row => (i.entryOf row).toOption.join).filter p).filterMap
      (fun x => t.row x.tid) = t.rows.filter fun row => (i.entryOf row).toOption.join.any p := by
    rw [← List.filterMap_eq_filter, List.filterMap_filterMap, List.filterMap_filterMap,
      ← List.filterMap_eq_filter]
    refine List.filterMap_congr fun row hrow => ?_
    have := hback row hrow _ rfl
    cases h : (i.entryOf row).toOption.join <;> simp_all [Option.filter, Option.guard]
  rw [hfind, ← hlist]
  refine (hperm.trans ?_).filterMap _
  refine (hentries.trans ?_).filter p
  rw [hes', List.reduceOption, List.filterMap_map]
  exact .refl _

end AccessPath

namespace AccessPath

variable {f : Filter} {p : AccessPath}

/-- Entries that are in the order of the candidate belong to rows that are. -/
theorem le_of_candidate (hc : candidate t i cs requested = .ok (some c)) {row' : Row}
    (hx : i.entryOf row = .ok (some x)) (hy : i.entryOf row' = .ok (some y))
    (hle : (c.ordering.compare x.key y.key).isLE) :
    c.ordering.Le (row.env scope) (row'.env scope) := by
  obtain ⟨cond, b⟩ := i
  cases b with
  | ordered i =>
    obtain ⟨c', hc, hsome⟩ := Result.map_eq_ok.1 hc
    cases hsome
    obtain ⟨ranges, consumed, dir, ordering, -, rfl, hdir⟩ := orderedCandidate_eq_ok hc
    have hkeys := SortOrder.worths_ascending.2 (Index.worth_keys scope hx)
    have hkeys' := SortOrder.worths_ascending.2 (Index.worth_keys scope hy)
    rcases hdir with ⟨-, rfl⟩ | ⟨-, rfl⟩
    · exact ⟨x.key, y.key, hkeys, hkeys', hle⟩
    · exact ⟨x.key, y.key, SortOrder.worths_reversed.2 hkeys, SortOrder.worths_reversed.2 hkeys',
        hle⟩
  | hashed i =>
    obtain ⟨e, -, probe, -, rfl⟩ := hashedCandidate_eq_some hc
    exact ⟨[], [], .nil, .nil, rfl⟩

/-- A path that was selected: the table, or an index whose condition is part of the filter, asked
for conjuncts of the filter. -/
inductive Selected (t : Table) (f : Filter) (requested : Option SortOrder) : AccessPath → Prop
  | full : Selected t f requested ⟨t, .full⟩
  | index {i : Index} {c : Candidate} (mem : i ∈ t.indexes)
      (implied : implied i f.conjuncts = true)
      (candidate : candidate t i f.conjuncts requested = .ok (some c)) :
      Selected t f requested
        ⟨t, .index i c.probe (Filter.union [i.condition, Filter.ofList c.consumed]) c.ordering⟩

theorem selected_of_consider {best best' : Choice} {weights : AccessWeights}
    (hbest : Selected t f requested best.path) (hi : i ∈ t.indexes)
    (h : (consider t f requested weights best i).result = .ok best') :
    Selected t f requested best'.path := by
  unfold consider at h
  dsimp only at h
  split at h
  · simp only [Logged.result_bind, Logged.result_note, Result.ok_bind, Logged.result_pure] at h
    cases h
    exact hbest
  · next himp =>
    simp only [Logged.result_bind, Logged.result_lift] at h
    obtain ⟨c, hc, h⟩ := Result.bind_eq_ok.1 h
    cases c with
    | none => cases h; exact hbest
    | some c =>
      simp only [Logged.result_bind, Logged.result_note, Result.ok_bind] at h
      generalize weights.filterWeight * _ + _ = score at h
      split at h <;> cases h
      · exact .index hi (by simpa using himp) hc
      · exact hbest

theorem selected_of_select {order : Option SortOrder} {weights : AccessWeights}
    (h : (select t f order weights).result = .ok p) :
    Selected t f (order.filter (!·.isEmpty)) p := by
  unfold select at h
  simp only [Logged.result_bind, Logged.result_foldlM, Logged.result_note, Logged.result_pure,
    Result.ok_bind] at h
  obtain ⟨best, hbest, h⟩ := Result.bind_eq_ok.1 h
  cases h
  have hfold : ∀ (is : List Index) (best best' : Choice), (∀ i ∈ is, i ∈ t.indexes) →
      Selected t f (order.filter (!·.isEmpty)) best.path →
      is.foldlM (fun b i => (consider t f (order.filter (!·.isEmpty)) weights b i).result) best =
        .ok best' →
      Selected t f (order.filter (!·.isEmpty)) best'.path := by
    intro is
    induction is with
    | nil => rintro best best' - hb h; cases h; exact hb
    | cons i is ih =>
      intro best best' his hb h
      obtain ⟨hi, his⟩ := List.forall_mem_cons.1 his
      obtain ⟨best₁, h₁, h⟩ := Result.bind_eq_ok.1 h
      exact ih best₁ best' his (selected_of_consider hb hi h₁) h
  exact hfold t.indexes _ best (fun _ h => h) .full hbest

/-- What is enforced is part of the filter, and the scan gives the stored rows that satisfy it, each
once, in the order that is promised. -/
def Serves (p : AccessPath) (t : Table) (f : Filter) (scope : Scope) (s : Unit → Scan Row) : Prop :=
  (∀ env, f.Passes env → p.enforced.Passes env) ∧
    ∃ rows, (s ()).drain.result = .ok rows ∧
      rows.Perm (t.rows.filter fun row => p.enforced.Passes (row.env scope)) ∧
      p.ordering.Sorted (rows.map (Row.env scope))

theorem serves_full {s : Unit → Scan Row} (hscan : scan ⟨t, .full⟩ scope = .ok s) :
    Serves ⟨t, .full⟩ t f scope s := by
  cases hscan
  exact ⟨by simp [enforced], t.rows, by simp, by simp [enforced], .of_isEmpty rfl _⟩

theorem serves_of_selected (ht : t.Sound) (hf : f.IsExact) (hp : Selected t f requested p)
    (hs : scope.IsExact) {s : Unit → Scan Row} (hscan : p.scan scope = .ok s) :
    p.Serves t f scope s := by
  cases hp with
  | full => exact serves_full hscan
  | @index i c hi himp hc =>
    have hin := ht.indexes i hi
    obtain ⟨tids, rows, htids, hdrain, hrows⟩ :=
      drain_index (fun _ hx => ht.row_of_mem_entries hi hx) hscan
    obtain ⟨hsub, found, p, hgives⟩ :=
      gives_of_candidate hin ht.exact hf.conjuncts hc hs htids
    obtain rfl := hgives.tids
    have hmem (x : Entry) (hx : x ∈ found) : x ∈ i.entries :=
      List.mem_of_mem_filter (hgives.perm.mem_iff.1 hx)
    have hcond : Filter.IsExact i.condition := fun e he =>
      hin.exact e (List.mem_append_left _ (by simp_all))
    have hconsumed : ∀ e ∈ c.consumed, e.isExact := fun e he => hf.conjuncts e (hsub e he)
    have hparts : ∀ g ∈ [i.condition, Filter.ofList c.consumed], Filter.IsExact g := by
      simp [hcond, Filter.isExact_ofList.2 hconsumed]
    refine ⟨fun env hpass => ?_, rows, hdrain, ?_, ?_⟩
    · refine Filter.passes_union.2 ?_
      have hall := Filter.passes_iff_conjuncts.1 hpass
      simp only [List.forall_mem_cons, List.not_mem_nil, false_imp_iff, implies_true, and_true]
      refine ⟨Filter.passes_iff_conjuncts.2 fun e he => ?_,
        Filter.passes_ofList.2 fun e he => hall e (hsub e he)⟩
      obtain ⟨d, hd, hde⟩ := Filter.contains_iff.1 (List.all_eq_true.1 himp e he)
      exact (Expr.passes_iff_of_equiv hde).1 (hall d hd)
    · refine (rows_perm ht hi hrows hgives.perm).trans (List.Perm.of_eq ?_)
      refine List.filter_congr fun row hrow => ?_
      obtain ⟨es, hes, -⟩ := hin.agrees
      obtain ⟨o, -, ho⟩ := Result.exists_of_mapM_eq_ok hes hrow
      have hcol := ht.columns row hrow
      rw [ho, Bool.eq_iff_iff, decide_eq_true_iff, enforced, Filter.passes_union]
      have hcondition := hin.passes_condition scope hcol ho
      cases o with
      | none => simp_all [Except.toOption]
      | some x =>
        have hstands := hgives.stands row x hcol (ht.exact row hrow) ho
        simp_all [Except.toOption, Filter.passes_ofList]
    · have hfound := rows_of_found ht hi hrows hmem
      refine ⟨List.forall_mem_map.2 fun a ha => ?_, List.pairwise_map.2 ?_⟩
      · obtain ⟨x, -, -, hxa⟩ := exists_of_forall₂ hfound ha
        exact le_of_candidate hc hxa hxa (by simp [SortOrder.compare])
      · refine pairwise_of_forall₂ hfound ?_ hgives.sorted
        rintro x y a b ⟨-, hxa⟩ ⟨-, hyb⟩ hle
        exact le_of_candidate hc hxa hyb hle

end AccessPath

theorem Opened.shows_filter {β : Type} {R : Row → β → Prop} {T : List β} {o : Opened} {f : Filter}
    {q : β → Prop} [DecidablePred q] (h : (o.scan ()).Shows R T)
    (hq : ∀ a b, R a b → (q b ↔ f.Passes (a.env scope))) :
    ((o.filter scope f).scan ()).Shows R (T.filter q) := by
  cases f with
  | none => exact h.filter_self fun a b hab => (hq a b hab).2 Filter.passes_none
  | some e =>
    refine h.filter fun a b hab v hv => ?_
    rw [hq a b hab, Filter.passes_some, Expr.passes_iff_of_holds hv]

namespace AccessPath

/-- All rows of the path that pass a filter. -/
def drain (p : AccessPath) (scope : Scope) (f : Filter) : Result (List Row) := do
  let s ← p.scan scope
  (((Opened.once s).filter scope f).scan ()).drain.result

/-- Whatever index is chosen, the rows of the path that pass what it does not enforce are the stored
rows that pass the filter, each once. -/
theorem select_sound (ht : t.Reachable) {f : Filter} (hf : f.IsExact) (order : Option SortOrder)
    (weights : AccessWeights) (hs : scope.IsExact) {p : AccessPath}
    (hp : (select t f order weights).result = .ok p) {all found : List Row}
    (hall : drain ⟨t, .full⟩ scope f = .ok all)
    (hfound : p.drain scope (f.diff p.enforced) = .ok found) :
    found.Perm all ∧ (all.map Row.tid).Nodup := by
  obtain ⟨s₀, hscan₀, hall⟩ := Result.bind_eq_ok.1 hall
  obtain ⟨s, hscan, hfound⟩ := Result.bind_eq_ok.1 hfound
  cases hscan₀
  obtain ⟨hpart, rows, hdrain, hperm, -⟩ :=
    serves_of_selected ht.sound hf (selected_of_select hp) hs hscan
  have hshow {o : Opened} {g : Filter} {rows : List Row} (h : (o.scan ()).Shows Eq rows) :
      ((o.filter scope g).scan ()).Shows Eq
        (rows.filter fun row => g.Passes (row.env scope)) :=
    Opened.shows_filter h fun a b hab => hab ▸ Iff.rfl
  obtain rfl := (hshow (o := .once _)
    (Scan.shows_ofList (List.forall₂_refl t.rows))).eq_of_drain hall
  obtain rfl := (hshow (o := .once s) (Scan.shows_of_drain hdrain)).eq_of_drain hfound
  refine ⟨(hperm.filter _).trans (List.Perm.of_eq ?_),
    ht.sound.nodup_tids.sublist (List.filter_sublist.map Row.tid)⟩
  rw [List.filter_filter]
  refine List.filter_congr fun row hrow => ?_
  rw [Bool.eq_iff_iff, Bool.and_eq_true, decide_eq_true_iff, decide_eq_true_iff,
    decide_eq_true_iff, and_comm, Filter.passes_iff_diff (hpart _)]

/-- The rows below `5`, without the one that is `NULL`, and one that was removed. -/
def indexedOps : List Table.Op :=
  [.insert [.int 7], .insert [.int 3], .addIndex (.ordered "i" [.ref ⟨none, "a"⟩] false),
    .insert [.null], .insert [.int 4], .deleteTid 1]

theorem select_sound_indexed : ∃ t p all found,
    t = (Table.run indexedOps (.make "t" [("a", .int)])).1 ∧
    (select t (some (.binary (.cmp .lt) (.ref ⟨some "t", "a"⟩) (.const (.int 5)))) none {}).result =
      .ok p ∧ p.indexName? = some "i" ∧
    drain ⟨t, .full⟩ .empty (some (.binary (.cmp .lt) (.ref ⟨some "t", "a"⟩) (.const (.int 5)))) =
      .ok all ∧
    p.drain .empty (Filter.diff (some (.binary (.cmp .lt) (.ref ⟨some "t", "a"⟩) (.const (.int 5))))
      p.enforced) = .ok found ∧
    found.Perm all ∧ (all.map Row.tid).Nodup ∧ all.map Row.tid = [some 3] := by
  have hexact : ∀ op ∈ indexedOps, op.IsExact := by
    simp [indexedOps, Table.Op.IsExact, Index.IsExact, Index.exprs, Index.ordered, Expr.isExact,
      Index.HoldsNothing]
  refine ⟨_, _, _, _, rfl, rfl, rfl, rfl, rfl, ?_⟩
  refine (select_sound ⟨"t", [("a", .int)], indexedOps, hexact, rfl⟩
    (f := some (.binary (.cmp .lt) (.ref ⟨some "t", "a"⟩) (.const (.int 5))))
    (Filter.isExact_some.2 rfl) none {} Scope.isExact_empty rfl rfl rfl).imp_right
    fun h => ⟨h, rfl⟩

end AccessPath

end RelPlan

import RelPlan.Proofs.Delivery
import RelPlan.Proofs.DistinctScans

/-!
# What settled unions deliver

Both inputs are handed the conjuncts that neither of them would misread.  What both leave over is
reported, and the rest is checked on the rows of the input that left it over.  The names that the
right input leaves over may be ambiguous among the columns of the union, which are those of the left
input; a conjunct that the left input left over as well is not.
-/

namespace RelPlan

variable {columns : List Column} {outer : Env} {cells : List (Option Value)} {l r : Filter}
  {p exact : Prop} {scope : Scope}

/-- On a row of the left input the condition is what is reported and what is checked here. -/
theorem iff_of_left (hclear : l.Clear columns) (h : l.Admits columns outer cells p) :
    p ↔ (l.inter r).Passes (cellsEnv columns outer cells) ∧
      (l.diff (l.inter r)).Passes (cellsEnv columns outer cells) := by
  rw [h.iff hclear]
  exact Filter.passes_iff_diff fun hpass => (Filter.passes_inter_and_diff.1 hpass).1

/-- So it is on a row of the right input, as far as the names that are checked here are clear. -/
theorem iff_of_right (hclear : l.Clear columns) (h : r.Admits columns outer cells p) :
    p ↔ (l.inter r).Passes (cellsEnv columns outer cells) ∧
      ((r.diff (l.inter r)).Passes (cellsEnv columns outer cells) ∨ p) := by
  refine ⟨fun hp => ⟨(h.complete hp).inter hclear, .inr hp⟩, ?_⟩
  rintro ⟨hcommon, hdiff | hp⟩
  · exact h.sound (Filter.passes_of_diff hcommon hdiff)
  · exact hp

theorem perm_of_part {U X : List Record} {Φ Ψ C D M S : List (Option Value) → Bool}
    (h : (U.filter fun x => Ψ x.cells).Perm (X.filter fun x => M x.cells))
    (hΨ : ∀ x ∈ U, Ψ x.cells = (C x.cells && D x.cells))
    (hΦ : ∀ x ∈ X, Φ x.cells = (M x.cells && S x.cells)) :
    (((U.map Record.bare).filter fun x => D x.cells).filter fun x => C x.cells && S x.cells).Perm
      ((X.map Record.bare).filter fun x => Φ x.cells) := by
  rw [Plan.filter_map_bare D, Plan.filter_map_bare fun cells => C cells && S cells,
    Plan.filter_map_bare Φ]
  refine List.Perm.map _ ?_
  have hU : ((U.filter fun x => D x.cells).filter fun x => C x.cells && S x.cells) =
      (U.filter fun x => Ψ x.cells).filter fun x => S x.cells := by
    rw [List.filter_filter, List.filter_filter]
    refine List.filter_congr fun x hx => ?_
    rw [hΨ x hx, Bool.and_right_comm, Bool.and_comm]
  rw [hU]
  refine (h.filter _).trans (.of_eq ?_)
  rw [List.filter_filter]
  exact List.filter_congr fun x hx => by rw [hΦ x hx, Bool.and_comm]

namespace Plan

variable {left right left' right' : Plan}

theorem records_union (distinct : Bool) (left right : Plan) :
    (Plan.union distinct left right).records =
      if distinct then ((left.records ++ right.records).map Record.bare).eraseDups
      else (left.records ++ right.records).map Record.bare := rfl

theorem mem_records_union {distinct : Bool} {x : Record} :
    x ∈ (Plan.union distinct left right).records ↔
      x ∈ (left.records ++ right.records).map Record.bare := by
  rw [records_union]
  cases distinct <;> simp [List.mem_eraseDups]

/-- What a union shows of the records of its inputs if each input shows a share of its own. -/
theorem share_union {distinct : Bool} {f : Filter} {o : Option SortOrder} {d : Union.Decision}
    {lo ro : Opened} {X Y : List Record} {Φ : List (Option Value) → Bool}
    (hd : Union.decide { distinct, pushed := f.taken, wanted := SortOrder.taken o } left.columns
      right.columns = .ok d)
    (hl : Settles left d.forLeft none left') (hr : Settles right d.forRight none right')
    (hleft : left'.residual.rename left.columns left.columns = .ok l)
    (hright : right'.residual.rename right.columns left.columns = .ok r)
    (hΦ : ∀ x ∈ X ++ Y, f.Admits left.columns scope.env x.cells (Φ x.cells))
    (ihl : ∀ M : List (Option Value) → Bool,
      (∀ x ∈ X, d.forLeft.Admits left.columns scope.env x.cells (M x.cells)) →
        ∃ Ψ U, lo.Share left.columns scope left'.residual X M Ψ U)
    (ihr : ∀ M : List (Option Value) → Bool,
      (∀ y ∈ Y, d.forRight.Admits right.columns scope.env y.cells (M y.cells)) →
        ∃ Ψ U, ro.Share right.columns scope right'.residual Y M Ψ U) :
    ∃ Ψ U, (Opened.once fun _ =>
      (((lo.reshape left.columns).filter scope (l.diff (l.inter r))).scan ()).append
        ((ro.reshape left.columns).filter scope (r.diff (l.inter r))).scan).Share left.columns scope
          (.union [l.inter r, d.kept]) ((X ++ Y).map Record.bare) Φ Ψ U := by
  obtain ⟨hlen, ms, ss, hkept, hfl, hfr, hmem, hmov⟩ := Union.decide_spec hd
  have hmovl := Filter.movable_ofList fun c hc => (hmov c hc).1
  have hmovr := Filter.movable_ofList fun c hc => (hmov c hc).2
  have hback := hl.faithful_residual rfl hmovl hfl hleft
  have hclear : l.Clear left.columns := Filter.clear_rename hback hleft
  have hmovable := hr.movable_residual hlen hmovr hfr hright
  replace hΦ (x : Record) (hx : x ∈ X ++ Y) :
      f.taken.fold.Admits left.columns scope.env x.cells (Φ x.cells) := (hΦ x hx).push.fold
  -- `M` is the condition of the conjuncts that go down, and `S` is what of `Φ` stays here
  let S (cells : List (Option Value)) : Bool :=
    Filter.Passes (cellsEnv left.columns scope.env cells) (Filter.ofList ss) || Φ cells
  let M (cells : List (Option Value)) : Bool :=
    Filter.Passes (cellsEnv left.columns scope.env cells) (Filter.ofList ms)
  have hiff (x : Record) (hx : x ∈ X ++ Y) : Φ x.cells = (M x.cells && S x.cells) := by
    have h := (hΦ x hx).iff_of_split hmem fun c hc => (hmov c hc).1.clear
    rw [Bool.eq_iff_iff, h]
    simp [M, S]
  obtain ⟨Ψl, Ul, h⟩ := ihl M fun x _ => (Filter.admits_rename hfl hmovl rfl).congr (by simp [M])
  obtain ⟨Ψr, Ur, h'⟩ := ihr M fun x _ => (Filter.admits_rename hfr hmovr hlen).congr (by simp [M])
  have hadml (x : Record) (hx : x ∈ Ul) : l.Admits left.columns scope.env x.cells (Ψl x.cells) :=
    (h.residual x hx).rename hback hleft
  have hadmr (x : Record) (hx : x ∈ Ur) : r.Admits left.columns scope.env x.cells (Ψr x.cells) :=
    (Filter.admits_rename hright hmovable hlen.symm).congr
      ((h'.residual x hx).iff (Filter.clear_of_rename hright)).symm
  -- what both inputs leave over is checked above the union, the rest on each input
  let C (cells : List (Option Value)) : Bool :=
    Filter.Passes (cellsEnv left.columns scope.env cells) (l.inter r)
  let Dl (cells : List (Option Value)) : Bool :=
    Filter.Passes (cellsEnv left.columns scope.env cells) (l.diff (l.inter r))
  let Dr (cells : List (Option Value)) : Bool :=
    Filter.Passes (cellsEnv left.columns scope.env cells) (r.diff (l.inter r)) || Ψr cells
  have hshowl : (((lo.reshape left.columns).filter scope (l.diff (l.inter r))).scan ()).Shows
      (Row.Stands left.columns) ((Ul.map Record.bare).filter fun x => Dl x.cells) :=
    Opened.shows_admitted (Opened.shows_reshape h.shows) (List.forall_mem_map.2 fun x _ =>
      (Filter.Admits.passes ..).congr (by simp [Dl]))
  have hshowr : (((ro.reshape left.columns).filter scope (r.diff (l.inter r))).scan ()).Shows
      (Row.Stands left.columns) ((Ur.map Record.bare).filter fun x => Dr x.cells) :=
    Opened.shows_admitted (Opened.shows_reshape h'.shows) (List.forall_mem_map.2 fun x hx =>
      ((hadmr x hx).of_split fun c hc => List.mem_of_mem_filter hc).congr
        (by simp only [Dr, Bool.or_eq_true, decide_eq_true_iff]; rfl))
  have hperml := perm_of_part (C := C) (D := Dl) h.perm
    (fun x hx => by
      rw [Bool.eq_iff_iff, iff_of_left (r := r) hclear (hadml x hx)]
      simp [C, Dl])
    fun x hx => hiff x (List.mem_append_left _ hx)
  have hpermr := perm_of_part (C := C) (D := Dr) h'.perm
    (fun x hx => by
      rw [Bool.eq_iff_iff, iff_of_right hclear (hadmr x hx)]
      simp [C, Dr])
    fun x hx => hiff x (List.mem_append_right _ hx)
  have hsub : ((Ul.map Record.bare).filter fun x => Dl x.cells) ++
      ((Ur.map Record.bare).filter fun x => Dr x.cells) ⊆ (X ++ Y).map Record.bare := by
    rw [List.map_append]
    exact List.append_subset.2
      ⟨List.subset_append_of_subset_left _ (List.Subset.trans (List.filter_subset_self _)
        (List.map_subset _ h.sub)),
      List.subset_append_of_subset_right _ (List.Subset.trans (List.filter_subset_self _)
        (List.map_subset _ h'.sub))⟩
  refine ⟨fun cells => C cells && S cells, _, hsub, hshowl.append hshowr, fun z hz => ?_, ?_⟩
  · obtain ⟨x, hx, rfl⟩ := List.mem_map.1 (hsub hz)
    have hcommon : (l.inter r).Admits left.columns scope.env x.cells (C x.cells) :=
      (Filter.Admits.passes ..).congr (by simp [C])
    have hkeep := (hΦ x hx).of_split fun c hc => (hmem c).2 (.inr hc)
    rw [hkept]
    exact (hcommon.union fun _ => hkeep).congr (by simp [S])
  · rw [List.filter_append, List.map_append, List.filter_append]
    exact hperml.append hpermr

theorem delivers_union {distinct : Bool} {f : Filter} {o : Option SortOrder} {d : Union.Decision}
    (hd : Union.decide { distinct, pushed := f.taken, wanted := SortOrder.taken o } left.columns
      right.columns = .ok d)
    (hl : Settles left d.forLeft none left') (hr : Settles right d.forRight none right')
    (hleft : left'.residual.rename left.columns left.columns = .ok l)
    (hright : right'.residual.rename right.columns left.columns = .ok r)
    (hexact : distinct = true → exact) (ihl : left.Delivers exact d.forLeft none left')
    (ihr : right.Delivers exact d.forRight none right') :
    (Plan.union distinct left right).Delivers exact f o (pair .settled
      (.union ⟨distinct, f.taken, SortOrder.taken o, d.kept, .union [l.inter r, d.kept],
        l.diff (l.inter r), r.diff (l.inter r)⟩) left' right') := by
  obtain ⟨hlen, -⟩ := Union.decide_spec hd
  have hfits (hx : exact) : ∀ x ∈ (left.records ++ right.records).map Record.bare,
      x.Fits left.columns := by
    refine List.forall_mem_map.2 fun x hmem => ?_
    rcases List.mem_append.1 hmem with hmem | hmem
    exacts [(ihl.fits hx x hmem).bare rfl, (ihr.fits hx x hmem).bare hlen.symm]
  refine ⟨fun hx x hmem => hfits hx x (mem_records_union.1 hmem),
    fun {scope opened} hscope hopen Φ hΦ => ?_⟩
  rw [scan_union, hl.columns] at hopen
  obtain ⟨lo, hlo, hopen⟩ := Logged.result_bind_eq_ok.1 hopen
  obtain ⟨ro, hro, hopen⟩ := Logged.result_bind_eq_ok.1 hopen
  cases hopen
  obtain ⟨Ψ, U, h⟩ := share_union hd hl hr hleft hright
    (fun x hx => hΦ x.bare (mem_records_union.2 (List.mem_map_of_mem hx)))
    (fun M hM => (ihl.delivery hscope hlo M hM).imp fun _ ⟨U, h⟩ => ⟨U, h.toShare⟩)
    (fun M hM => (ihr.delivery hscope hro M hM).imp fun _ ⟨U, h⟩ => ⟨U, h.toShare⟩)
  have hsub (x : Record) (hx : x ∈ U) : x ∈ (Plan.union distinct left right).records :=
    mem_records_union.2 (h.sub hx)
  cases distinct with
  | false =>
    exact ⟨Ψ, U, ⟨hsub, h.shows, h.residual, h.perm⟩, fun _ => .of_isEmpty rfl _,
      fun _ hunmet => sorted_of_taken_eq_none hunmet _⟩
  | true =>
    have hkey : firstOfKeys Record.key U = U.eraseDups := by
      refine firstOfKeys_eq_eraseDups fun x hx y hy hxy => ?_
      have hfit := hfits (hexact rfl)
      rw [(hfit x (h.sub hx)).key, (hfit y (h.sub hy)).key] at hxy
      obtain ⟨_, -, rfl⟩ := List.mem_map.1 (h.sub hx)
      obtain ⟨_, -, rfl⟩ := List.mem_map.1 (h.sub hy)
      exact congrArg (Record.mk · none) hxy
    have hdistinct := shows_distinct_empty h.shows
    rw [hkey] at hdistinct
    exact ⟨Ψ, U.eraseDups, ⟨fun x hx => hsub x (List.mem_eraseDups.1 hx), hdistinct,
      fun x hx => h.residual x (List.mem_eraseDups.1 hx), perm_eraseDups_filter h.perm⟩,
      fun _ => .of_isEmpty rfl _, fun _ hunmet => sorted_of_taken_eq_none hunmet _⟩

end Plan

end RelPlan

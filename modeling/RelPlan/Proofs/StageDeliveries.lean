import RelPlan.Proofs.Delivery
import RelPlan.Proofs.ScanScopes
import RelPlan.Proofs.SortedScans
import RelPlan.Proofs.SubstitutedValues

/-!
# What settled stages deliver

A stage delivers what is admitted by the filter that was handed to it if its input delivers what is
admitted by the filter that the stage hands on.  A filter hands on itself as well; a projection and
a renaming keep what their input would misread, and a renaming reports what its input left over
under the new names.
-/

namespace RelPlan

variable {f : Filter} {o : Option SortOrder} {scope : Scope} {exact : Prop}

section
variable {columns : List Column} {outputs outputs' : List Output} {x : Record}

theorem Record.compute_bindOutputs (h : Stage.bindOutputs columns outputs = (outputs', .ok ()))
    (x : Record) : x.compute columns outputs' = x.compute columns outputs := by
  have hall := (Stage.bindOutputs_eq_ok h).imp fun out out' hout => (Expr.bindTo_spec hout.2).2.2.2
  clear h
  suffices (outputs'.map fun out => out.expr.worth (x.env columns Scope.empty.env)) =
      outputs.map fun out => out.expr.worth (x.env columns Scope.empty.env) by
    rw [Record.compute, Record.compute, this]
  induction hall with
  | nil => rfl
  | cons hout _ ih => rw [List.map_cons, List.map_cons, ih]; exact congrArg (· :: _) (hout _ _)

theorem Record.Fits.compute (h : x.Fits columns) (ho : ∀ out ∈ outputs, out.expr.isExact) :
    (x.compute columns outputs).Fits (outputs.map Output.column) := by
  refine ⟨by simp [Record.compute], fun v hv => ?_⟩
  obtain ⟨out, hout, hworth⟩ := List.mem_map.1 hv
  exact Expr.worth_isExact (ho out hout) (h.env Scope.isExact_empty.env) hworth

/-- Outputs that are worth the same outside every row compute the same record. -/
theorem Row.Stands.compute {row row' : Row} (hrow : row.Stands columns x)
    (hw : ∀ out ∈ outputs, out.expr.worth (x.env columns scope.env) =
      out.expr.worth (x.env columns Scope.empty.env))
    (h : Output.compute scope outputs row = .ok row') :
    row'.Stands (outputs.map Output.column) (x.compute columns outputs) := by
  obtain ⟨hcol, htid, hall⟩ := Output.compute_eq_ok h
  refine ⟨hcol, ?_⟩
  rw [Row.record, Record.compute, htid]
  congr 1
  clear htid hcol h
  generalize row'.values = vs at hall ⊢
  induction hall with
  | nil => rfl
  | @cons out v outs vs hv _ ih =>
    obtain ⟨hout, hw⟩ := List.forall_mem_cons.1 hw
    have hworth := Expr.worth_of_evalRow hv
    rw [hrow.env, hout] at hworth
    rw [List.map_cons, List.map_cons, ih hw, ← hworth]

/-- Below a projection a filter decides on the cells of the input what it decides above on the cells
of the outputs. -/
theorem Filter.admits_unproject {g : Filter} (hb : ∀ out ∈ outputs, out.expr.Bound columns)
    (hm : ∀ e ∈ f, e.Movable (outputs.map Output.column) columns)
    (h : f.mapM (Stage.unproject outputs) = .ok g) (outer outer' : Env)
    (cells : List (Option Value)) :
    Admits columns outer cells g (f.Passes (cellsEnv (outputs.map Output.column) outer
      (outputs.map fun out => out.expr.worth (cellsEnv columns outer' cells)))) := by
  rcases Result.optionMapM_eq_ok.1 h with ⟨rfl, rfl⟩ | ⟨e, e', rfl, rfl, he⟩
  · exact .none passes_none
  · have hm := hm e rfl
    refine (Admits.passes ..).congr ?_
    rw [passes_some, passes_some, Expr.Passes, Expr.Passes,
      Stage.worth_unproject hb hm he outer outer']

end

/-! ### Cuts -/

namespace Scan

variable {α β : Type} {R : α → β → Prop} {s : Scan α} {T : List β}

theorem Shows.exists_of_mem_seen (h : s.Shows R T) {a : α} (ha : a ∈ s.seen) : ∃ b ∈ T, R a b := by
  induction h with
  | done | fail => cases ha
  | note _ ih => exact ih ha
  | row hab _ ih =>
    rcases List.mem_cons.1 ha with rfl | ha
    · exact ⟨_, List.mem_cons_self, hab⟩
    · obtain ⟨b, hb, hab⟩ := ih ha
      exact ⟨b, List.mem_cons_of_mem _ hb, hab⟩

theorem shows_seen {columns : List Column} {s : Scan Row} (h : s.All (·.columns = columns)) :
    s.Shows (Row.Stands columns) (s.seen.map Row.record) := by
  induction s with
  | done => exact .done
  | fail e => exact .fail e _
  | note n s ih => exact .note (ih () h)
  | row a s ih => exact .row ⟨h.1, rfl⟩ (ih () h.2)

end Scan

namespace Cut

variable {α β : Type} (c : Cut)

theorem shows_apply {R : α → β → Prop} {T : List β} {s : Unit → Scan α} (h : (s ()).Shows R T) :
    (c.apply s).Shows R (c.select T) := by
  cases c with
  | limit n =>
    rw [apply]
    split
    · next hn => rw [hn]; exact .done
    · exact h.take n
  | offset n => exact h.drop n

theorem select_subset (as : List α) : c.select as ⊆ as := by
  cases c with
  | limit n => exact List.take_subset n as
  | offset n => exact List.drop_subset n as

theorem select_map (f : α → β) (as : List α) : c.select (as.map f) = (c.select as).map f := by
  cases c with
  | limit n => exact List.map_take.symm
  | offset n => exact List.map_drop.symm

end Cut

namespace Plan

variable {input input' : Plan}

theorem delivers_filter {e e' : Expr} (he : e.bindTo input.columns = .ok e')
    (ih : input.Delivers exact (Filter.fold (.union [some e', f.taken])) o input') :
    (input.filter e).Delivers exact f o (stage .settled (.filter e' f.taken) input') := by
  have hbind : Option.mapM (Expr.bindTo input.columns) (some e) = .ok (some e') := by simp [he]
  obtain ⟨-, -, hpasses⟩ := Filter.bindTo_spec hbind
  have hsub : (input.filter e).records ⊆ input.records := List.filter_subset_self _
  refine ⟨fun hx x hmem => ih.fits hx x (hsub hmem), fun {scope opened} hscope hopen Φ hΦ => ?_⟩
  obtain ⟨oi, hoi, hstage⟩ := scan_stage_eq_ok hopen
  cases hstage
  obtain ⟨Ψ, U, h⟩ := ih.delivery hscope hoi
    (fun cells => e.Passes (cellsEnv input.columns Scope.empty.env cells) && Φ cells)
    fun x hx => by
      have hown : Filter.Admits input.columns scope.env x.cells (some e')
          (e.Passes (x.env input.columns Scope.empty.env)) :=
        (Filter.Admits.passes ..).congr ((hpasses _ _ _).trans Filter.passes_some)
      have hunion := hown.union fun hp => (hΦ x (List.mem_filter.2 ⟨hx, by simpa using hp⟩)).push
      exact hunion.fold.congr (by simp [Record.env])
  have hperm : (U.filter fun x => Ψ x.cells).Perm
      ((input.filter e).records.filter fun x => Φ x.cells) := by
    refine h.perm.trans (.of_eq ?_)
    show _ = (input.records.filter _).filter _
    rw [List.filter_filter]
    exact List.filter_congr fun x _ => Bool.and_comm ..
  refine ⟨fun _ => true, U.filter fun x => Ψ x.cells, ⟨?_, h.checked, ?_, ?_⟩, ?_, ?_⟩
  · exact fun x hx => List.mem_of_mem_filter (hperm.subset hx)
  · exact fun x _ => .none rfl
  · rwa [List.filter_true]
  · exact fun _ => .of_isEmpty rfl _
  · exact fun hx hunmet o' ho' => (h.sorted hx hunmet o' ho').sublist (List.filter_sublist.map _)

theorem needsSort_eq_false {order : SortOrder} (h : needsSort .settled order input = false) :
    order.isEmpty ∨ input.unmet = none := by
  simp only [needsSort, decide_true, Bool.true_and, Bool.and_eq_false_iff, Bool.not_eq_false',
    Option.isSome_eq_false_iff, Option.isNone_iff_eq_none] at h
  exact h

theorem delivers_sort {order order' : SortOrder} {buffered : Bool}
    (hb : order.bindTo input.columns = .ok order') (hx : exact → order.IsExact)
    (ih : input.Delivers exact f order'.request input') :
    (stage .building (.sort order buffered none) input).Delivers exact f o
      (stage .settled (.sort order' buffered (SortOrder.taken o)) input') := by
  refine ⟨ih.fits, fun {scope opened} hscope hopen Φ hΦ => ?_⟩
  obtain ⟨oi, hoi, hstage⟩ := scan_stage_eq_ok hopen
  obtain ⟨Ψ, U, h⟩ := ih.delivery hscope hoi Φ hΦ
  have hneed (hexact : exact) (hno : needsSort .settled order' input' = false) :
      order'.Sorted (U.map (Record.env input.columns scope.env)) := by
    rcases needsSort_eq_false hno with hempty | hmet
    · exact .of_isEmpty hempty _
    · by_cases hempty : order'.isEmpty
      · exact .of_isEmpty hempty _
      · exact h.sorted hexact hmet order' (by simp [SortOrder.request, hempty])
  obtain ⟨U', hperm, hshows, hsorted⟩ := shows_scanSorted (fun hexact => ⟨hscope hexact,
    (SortOrder.bindTo_spec hb).2 (hx hexact), fun x hx => ih.fits hexact x (h.sub hx)⟩) h.shows
    hneed hstage
  exact ⟨Ψ, U', ⟨fun x hx => h.sub (hperm.subset hx), hshows,
    fun x hx => h.residual x (hperm.subset hx), (hperm.filter _).trans h.perm⟩,
    fun hexact => SortOrder.sorted_of_bindTo hb (hsorted hexact),
    fun hexact hunmet => sorted_of_taken (sorted_of_unmet_eq_none hunmet (hsorted hexact))⟩

theorem delivers_project {outputs outputs' : List Output} {moving kept : Filter}
    {o' : Option SortOrder} (hout : Stage.bindOutputs input.columns outputs = (outputs', .ok ()))
    (hsplit : Stage.splitProjected outputs' input.columns f.taken = .ok (moving, kept))
    (ho : (SortOrder.taken o).mapM (SortOrder.mapM (Stage.unproject outputs')) = .ok o')
    (hx : exact → ∀ out ∈ outputs, out.expr.isExact)
    (hbo : exact → ∀ o₁ ∈ o, o₁.Bound (outputs.map Output.column))
    (ih : input.Delivers exact moving o' input') :
    (stage .building (.project outputs none none none) input).Delivers exact f o
      (stage .settled (.project outputs' f.taken (SortOrder.taken o) kept) input') := by
  have hcol : outputs.map Output.column = outputs'.map Output.column :=
    (columns_bindOutputs hout).symm
  have hbound := Stage.bound_of_bindOutputs hout
  obtain ⟨ms, ss, hms, rfl, hmem, hmov⟩ := Stage.splitProjected_spec hsplit
  have hrecords : (stage .building (.project outputs none none none) input).records =
      input.records.map (.compute input.columns outputs') :=
    List.map_congr_left fun x _ => (Record.compute_bindOutputs hout x).symm
  refine ⟨fun hexact => ?_, fun {scope opened} hscope hopen Φ hΦ => ?_⟩
  · rw [hrecords]
    refine List.forall_mem_map.2 fun x hmem => ?_
    show Record.Fits (outputs.map Output.column) _
    rw [hcol]
    exact (ih.fits hexact x hmem).compute (Stage.isExact_bindOutputs (hx hexact) hout)
  obtain ⟨oi, hoi, hstage⟩ := scan_stage_eq_ok hopen
  cases hstage
  -- `M` is the condition of the conjuncts that go down, and `S` is what of `Φ` stays here
  rw [hrecords] at hΦ
  replace hΦ : ∀ x ∈ input.records, Filter.Admits (outputs'.map Output.column) scope.env
      (x.compute input.columns outputs').cells f.taken
      (Φ (x.compute input.columns outputs').cells) := by
    intro x hx
    have hadm := hΦ _ (List.mem_map_of_mem hx)
    change Filter.Admits (outputs.map Output.column) _ _ _ _ at hadm
    rw [hcol] at hadm
    exact hadm.push
  let S (cells : List (Option Value)) : Bool :=
    Filter.Passes (cellsEnv (outputs'.map Output.column) scope.env cells) (Filter.ofList ss) ||
      Φ cells
  let M (cells : List (Option Value)) : Bool :=
    Filter.Passes (cellsEnv (outputs'.map Output.column) scope.env
      (outputs'.map fun out => out.expr.worth (cellsEnv input.columns Scope.empty.env cells)))
      (Filter.ofList ms)
  have hiff (x : Record) (hx : x ∈ input.records) :
      Φ (x.compute input.columns outputs').cells =
        (M x.cells && S (x.compute input.columns outputs').cells) := by
    have h := (hΦ x hx).iff_of_split hmem fun c hc => (hmov c hc).clear
    rw [Bool.eq_iff_iff, h]
    simp [M, S, Record.compute, Record.env]
  obtain ⟨Ψ, U, h⟩ := ih.delivery hscope hoi M fun x hx =>
    (Filter.admits_unproject hbound (Filter.movable_ofList hmov) hms scope.env Scope.empty.env
      x.cells).congr (by simp [M])
  have hsub := h.checked_sub
  refine ⟨S, (U.filter fun x => Ψ x.cells).map (.compute input.columns outputs'), ⟨?_, ?_, ?_, ?_⟩,
    fun _ => .of_isEmpty rfl _, fun hexact hunmet => ?_⟩
  · rw [hrecords]
    exact List.map_subset _ hsub
  · show Scan.Shows (Row.Stands (outputs.map Output.column)) _ _
    rw [hcol]
    exact h.checked.map fun row x hrow row' hrow' =>
      hrow.compute (fun out hout => (hbound out hout).worth_eq _ _) hrow'
  · refine List.forall_mem_map.2 fun x hx => ?_
    show Filter.Admits (outputs.map Output.column) _ _ _ _
    rw [hcol]
    exact ((hΦ x (hsub hx)).of_split fun c hc => (hmem c).2 (.inr hc)).congr (by simp [S])
  · rw [hrecords, List.filter_map, List.filter_map]
    refine List.Perm.map _ ((h.perm.filter _).trans (.of_eq ?_))
    rw [List.filter_filter]
    refine List.filter_congr fun x hx => ?_
    rw [Function.comp_apply, Function.comp_apply, hiff x hx, Bool.and_comm]
  · refine sorted_of_taken fun o₁ ho₁ => ?_
    rw [Option.mem_def] at ho₁
    rw [ho₁, Option.mapM_some] at ho
    obtain ⟨o₂, ho₂, rfl⟩ := Result.map_eq_ok.1 ho
    have hmet : input'.unmet = none := by
      cases hcase : input'.unmet with
      | none => rfl
      | some => simp [unmet, hcase, ho₁] at hunmet
    show o₁.Sorted (List.map (Record.env (outputs.map Output.column) scope.env) _)
    have hbo₁ := hbo hexact o₁ (mem_of_mem_taken ho₁)
    rw [hcol] at hbo₁ ⊢
    exact SortOrder.sorted_of_unproject hbound hbo₁ ho₂
      ((h.sorted hexact hmet o₂ rfl).sublist (List.filter_sublist.map _))

theorem delivers_rename {name : String} {own : List Column} {moving staying f' left : Filter}
    {o' unmet : Option SortOrder} (hown : own = input.columns.map (·.withRelation (some name)))
    (hsplit : f.split own input.columns = .ok (moving, staying))
    (hdown : moving.rename own input.columns = .ok f')
    (ho : o.mapM (SortOrder.rename own input.columns) = .ok o') (hi : Settles input f' o' input')
    (hup : input'.residual.rename input.columns own = .ok left)
    (hunmet : input'.unmet.mapM (SortOrder.rename input.columns own) = .ok unmet)
    (hbo : exact → ∀ o₁ ∈ o, o₁.Bound own) (ih : input.Delivers exact f' o' input') :
    (input.rename name).Delivers exact f o
      (stage .settled
        (.rename name staying.taken (.union [staying.taken, left]) unmet) input') := by
  obtain ⟨ms, ss, rfl, rfl, hmem, hmov⟩ := Filter.split_spec hsplit
  have hcol : (input.rename name).columns = own := hown.symm
  have hlen : own.length = input.columns.length := by simp [hown]
  have hfaithful : (Filter.ofList ms).RefsIn (Faithful own input.columns) := by
    intro e he r hr
    have hm := Filter.movable_ofList hmov e he
    subst hown
    exact hm.faithful r hr
  have hback := hi.faithful_residual hlen (Filter.movable_ofList hmov) hdown hup
  refine ⟨fun hexact => List.forall_mem_map.2 fun x hx =>
    hcol ▸ (ih.fits hexact x hx).bare hlen.symm, fun {scope opened} hscope hopen Φ hΦ => ?_⟩
  obtain ⟨oi, hoi, hstage⟩ := scan_stage_eq_ok hopen
  cases hstage
  -- as in a projection `M` goes down and `S` stays, here beside what the input leaves over
  replace hΦ (x : Record) (hx : x ∈ input.records) :
      Filter.Admits own scope.env x.cells f (Φ x.cells) := by
    rw [← hcol]
    exact hΦ x.bare (List.mem_map_of_mem hx)
  let S (cells : List (Option Value)) : Bool :=
    Filter.Passes (cellsEnv own scope.env cells) (Filter.ofList ss) || Φ cells
  let M (cells : List (Option Value)) : Bool :=
    Filter.Passes (cellsEnv own scope.env cells) (Filter.ofList ms)
  have hiff (x : Record) (hx : x ∈ input.records) : Φ x.cells = (M x.cells && S x.cells) := by
    have h := (hΦ x hx).iff_of_split hmem fun c hc => (hmov c hc).clear
    rw [Bool.eq_iff_iff, h]
    simp [M, S]
  obtain ⟨Ψ, U, h⟩ := ih.delivery hscope hoi M fun x hx =>
    ((Filter.Admits.passes ..).rename hfaithful hdown).congr (by simp [M])
  refine ⟨fun cells => S cells && Ψ cells, U.map Record.bare, ⟨List.map_subset _ h.sub, ?_, ?_, ?_⟩,
    fun _ => .of_isEmpty rfl _, fun hexact hmet => ?_⟩
  · show ((oi.reshape (input'.columns.map (·.withRelation (some name)))).scan ()).Shows _ _
    rw [hi.columns]
    exact Opened.shows_reshape h.shows
  · refine List.forall_mem_map.2 fun x hx => ?_
    rw [hcol]
    have hstay := ((hΦ x (h.sub hx)).of_split fun c hc => (hmem c).2 (.inr hc)).push
    have hres := (h.residual x hx).rename hback hup
    exact (hstay.union fun _ => hres).congr (by simp [S])
  · show ((U.map Record.bare).filter _).Perm ((input.records.map Record.bare).filter _)
    rw [filter_map_bare fun cells => S cells && Ψ cells, filter_map_bare]
    refine List.Perm.map _ ?_
    rw [← List.filter_filter]
    refine (h.perm.filter fun x => S x.cells).trans (.of_eq ?_)
    rw [List.filter_filter]
    exact List.filter_congr fun x hx => by rw [hiff x hx, Bool.and_comm]
  · rintro o₁ rfl
    rw [Option.mapM_some] at ho
    obtain ⟨o₂, ho₂, rfl⟩ := Result.map_eq_ok.1 ho
    obtain rfl : unmet = none := hmet
    have hmet : input'.unmet = none := by
      rcases Result.optionMapM_eq_ok.1 hunmet with ⟨hnone, -⟩ | ⟨_, _, -, hsome, -⟩
      exacts [hnone, by cases hsome]
    subst hown
    exact SortOrder.sorted_of_rename (hbo hexact o₁ rfl) ho₂ (h.sorted hexact hmet o₂ rfl)

theorem delivers_cut {c : Cut} (hinput : input.optimize.1 = input')
    (hi : Settles input none none input') (ih : exact → input.Delivers exact none none input') :
    (stage .building (.cut c none none) input).Delivers exact f o
      (stage .settled (.cut c f.taken (SortOrder.taken o)) input') := by
  have hfits (hexact : exact) : ∀ row ∈ input'.seen, row.record.Fits input.columns := by
    intro row hrow
    unfold seen at hrow
    split at hrow
    · next oi hoi =>
      obtain ⟨Ψ, U, h⟩ := (ih hexact).delivery (fun _ => Scope.isExact_empty) hoi (fun _ => true)
        fun x _ => .none rfl
      obtain ⟨x, hx, -, rfl⟩ := h.shows.exists_of_mem_seen hrow
      exact (ih hexact).fits hexact _ (h.sub hx)
    · cases hrow
  have hrecords : (stage .building (.cut c none none) input).records =
      (c.select input'.seen).map Row.record := by rw [← hinput]; rfl
  refine ⟨fun hexact => ?_, fun {scope opened} _ hopen Φ hΦ => ?_⟩
  · rw [hrecords]
    exact List.forall_mem_map.2 fun row hrow => hfits hexact row (c.select_subset _ hrow)
  obtain ⟨oi, hoi, hstage⟩ := scan_stage_eq_ok hopen
  cases hstage
  have hseen : input'.seen = (oi.scan ()).seen := by
    rw [seen, ← hi.scan_eq scope Scope.empty, hoi]
  have hshows : (oi.scan ()).Shows (Row.Stands input.columns) (input'.seen.map Row.record) := by
    rw [hseen]
    exact Scan.shows_seen (hi.all_columns hoi)
  refine ⟨Φ, _, ⟨List.Subset.refl _, ?_, fun x hx => (hΦ x hx).push, .refl _⟩,
    fun _ => .of_isEmpty rfl _, fun _ hunmet => sorted_of_taken_eq_none hunmet _⟩
  · have happly := c.shows_apply hshows
    rw [Cut.select_map, ← hrecords] at happly
    show (c.apply (oi.filter scope input'.residual).scan).Shows _ _
    rw [hi.residual_eq_none rfl]
    exact happly

end Plan

end RelPlan

import RelPlan.Proofs.Drains

/-!
# Plans over data of any kind

Indexes, joins and the dropping of repetitions rely on the order of the data, which is linear on
exact values only.  A plan that does without them delivers whatever its data are
(`Settles.delivers_plain`).  So does a plan over exact data; either way what the plan shows once it
was handed a filter is a share of the rows that it yields by itself (`Plan.Honours`).
-/

namespace RelPlan

variable {f : Filter} {o : Option SortOrder}

theorem AccessPath.eq_full_of_select {t : Table} {weights : AccessWeights} {path : AccessPath}
    (ht : t.indexes = []) (h : (select t f o weights).result = .ok path) : path = ⟨t, .full⟩ := by
  unfold select at h
  rw [ht] at h
  cases h
  rfl

namespace Plan

variable {p p' q : Plan}

/-- An assembled plan without indexes, joins and distinct unions, unless a cut is above them. -/
inductive Plain : Plan → Prop
  | read {t : Table} (weights : AccessWeights) (hcol : ∀ row ∈ t.rows, row.columns = t.columns)
      (ht : t.indexes = []) : Plain (.read t weights)
  | rows {columns : List Column} {rows : List Row} (hcol : ∀ row ∈ rows, row.columns = columns) :
      Plain (source .building (.rows { columns, rows }))
  | filter (e : Expr) {p : Plan} (hp : Plain p) : Plain (p.filter e)
  | sort (o : SortOrder) (buffered : Bool) {p : Plan} (hp : Plain p) :
      Plain (stage .building (.sort o buffered none) p)
  | project (outputs : List Output) {p : Plan} (hp : Plain p) :
      Plain (stage .building (.project outputs none none none) p)
  | cut (c : Cut) {p : Plan} (hp : p.Assembled) : Plain (stage .building (.cut c none none) p)
  | rename (name : String) {p : Plan} (hp : Plain p) : Plain (p.rename name)
  | unionAll {left right : Plan} (hl : Plain left) (hr : Plain right) :
      Plain (.union false left right)

theorem Plain.assembled (hp : p.Plain) : p.Assembled := by
  induction hp with
  | read weights hcol _ => exact .read weights hcol
  | rows hcol => exact .rows hcol
  | filter e _ ih => exact .filter e ih
  | sort o buffered _ ih => exact .sort o buffered ih
  | project outputs _ ih => exact .project outputs ih
  | cut c hp => exact .cut c hp
  | rename name _ ih => exact .rename name ih
  | unionAll _ _ ihl ihr => exact .union false ihl ihr

/-- Plain plans deliver, in whatever order. -/
theorem Settles.delivers_plain (h : Settles p f o q) (hp : p.Plain) : p.Delivers False f o q := by
  induction h with
  | table hcol hq hqo hpath =>
    cases hp with | read _ _ ht =>
    obtain rfl := AccessPath.eq_full_of_select ht hpath
    exact delivers_table hcol False.elim hq hqo fun _ => AccessPath.serves_full
  | rows hcol hq => exact delivers_rows hcol hq False.elim
  | filter he _ ih =>
    cases hp with | filter _ hp =>
    exact delivers_filter he (ih hp)
  | sort hb _ ih =>
    cases hp with | sort _ _ hp =>
    exact delivers_sort hb False.elim (ih hp)
  | project hout hsplit hmap _ ih =>
    cases hp with | project _ hp =>
    exact delivers_project hout hsplit hmap False.elim False.elim (ih hp)
  | cut hinput hi _ => exact delivers_cut hinput hi False.elim
  | rename hown hsplit hdown hmap hi hup hunmet ih =>
    cases hp with | rename _ hp =>
    exact delivers_rename hown hsplit hdown hmap hi hup hunmet False.elim (ih hp)
  | join => cases hp
  | union hd hl hr hleft hright ihl ihr =>
    cases hp with | unionAll hpl hpr =>
    exact delivers_union hd hl hr hleft hright (by simp) (ihl hpl) (ihr hpr)

/-- Handed the filter, the plan shows a share of the rows that it yields by itself. -/
def Honours (p : Plan) (f : Filter) : Prop :=
  ∀ (p' : Plan) (rows : List Row) (opened : Opened) (Φ : List (Option Value) → Bool),
    p.execute.2.result = .ok rows → p.addFilter? f = (p', .ok ()) →
    p'.optimize.2.result = .ok () → (p'.optimize.1.scan .empty).result = .ok opened →
    (∀ row ∈ rows, f.Admits p.columns Scope.empty.env row.record.cells (Φ row.record.cells)) →
    ∃ Ψ U, opened.Share p.columns .empty p'.optimize.1.residual (rows.map Row.record) Φ Ψ U

/-- The rows that a plan yields by itself stand for its records. -/
theorem Delivers.perm_records {exact : Prop} {rows : List Row} (h : p.Delivers exact none none q)
    (hres : q.residual = none) (hdrain : q.drain .empty none = .ok rows) :
    (rows.map Row.record).Perm p.records := by
  obtain ⟨opened, hopen, hrows⟩ := Result.bind_eq_ok.1 hdrain
  obtain ⟨Ψ, U, hshare⟩ := h.delivery (fun _ => Scope.isExact_empty) hopen (fun _ => true)
    fun _ _ => .none rfl
  have hshare := hshare.toShare
  rw [hres] at hshare
  have hperm := hshare.perm_of_none
  rw [List.filter_true] at hperm
  have hstands := (hshare.shows.drain hrows).imp fun _ _ hrow => hrow.2
  rw [← List.forall₂_map_left_iff, List.forall₂_eq_eq_eq] at hstands
  exact hstands ▸ hperm

theorem Honours.of_delivers {exact : Prop} (hp : p.Assembled)
    (hself : ∀ q, Settles p none none q → p.Delivers exact none none q)
    (hfilter : ∀ q, Settles p f none q → p.Delivers exact f none q) : p.Honours f := by
  intro p' rows opened Φ hrun hadd hopt hopen hΦ
  obtain ⟨hopt₀, hdrain⟩ := execute_eq_ok hrun
  have hsettles := hp.settles_alone hopt₀
  have hres := hsettles.residual_eq_none rfl
  rw [hres] at hdrain
  have hperm := (hself _ hsettles).perm_records hres hdrain
  have hmem (x : Record) (hx : x ∈ p.records) :
      f.Admits p.columns Scope.empty.env x.cells (Φ x.cells) := by
    obtain ⟨row, hrow, rfl⟩ := List.mem_map.1 (hperm.mem_iff.2 hx)
    exact hΦ row hrow
  obtain ⟨Ψ, U, h⟩ := (hfilter _ (hp.settles (o := none) ⟨p', hadd, rfl⟩ hopt)).delivery
    (fun _ => Scope.isExact_empty) hopen Φ hmem
  exact ⟨Ψ, U, fun x hx => hperm.mem_iff.2 (h.sub hx), h.shows, h.residual,
    h.perm.trans (hperm.symm.filter _)⟩

theorem Plain.honours (hp : p.Plain) (f : Filter) : p.Honours f :=
  .of_delivers hp.assembled (fun _ h => h.delivers_plain hp) fun _ h => h.delivers_plain hp

theorem Built.honours (hp : p.Built) (hx : p.IsExact) (hf : f.IsExact) : p.Honours f :=
  .of_delivers hp.assembled (fun _ h => h.delivers hp hx Filter.isExact_none (by simp))
    fun _ h => h.delivers hp hx hf (by simp)

end Plan

end RelPlan

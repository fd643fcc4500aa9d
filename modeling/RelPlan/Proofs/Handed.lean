import RelPlan.Plan.Optimize
import RelPlan.Proofs.Results

/-!
# Plans that were handed a filter and an order

What a fresh plan is after a filter and then an order were handed to it: a table has them under full
names, a renaming has passed them on under the names of its input, a sort has passed the filter on
and a filter the order, and the other nodes hold both (`Handed.table` and so on).  Which of the two
comes first does not matter (`Handed.of_order_first`).
-/

namespace RelPlan

variable {f : Filter} {o : Option SortOrder} {e : Expr} {p p' q input input' : Plan} {phase : Phase}

/-- A filter that was put aside where there was none. -/
def Filter.taken (f : Filter) : Filter := union [none, f]

/-- An order that was put aside. -/
def SortOrder.taken (o : Option SortOrder) : Option SortOrder := o.bind request

/-- The part of a filter that may move, and the part that must stay. -/
def Filter.split (own child : List Column) : Filter → Result (Filter × Filter)
  | none => .ok (none, none)
  | some e => splitCaptured own child e

@[simp] theorem Filter.taken_none : taken none = none := rfl

@[simp] theorem Filter.taken_some (e : Expr) : taken (some e) = push none e := rfl

@[simp] theorem SortOrder.taken_none : taken none = none := rfl

@[simp] theorem SortOrder.taken_some (o : SortOrder) : taken (some o) = o.request := rfl

namespace Plan

theorem columns_ofSource {s : Source} {r : Result Source}
    (h : ∀ s', r = .ok s' → s'.columns = s.columns) :
    (ofSource phase s r).1.columns = s.columns := by
  cases r with
  | ok s' => exact h s' rfl
  | error => rfl

theorem columns_takeFilter (s : Stage) (columns : List Column) (e : Expr) (input : List Column) :
    (s.takeFilter columns e).1.columns input = s.columns input := by
  cases s with
  | rename =>
    simp only [Stage.takeFilter]
    split <;> rfl
  | filter | sort | project | cut => rfl

theorem columns_takeOrder (s : Stage) (columns : List Column) (o : SortOrder)
    (input : List Column) : (s.takeOrder columns o).1.columns input = s.columns input := by
  cases s <;> rfl

theorem columns_addFilter (e : Expr) (p : Plan) : (p.addFilter e).1.columns = p.columns := by
  fun_induction addFilter e p with
  | case1 => rfl
  | case2 e phase s =>
    refine columns_ofSource fun s' hs' => ?_
    cases s with
    | table r => obtain ⟨e', -, h⟩ := Result.bind_eq_ok.1 hs'; cases h; rfl
    | rows r => cases hs'; rfl
  | case3 e _ s input s' _ hs | case4 e _ s input s' hs =>
    have h := columns_takeFilter s input.columns e input.columns
    rw [hs] at h
    exact h
  | case5 e _ s input s' e' hs input' r hadd _ ih =>
    have h := columns_takeFilter s input.columns e input.columns
    rw [hs] at h
    rw [hadd] at ih
    show s'.columns input'.columns = s.columns input.columns
    rw [ih]
    exact h
  | case6 e phase s left right => cases s <;> rfl

theorem columns_addOrder (o : SortOrder) (p : Plan) : (p.addOrder o).1.columns = p.columns := by
  fun_induction addOrder o p with
  | case1 => rfl
  | case2 o phase s =>
    refine columns_ofSource fun s' hs' => ?_
    cases s with
    | table r => obtain ⟨o', -, h⟩ := Result.bind_eq_ok.1 hs'; cases h; rfl
    | rows r => cases hs'; rfl
  | case3 o _ s input s' _ hs | case4 o _ s input s' hs =>
    have h := columns_takeOrder s input.columns o input.columns
    rw [hs] at h
    exact h
  | case5 o _ s input s' o' hs input' r hadd _ ih =>
    have h := columns_takeOrder s input.columns o input.columns
    rw [hs] at h
    rw [hadd] at ih
    show s'.columns input'.columns = s.columns input.columns
    rw [ih]
    exact h
  | case6 o phase s left right => cases s <;> rfl

theorem columns_addFilter? (h : p.addFilter? f = (q, .ok ())) : q.columns = p.columns := by
  cases f with
  | none => cases h; rfl
  | some e => rw [← columns_addFilter e p, ← addFilter?, h]

theorem columns_addOrder? (h : p.addOrder? o = (q, .ok ())) : q.columns = p.columns := by
  cases o with
  | none => cases h; rfl
  | some o => rw [← columns_addOrder o p, ← addOrder?, h]

/-- The plan after a filter and then an order, if there are any, were handed to it. -/
def Handed (p : Plan) (f : Filter) (o : Option SortOrder) (q : Plan) : Prop :=
  ∃ p', p.addFilter? f = (p', .ok ()) ∧ p'.addOrder? o = (q, .ok ())

/-! ### One node at a time -/

theorem ofSource_eq_ok {s : Source} {r : Result Source} (h : ofSource phase s r = (q, .ok ())) :
    ∃ s', r = .ok s' ∧ q = source phase s' := by
  cases r with
  | ok s' => cases h; exact ⟨s', rfl, rfl⟩
  | error => cases h

theorem addFilter_source {s : Source} (h : (source .building s).addFilter? (some e) = (q, .ok ())) :
    ∃ s', s.takeFilter e = .ok s' ∧ q = source .building s' :=
  ofSource_eq_ok (by simpa [addFilter?, addFilter, requireBuilding, Plan.phase] using h)

theorem addOrder_source {s : Source} {o : SortOrder}
    (h : (source .building s).addOrder? (some o) = (q, .ok ())) :
    ∃ s', s.takeOrder o = .ok s' ∧ q = source .building s' :=
  ofSource_eq_ok (by simpa [addOrder?, addOrder, requireBuilding, Plan.phase] using h)

/-- What a stage does with a filter, if there is one. -/
def takeFilter? (columns : List Column) (f : Filter) (s : Stage) : Stage × Result Filter :=
  match f with
  | none => (s, .ok none)
  | some e => s.takeFilter columns e

/-- What a stage does with an order, if there is one. -/
def takeOrder? (columns : List Column) (o : Option SortOrder) (s : Stage) :
    Stage × Result (Option SortOrder) :=
  match o with
  | none => (s, .ok none)
  | some o => s.takeOrder columns o

theorem addFilter_stage {s : Stage} (h : (stage .building s input).addFilter? f = (q, .ok ())) :
    ∃ s' f' input', takeFilter? input.columns f s = (s', .ok f') ∧
      input.addFilter? f' = (input', .ok ()) ∧ q = stage .building s' input' := by
  cases f with
  | none => cases h; exact ⟨s, none, input, rfl, rfl, rfl⟩
  | some e =>
    simp only [addFilter?, addFilter, requireBuilding, Plan.phase, if_true] at h
    rw [takeFilter?]
    split at h
    · cases h
    · next ht => cases h; exact ⟨_, none, input, ht, rfl, rfl⟩
    · next s' e' ht =>
      obtain ⟨rfl, hadd⟩ := Prod.mk.inj h
      exact ⟨s', some e', (input.addFilter e').1, ht, Prod.ext rfl hadd, rfl⟩

theorem addOrder_stage {s : Stage} (h : (stage .building s input).addOrder? o = (q, .ok ())) :
    ∃ s' o' input', takeOrder? input.columns o s = (s', .ok o') ∧
      input.addOrder? o' = (input', .ok ()) ∧ q = stage .building s' input' := by
  cases o with
  | none => cases h; exact ⟨s, none, input, rfl, rfl, rfl⟩
  | some o =>
    simp only [addOrder?, addOrder, requireBuilding, Plan.phase, if_true] at h
    rw [takeOrder?]
    split at h
    · cases h
    · next ht => cases h; exact ⟨_, none, input, ht, rfl, rfl⟩
    · next s' o' ht =>
      obtain ⟨rfl, hadd⟩ := Prod.mk.inj h
      exact ⟨s', some o', (input.addOrder o').1, ht, Prod.ext rfl hadd, rfl⟩

theorem addFilter_stage_of {s s' : Stage} {f' : Filter}
    (hs : takeFilter? input.columns f s = (s', .ok f'))
    (hi : input.addFilter? f' = (input', .ok ())) :
    (stage .building s input).addFilter? f = (stage .building s' input', .ok ()) := by
  cases f with
  | none => cases hs; cases hi; rfl
  | some e =>
    have hs : s.takeFilter input.columns e = (s', .ok f') := hs
    simp only [addFilter?, addFilter, requireBuilding, Plan.phase, if_true, hs]
    cases f' with
    | none => cases hi; rfl
    | some e' =>
      rw [addFilter?] at hi
      simp only [hi]

theorem addOrder_stage_of {s s' : Stage} {o' : Option SortOrder}
    (hs : takeOrder? input.columns o s = (s', .ok o'))
    (hi : input.addOrder? o' = (input', .ok ())) :
    (stage .building s input).addOrder? o = (stage .building s' input', .ok ()) := by
  cases o with
  | none => cases hs; cases hi; rfl
  | some o =>
    have hs : s.takeOrder input.columns o = (s', .ok o') := hs
    simp only [addOrder?, addOrder, requireBuilding, Plan.phase, if_true, hs]
    cases o' with
    | none => cases hi; rfl
    | some o' =>
      rw [addOrder?] at hi
      simp only [hi]

theorem takeFilter_takeOrder {columns : List Column} {s s' s'' : Stage} {f' : Filter}
    {o' : Option SortOrder} (ho : takeOrder? columns o s = (s', .ok o'))
    (hf : takeFilter? columns f s' = (s'', .ok f')) :
    ∃ t, takeFilter? columns f s = (t, .ok f') ∧ takeOrder? columns o t = (s'', .ok o') := by
  cases o with
  | none => cases ho; exact ⟨s'', hf, rfl⟩
  | some o =>
    cases f with
    | none => cases hf; exact ⟨s, rfl, ho⟩
    | some e =>
      cases s with
      | filter | sort | project | cut => cases ho; cases hf; exact ⟨_, rfl, rfl⟩
      | rename name kept residual unmet =>
        obtain ⟨rfl, hren⟩ := Prod.mk.inj ho
        refine ⟨s'', hf, ?_⟩
        simp only [takeFilter?, Stage.takeFilter] at hf
        split at hf
        · cases hf
        · obtain ⟨rfl, -⟩ := Prod.mk.inj hf
          exact Prod.ext rfl hren

theorem addFilter_pair {s : Pairing} {left right : Plan}
    (h : (pair .building s left right).addFilter? f = (q, .ok ())) :
    q = pair .building (f.elim s s.takeFilter) left right := by
  cases f with
  | none => cases h; rfl
  | some e => simpa [addFilter?, addFilter, requireBuilding, Plan.phase, eq_comm] using h

theorem addOrder_pair {s : Pairing} {left right : Plan}
    (h : (pair .building s left right).addOrder? o = (q, .ok ())) :
    q = pair .building (o.elim s s.takeOrder) left right := by
  cases o with
  | none => cases h; rfl
  | some o => simpa [addOrder?, addOrder, requireBuilding, Plan.phase, eq_comm] using h

theorem building_of_addOrder {o : SortOrder} (h : p.addOrder? (some o) = (q, .ok ())) :
    p.phase = .building := by
  by_contra hne
  rw [addOrder?, addOrder.eq_def, requireBuilding, if_neg hne] at h
  cases h

namespace Handed

theorem columns (h : Handed p f o q) : q.columns = p.columns := by
  obtain ⟨p', hf, ho⟩ := h
  rw [columns_addOrder? ho, columns_addFilter? hf]

theorem of_stage {s : Stage} (h : Handed (stage .building s input) f o q) :
    ∃ s' f' s'' o' input', takeFilter? input.columns f s = (s', .ok f') ∧
      takeOrder? input.columns o s' = (s'', .ok o') ∧ Handed input f' o' input' ∧
      q = stage .building s'' input' := by
  obtain ⟨p', hf, ho⟩ := h
  obtain ⟨s', f', input₁, hs', hi, rfl⟩ := addFilter_stage hf
  obtain ⟨s'', o', input', hs'', hi', rfl⟩ := addOrder_stage ho
  exact ⟨s', f', s'', o', input', hs', columns_addFilter? hi ▸ hs'', ⟨_, hi, hi'⟩, rfl⟩

theorem of_pair {s : Pairing} {left right : Plan}
    (h : Handed (pair .building s left right) f o q) :
    q = pair .building (o.elim (f.elim s s.takeFilter) (f.elim s s.takeFilter).takeOrder)
      left right := by
  obtain ⟨p', hf, ho⟩ := h
  rw [addFilter_pair hf] at ho
  exact addOrder_pair ho

/-- It does not matter whether the order or the filter comes first. -/
theorem of_order_first (ho : p.addOrder? o = (p', .ok ())) (hf : p'.addFilter? f = (q, .ok ())) :
    Handed p f o q := by
  induction p generalizing f o p' q with
  | source phase s =>
    match o, f, ho, hf with
    | none, _, ho, hf => cases ho; exact ⟨q, hf, rfl⟩
    | some o, none, ho, hf => cases hf; exact ⟨_, rfl, ho⟩
    | some o, some e, ho, hf =>
      obtain rfl : phase = .building := building_of_addOrder ho
      obtain ⟨s', hs', rfl⟩ := addOrder_source ho
      obtain ⟨s'', hs'', rfl⟩ := addFilter_source hf
      cases s with
      | table r =>
        obtain ⟨o', ho', hs'⟩ := Result.bind_eq_ok.1 hs'
        cases hs'
        obtain ⟨e', he', hs''⟩ := Result.bind_eq_ok.1 hs''
        cases hs''
        refine ⟨source .building (.table { r with pushed := r.pushed.push e' }), ?_, ?_⟩
        · simp_all [addFilter?, addFilter, requireBuilding, Plan.phase, ofSource, Source.takeFilter]
        · simp_all [addOrder?, addOrder, requireBuilding, Plan.phase, ofSource, Source.takeOrder]
      | rows r => cases hs'; cases hs''; exact ⟨_, rfl, rfl⟩
  | stage phase s input ih =>
    match o, f, ho, hf with
    | none, _, ho, hf => cases ho; exact ⟨q, hf, rfl⟩
    | some o, none, ho, hf => cases hf; exact ⟨_, rfl, ho⟩
    | some o, some e, ho, hf =>
      obtain rfl : phase = .building := building_of_addOrder ho
      obtain ⟨s', o', input', hs', hi, rfl⟩ := addOrder_stage ho
      obtain ⟨s'', f', input'', hs'', hi', rfl⟩ := addFilter_stage hf
      rw [columns_addOrder? hi] at hs''
      obtain ⟨t, ht, ht'⟩ := takeFilter_takeOrder hs' hs''
      obtain ⟨input₁, hi₁, hi₂⟩ := ih hi hi'
      exact ⟨_, addFilter_stage_of ht hi₁,
        addOrder_stage_of (columns_addFilter? hi₁ ▸ ht') hi₂⟩
  | pair phase s left right =>
    match o, f, ho, hf with
    | none, _, ho, hf => cases ho; exact ⟨q, hf, rfl⟩
    | some o, none, ho, hf => cases hf; exact ⟨_, rfl, ho⟩
    | some o, some e, ho, hf =>
      obtain rfl : phase = .building := building_of_addOrder ho
      obtain rfl := addOrder_pair ho
      obtain rfl := addFilter_pair hf
      cases s <;> exact ⟨_, rfl, rfl⟩

theorem table {t : Table} {weights : AccessWeights} (h : Handed (.read t weights) f o q) :
    ∃ f' o', f.qualify t.columns = .ok f' ∧ o.mapM (SortOrder.qualify t.columns) = .ok o' ∧
      q = source .building
        (.table ⟨t, weights, f'.taken, SortOrder.taken (o'.map SortOrder.fold), none⟩) := by
  obtain ⟨p', hf, ho⟩ := h
  obtain ⟨f', hf', rfl⟩ : ∃ f', f.qualify t.columns = .ok f' ∧
      p' = source .building (.table ⟨t, weights, f'.taken, none, none⟩) := by
    cases f with
    | none => cases hf; exact ⟨none, rfl, rfl⟩
    | some e =>
      obtain ⟨s', hs', rfl⟩ := addFilter_source hf
      obtain ⟨e', he', hs'⟩ := Result.bind_eq_ok.1 hs'
      cases hs'
      exact ⟨some e', by simp [Filter.qualify, he'], rfl⟩
  cases o with
  | none => cases ho; exact ⟨f', none, hf', rfl, rfl⟩
  | some o =>
    obtain ⟨s', hs', rfl⟩ := addOrder_source ho
    obtain ⟨o', ho', hs'⟩ := Result.bind_eq_ok.1 hs'
    cases hs'
    exact ⟨f', some o', hf', by simp [ho'], rfl⟩

theorem rows {columns : List Column} {rows : List Row}
    (h : Handed (source .building (.rows { columns, rows })) f o q) :
    q = source .building (.rows ⟨columns, rows, f.taken, SortOrder.taken o⟩) := by
  obtain ⟨p', hf, ho⟩ := h
  obtain rfl : p' = source .building (.rows ⟨columns, rows, f.taken, none⟩) := by
    cases f with
    | none => cases hf; rfl
    | some e =>
      obtain ⟨s', hs', rfl⟩ := addFilter_source hf
      cases hs'
      rfl
  cases o with
  | none => cases ho; rfl
  | some o =>
    obtain ⟨s', hs', rfl⟩ := addOrder_source ho
    cases hs'
    rfl

theorem filter {e : Expr} (h : Handed (input.filter e) f o q) :
    ∃ input', Handed input none o input' ∧ q = stage .building (.filter e f.taken) input' := by
  obtain ⟨s', f', s'', o', input', hf, ho, hi, rfl⟩ := of_stage h
  obtain ⟨rfl, rfl⟩ : s' = .filter e f.taken ∧ f' = none := by cases f <;> cases hf <;> simp
  obtain ⟨rfl, rfl⟩ : s'' = .filter e f.taken ∧ o' = o := by cases o <;> cases ho <;> simp
  exact ⟨input', hi, rfl⟩

theorem sort {order : SortOrder} {buffered : Bool}
    (h : Handed (stage .building (.sort order buffered none) input) f o q) :
    ∃ input', Handed input f none input' ∧
      q = stage .building (.sort order buffered (SortOrder.taken o)) input' := by
  obtain ⟨s', f', s'', o', input', hf, ho, hi, rfl⟩ := of_stage h
  obtain ⟨rfl, rfl⟩ : s' = .sort order buffered none ∧ f' = f := by
    cases f <;> cases hf <;> simp
  obtain ⟨rfl, rfl⟩ : s'' = .sort order buffered (SortOrder.taken o) ∧ o' = none := by
    cases o <;> cases ho <;> simp
  exact ⟨input', hi, rfl⟩

theorem none_none (h : Handed p none none q) : q = p := by
  obtain ⟨p', hf, ho⟩ := h
  cases hf
  cases ho
  rfl

theorem project {outputs : List Output}
    (h : Handed (stage .building (.project outputs none none none) input) f o q) :
    q = stage .building (.project outputs f.taken (SortOrder.taken o) none) input := by
  obtain ⟨s', f', s'', o', input', hf, ho, hi, rfl⟩ := of_stage h
  obtain ⟨rfl, rfl⟩ : s' = .project outputs f.taken none none ∧ f' = none := by
    cases f <;> cases hf <;> simp
  obtain ⟨rfl, rfl⟩ : s'' = .project outputs f.taken (SortOrder.taken o) none ∧ o' = none := by
    cases o <;> cases ho <;> simp
  rw [hi.none_none]

theorem cut {c : Cut} (h : Handed (stage .building (.cut c none none) input) f o q) :
    q = stage .building (.cut c f.taken (SortOrder.taken o)) input := by
  obtain ⟨s', f', s'', o', input', hf, ho, hi, rfl⟩ := of_stage h
  obtain ⟨rfl, rfl⟩ : s' = .cut c f.taken none ∧ f' = none := by cases f <;> cases hf <;> simp
  obtain ⟨rfl, rfl⟩ : s'' = .cut c f.taken (SortOrder.taken o) ∧ o' = none := by
    cases o <;> cases ho <;> simp
  rw [hi.none_none]

theorem rename {name : String} (h : Handed (input.rename name) f o q) :
    ∃ moving staying f' o' input',
      f.split (input.columns.map (·.withRelation (some name))) input.columns =
        .ok (moving, staying) ∧
      moving.rename (input.columns.map (·.withRelation (some name))) input.columns = .ok f' ∧
      o.mapM (SortOrder.rename (input.columns.map (·.withRelation (some name))) input.columns) =
        .ok o' ∧
      Handed input f' o' input' ∧
      q = stage .building (.rename name staying.taken none none) input' := by
  obtain ⟨s', f', s'', o', input', hf, ho, hi, rfl⟩ := of_stage h
  obtain ⟨moving, staying, hsplit, hren, rfl⟩ : ∃ moving staying,
      f.split (input.columns.map (·.withRelation (some name))) input.columns =
        .ok (moving, staying) ∧
      moving.rename (input.columns.map (·.withRelation (some name))) input.columns = .ok f' ∧
      s' = .rename name staying.taken none none := by
    cases f with
    | none => cases hf; exact ⟨none, none, rfl, rfl, rfl⟩
    | some e =>
      simp only [takeFilter?, Stage.takeFilter] at hf
      split at hf
      · cases hf
      · next moving staying hsplit =>
        obtain ⟨rfl, hren⟩ := Prod.mk.inj hf
        refine ⟨moving, staying, hsplit, hren, ?_⟩
        cases staying <;> rfl
  obtain ⟨rfl, hord⟩ : s'' = .rename name staying.taken none none ∧
      o.mapM (SortOrder.rename (input.columns.map (·.withRelation (some name))) input.columns) =
        .ok o' := by
    cases o with
    | none => cases ho; exact ⟨rfl, rfl⟩
    | some o =>
      obtain ⟨rfl, hren⟩ := Prod.mk.inj ho
      exact ⟨rfl, hren⟩
  exact ⟨moving, staying, f', o', input', hsplit, hren, hord, hi, rfl⟩

theorem join {condition : Option Expr} {choice : JoinChoice} {left right : Plan}
    (h : Handed (.join condition choice left right) f o q) :
    q = pair .building
      (.join { condition, choice, pushed := f.taken, wanted := SortOrder.taken o }) left right := by
  rw [of_pair h]
  cases f <;> cases o <;> rfl

theorem union {distinct : Bool} {left right : Plan}
    (h : Handed (.union distinct left right) f o q) :
    q = pair .building
      (.union { distinct, pushed := f.taken, wanted := SortOrder.taken o }) left right := by
  rw [of_pair h]
  cases f <;> cases o <;> rfl

end Handed

end Plan

end RelPlan

import RelPlan.Proofs.Handed
import RelPlan.Proofs.Records

/-!
# What optimization makes of a plan

`Settles p f o q` says that the assembled plan `p` becomes the settled plan `q` if the filter `f`
and the order `o` are handed to it: for each kind of node, what it takes up, what it hands on, and
what it finds left over.  Optimization that succeeds follows these rules (`Assembled.settles`), so
what is to be known of optimized plans is shown by induction on them.
-/

namespace RelPlan

/-- Where a join puts the wanted order, of which `handed` goes to the left input. -/
inductive Join.Places (strategy : JoinStrategy) (left right : List Column) :
    Option SortOrder → Option SortOrder → Option SortOrder → Option SortOrder → Prop
  | none : Places strategy left right none none none none
  | merge {pairs : List KeyPair} {o o' : SortOrder} (hs : strategy = .merge pairs)
      (ho : o.qualify (left ++ right) = .ok o') :
      Places strategy left right (some o) (some o') none
        (SortOrder.unmet (some o') (leftKeys pairs))
  | left {o o' : SortOrder} (hs : ∀ pairs, strategy ≠ .merge pairs)
      (ho : o.qualify (left ++ right) = .ok o') (hr : resolvesWithin left o' = .ok true) :
      Places strategy left right (some o) (some o') (some o') none
  | stays {o o' : SortOrder} (hs : ∀ pairs, strategy ≠ .merge pairs)
      (ho : o.qualify (left ++ right) = .ok o') :
      Places strategy left right (some o) (some o') none (some o')

namespace Plan

/-- An assembled plan that is handed a filter and an order settles as another one. -/
inductive Settles : Plan → Filter → Option SortOrder → Plan → Prop
  | table {t : Table} {weights : AccessWeights} {f f' : Filter} {o o' : Option SortOrder}
      {path : AccessPath} (hcol : ∀ row ∈ t.rows, row.columns = t.columns)
      (hf : f.qualify t.columns = .ok f')
      (ho : o.mapM (SortOrder.qualify t.columns) = .ok o')
      (hpath : (AccessPath.select t f'.taken.fold (SortOrder.taken (o'.map SortOrder.fold))
        weights).result = .ok path) :
      Settles (.read t weights) f o (source .settled
        (.table ⟨t, weights, f'.taken.fold, SortOrder.taken (o'.map SortOrder.fold), some path⟩))
  | rows {columns : List Column} {rows : List Row} {f f' : Filter} {o : Option SortOrder}
      (hcol : ∀ row ∈ rows, row.columns = columns)
      (hf : f.taken.fold.qualify columns = .ok f') :
      Settles (source .building (.rows { columns, rows })) f o
        (source .settled (.rows ⟨columns, rows, f', SortOrder.taken o⟩))
  | filter {e e' : Expr} {input input' : Plan} {f : Filter} {o : Option SortOrder}
      (he : e.bindTo input.columns = .ok e')
      (hi : Settles input (Filter.fold (.union [some e', f.taken])) o input') :
      Settles (input.filter e) f o (stage .settled (.filter e' f.taken) input')
  | sort {order order' : SortOrder} {buffered : Bool} {input input' : Plan} {f : Filter}
      {o : Option SortOrder} (ho : order.bindTo input.columns = .ok order')
      (hi : Settles input f order'.request input') :
      Settles (stage .building (.sort order buffered none) input) f o
        (stage .settled (.sort order' buffered (SortOrder.taken o)) input')
  | project {outputs outputs' : List Output} {input input' : Plan} {f moving kept : Filter}
      {o o' : Option SortOrder}
      (hout : Stage.bindOutputs input.columns outputs = (outputs', .ok ()))
      (hf : Stage.splitProjected outputs' input.columns f.taken = .ok (moving, kept))
      (ho : (SortOrder.taken o).mapM (SortOrder.mapM (Stage.unproject outputs')) = .ok o')
      (hi : Settles input moving o' input') :
      Settles (stage .building (.project outputs none none none) input) f o
        (stage .settled (.project outputs' f.taken (SortOrder.taken o) kept) input')
  | cut {c : Cut} {input input' : Plan} {f : Filter} {o : Option SortOrder}
      (hinput : input.optimize.1 = input') (hi : Settles input none none input') :
      Settles (stage .building (.cut c none none) input) f o
        (stage .settled (.cut c f.taken (SortOrder.taken o)) input')
  | rename {name : String} {own : List Column} {input input' : Plan}
      {f moving staying f' left : Filter} {o o' unmet : Option SortOrder}
      (hown : own = input.columns.map (·.withRelation (some name)))
      (hsplit : f.split own input.columns = .ok (moving, staying))
      (hf : moving.rename own input.columns = .ok f')
      (ho : o.mapM (SortOrder.rename own input.columns) = .ok o') (hi : Settles input f' o' input')
      (hleft : input'.residual.rename input.columns own = .ok left)
      (hunmet : input'.unmet.mapM (SortOrder.rename input.columns own) = .ok unmet) :
      Settles (input.rename name) f o
        (stage .settled (.rename name staying.taken (.union [staying.taken, left]) unmet) input')
  | join {condition : Option Expr} {condition' : Filter} {choice : JoinChoice}
      {left right left' right' : Plan} {f : Filter} {o wanted handed pending : Option SortOrder}
      {d : Join.Decision}
      (hcond : condition.mapM (Expr.bindTo (left.columns ++ right.columns)) = .ok condition')
      (hd : Join.decide
        { condition := condition', choice, pushed := f.taken, wanted := SortOrder.taken o }
        left.columns right.columns = .ok d)
      (ho : Join.Places d.strategy left.columns right.columns (SortOrder.taken o) wanted handed
        pending)
      (hl : Settles (Join.arrangeLeft d.strategy left) d.forLeft handed left')
      (hr : Settles (Join.arrangeRight d.strategy right) d.forRight none right') :
      Settles (.join condition choice left right) f o
        (pair .settled (.join ⟨condition', choice, f.taken, wanted, some d.strategy, pending⟩)
          left' right')
  | union {distinct : Bool} {left right left' right' : Plan} {f l r : Filter}
      {o : Option SortOrder} {d : Union.Decision}
      (hd : Union.decide { distinct, pushed := f.taken, wanted := SortOrder.taken o } left.columns
        right.columns = .ok d)
      (hl : Settles left d.forLeft none left') (hr : Settles right d.forRight none right')
      (hleft : left'.residual.rename left.columns left.columns = .ok l)
      (hright : right'.residual.rename right.columns left.columns = .ok r) :
      Settles (.union distinct left right) f o
        (pair .settled
          (.union ⟨distinct, f.taken, SortOrder.taken o, d.kept, .union [l.inter r, d.kept],
            l.diff (l.inter r), r.diff (l.inter r)⟩)
          left' right')

variable {p q input : Plan} {f : Filter} {o : Option SortOrder}

theorem columns_bindOutputs {input : List Column} {outputs outputs' : List Output}
    {r : Result Unit} (h : Stage.bindOutputs input outputs = (outputs', r)) :
    outputs'.map Output.column = outputs.map Output.column := by
  induction outputs generalizing outputs' r with
  | nil => cases h; rfl
  | cons out outs ih =>
    rw [Stage.bindOutputs] at h
    split at h
    · cases h; rfl
    · cases h
      rw [List.map_cons, List.map_cons, ih rfl]

theorem columns_arrangeLeft (strategy : JoinStrategy) (p : Plan) :
    (Join.arrangeLeft strategy p).columns = p.columns := by
  cases strategy <;> rfl

theorem columns_arrangeRight (strategy : JoinStrategy) (p : Plan) :
    (Join.arrangeRight strategy p).columns = p.columns := by
  cases strategy <;> rfl

theorem records_arrangeLeft (strategy : JoinStrategy) (p : Plan) :
    (Join.arrangeLeft strategy p).records = p.records := by
  cases strategy <;> rfl

theorem records_arrangeRight (strategy : JoinStrategy) (p : Plan) :
    (Join.arrangeRight strategy p).records = p.records := by
  cases strategy <;> rfl

namespace Settles

theorem columns (h : Settles p f o q) : q.columns = p.columns := by
  induction h with
  | table | rows => rfl
  | filter _ _ ih | sort _ _ ih | cut _ _ ih => exact ih
  | project hout => exact columns_bindOutputs hout
  | rename _ _ _ _ _ _ _ ih => simp only [Plan.columns, Plan.rename, Stage.columns, ih]
  | join _ _ _ _ _ ihl ihr =>
    exact congrArg₂ (· ++ ·) (ihl.trans (columns_arrangeLeft _ _))
      (ihr.trans (columns_arrangeRight _ _))
  | union _ _ _ _ _ ihl => exact ihl

theorem phase (h : Settles p f o q) : q.phase = .settled := by
  cases h <;> rfl

end Settles

/-! ### Optimization follows the rules -/

theorem optimize_source {s : Source} (h : (source .building s).optimize.2.result = .ok ()) :
    s.settle.2.result = .ok () ∧ (source .building s).optimize.1 = source .settled s.settle.1 := by
  rw [optimize] at h ⊢
  simp only [if_true] at h ⊢
  exact ⟨h, by rw [h]; rfl⟩

theorem optimize_stage {s : Stage} (h : (stage .building s input).optimize.2.result = .ok ()) :
    ∃ s' input', s.descend input = ⟨s', input', .ok ()⟩ ∧
      input'.optimize.2.result = .ok () ∧
      (s'.settle input'.optimize.1).2.result = .ok () ∧
      (stage .building s input).optimize.1 =
        stage .settled (s'.settle input'.optimize.1).1 input'.optimize.1 := by
  rw [optimize] at h ⊢
  cases hdown : s.descend input with
  | mk s' input' r =>
    simp only [hdown, if_true] at h ⊢
    cases r with
    | error cause => cases h
    | ok _ =>
      cases hi : input'.optimize.2.result with
      | error cause => simp only [hi] at h; cases h
      | ok _ =>
        simp only [hi, Logged.result_bind, Result.ok_bind] at h
        exact ⟨s', input', rfl, hi, h, by simp only [h]; rfl⟩

theorem optimize_pair {s : Pairing} {left right : Plan}
    (h : (pair .building s left right).optimize.2.result = .ok ()) :
    ∃ s' left' right' notes, s.descend left right = ⟨s', left', right', ⟨notes, .ok ()⟩⟩ ∧
      left'.optimize.2.result = .ok () ∧ right'.optimize.2.result = .ok () ∧
      (s'.settle left'.optimize.1 right'.optimize.1).2.result = .ok () ∧
      (pair .building s left right).optimize.1 =
        pair .settled (s'.settle left'.optimize.1 right'.optimize.1).1 left'.optimize.1
          right'.optimize.1 := by
  rw [optimize] at h ⊢
  cases hdown : s.descend left right with
  | mk s' left' right' outcome =>
    obtain ⟨notes, r⟩ := outcome
    simp only [hdown, if_true] at h ⊢
    cases r with
    | error cause => cases h
    | ok _ =>
      cases hl : left'.optimize.2.result with
      | error cause => simp [hl] at h
      | ok _ =>
        cases hr : right'.optimize.2.result with
        | error cause => simp [hl, hr] at h
        | ok _ =>
          simp only [hl, hr, Logged.result_bind, Result.ok_bind] at h
          exact ⟨s', left', right', notes, rfl, hl, hr, h, by simp only [h]; rfl⟩

/-! ### The way down -/

section
variable {input' : Plan} {s' : Stage} {pushed : Filter} {wanted : Option SortOrder}

theorem descendFilter_eq_ok {e : Expr}
    (h : Stage.descendFilter e pushed input = ⟨s', input', .ok ()⟩) :
    ∃ e', e.bindTo input.columns = .ok e' ∧
      input.addFilter? (Filter.fold (.union [some e', pushed])) = (input', .ok ()) ∧
      s' = .filter e' pushed := by
  unfold Stage.descendFilter at h
  split at h
  · cases h
  · next e' he =>
    obtain ⟨rfl, hi, hr⟩ := StageDescent.mk.inj h
    exact ⟨e', he, Prod.ext hi hr, rfl⟩

theorem descendSort_eq_ok {order : SortOrder} {buffered : Bool}
    (h : Stage.descendSort order buffered wanted input = ⟨s', input', .ok ()⟩) :
    ∃ order', order.bindTo input.columns = .ok order' ∧
      input.addOrder? order'.request = (input', .ok ()) ∧ s' = .sort order' buffered wanted := by
  unfold Stage.descendSort at h
  split at h
  · cases h
  · next order' ho =>
    obtain ⟨rfl, hi, hr⟩ := StageDescent.mk.inj h
    exact ⟨order', ho, Prod.ext hi hr, rfl⟩

theorem descendProject_eq_ok {outputs : List Output} {kept : Filter}
    (h : Stage.descendProject outputs pushed wanted kept input = ⟨s', input', .ok ()⟩) :
    ∃ outputs' moving staying o',
      Stage.bindOutputs input.columns outputs = (outputs', .ok ()) ∧
      Stage.splitProjected outputs' input.columns pushed = .ok (moving, staying) ∧
      wanted.mapM (SortOrder.mapM (Stage.unproject outputs')) = .ok o' ∧
      Handed input moving o' input' ∧ s' = .project outputs' pushed wanted staying := by
  unfold Stage.descendProject at h
  split at h
  · cases h
  · next outputs' hout =>
    split at h
    · cases h
    · next moving staying hsplit =>
      split at h
      · cases h
      · next input₁ hf =>
        unfold Stage.descendProjectOrder at h
        dsimp only at h
        split at h
        · cases h
        · next o' ho =>
          obtain ⟨rfl, hi, hr⟩ := StageDescent.mk.inj h
          exact ⟨outputs', moving, staying, o', hout, hsplit, ho, ⟨_, hf, Prod.ext hi hr⟩, rfl⟩

end

section
variable {left right left' right' : Plan} {s' : Pairing} {notes : List Note}

theorem handFilters_eq_ok {s : Pairing} {fl fr : Filter}
    (h : PairDescent.handFilters s left right fl fr = ⟨s', left', right', ⟨notes, .ok ()⟩⟩) :
    left.addFilter? fl = (left', .ok ()) ∧ right.addFilter? fr = (right', .ok ()) ∧ s' = s := by
  unfold PairDescent.handFilters at h
  split at h
  · cases h
  · next hl =>
    split at h
    · cases h
    · next hr => cases h; exact ⟨hl, hr, rfl⟩

theorem andThen_eq_ok {d : PairDescent} {next : Pairing → Plan → Plan → PairDescent}
    (h : d.andThen next = ⟨s', left', right', ⟨notes, .ok ()⟩⟩) :
    d.outcome.result = .ok () ∧
      ∃ notes', next d.pairing d.left d.right = ⟨s', left', right', ⟨notes', .ok ()⟩⟩ := by
  unfold PairDescent.andThen at h
  split at h
  · next hd => rw [h] at hd; cases hd
  · next hd =>
    refine ⟨hd, ?_⟩
    cases hn : next d.pairing d.left d.right with
    | mk s₁ l₁ r₁ outcome =>
      obtain ⟨notes', r⟩ := outcome
      rw [hn] at h
      cases h
      exact ⟨notes', rfl⟩

theorem descendOrder_eq_ok {j : Join} {strategy : JoinStrategy} (hs : j.strategy = some strategy)
    (hp : j.pending = none)
    (h : j.descendOrder left right = ⟨s', left', right', ⟨notes, .ok ()⟩⟩) :
    ∃ wanted handed pending, Join.Places strategy left.columns right.columns j.wanted wanted handed
        pending ∧
      left.addOrder? handed = (left', .ok ()) ∧ right' = right ∧
      s' = .join { j with wanted, pending } := by
  unfold Join.descendOrder at h
  split at h
  · cases h
  · next hnone =>
    cases h
    rcases Result.optionMapM_eq_ok.1 hnone with ⟨hw, -⟩ | ⟨_, _, _, hw, -⟩
    · exact ⟨none, none, none, by rw [hw]; exact .none, rfl, rfl, by rw [← hp]⟩
    · cases hw
  · next o' hsome =>
    rcases Result.optionMapM_eq_ok.1 hsome with ⟨-, hw⟩ | ⟨o, _, hw, hw', ho⟩
    · cases hw
    cases hw'
    rw [hw]
    dsimp only at h
    split at h
    · next pairs hmerge =>
      cases h
      exact ⟨_, none, _, .merge (by simpa [hs] using hmerge) ho, rfl, rfl, rfl⟩
    · next hne =>
      have hne : ∀ pairs, strategy ≠ .merge pairs := fun pairs heq =>
        hne pairs (by rw [← heq]; exact hs)
      split at h
      · cases h
      · next hr =>
        obtain ⟨rfl, hl, rfl, hres⟩ := PairDescent.mk.inj h
        exact ⟨_, some o', none, .left hne ho hr,
          Prod.ext hl (congrArg Logged.result hres), rfl, by rw [← hp]⟩
      · cases h
        exact ⟨_, none, _, .stays hne ho, rfl, rfl, rfl⟩

theorem descendJoin_eq_ok {condition : Option Expr} {choice : JoinChoice} {pushed : Filter}
    {wanted₀ : Option SortOrder}
    (h : Join.descend { condition, choice, pushed, wanted := wanted₀ } left right =
      ⟨s', left', right', ⟨notes, .ok ()⟩⟩) :
    ∃ condition' d wanted handed pending,
      condition.mapM (Expr.bindTo (left.columns ++ right.columns)) = .ok condition' ∧
      Join.decide { condition := condition', choice, pushed, wanted := wanted₀ } left.columns
        right.columns = .ok d ∧
      Join.Places d.strategy left.columns right.columns wanted₀ wanted handed pending ∧
      Handed (Join.arrangeLeft d.strategy left) d.forLeft handed left' ∧
      Handed (Join.arrangeRight d.strategy right) d.forRight none right' ∧
      s' = .join ⟨condition', choice, pushed, wanted, some d.strategy, pending⟩ := by
  unfold Join.descend at h
  split at h
  · cases h
  · next condition' hcond =>
    unfold Join.descendBound at h
    split at h
    · cases h
    · next d hd =>
      obtain ⟨hok, notes', h⟩ := andThen_eq_ok h
      cases harr : PairDescent.handFilters (.join ⟨condition', choice, pushed, wanted₀,
          some d.strategy, none⟩) (Join.arrangeLeft d.strategy left)
          (Join.arrangeRight d.strategy right) d.forLeft d.forRight with
      | mk s₁ left₁ right₁ outcome =>
        obtain ⟨notes₁, r⟩ := outcome
        simp only [harr] at hok h
        subst hok
        obtain ⟨hfl, hfr, rfl⟩ := handFilters_eq_ok harr
        obtain ⟨wanted, handed, pending, hplaces, hol, rfl, rfl⟩ :=
          descendOrder_eq_ok (j := ⟨condition', choice, pushed, wanted₀, some d.strategy, none⟩)
            rfl rfl h
        have hlcol : left₁.columns = left.columns := by
          rw [columns_addFilter? hfl, columns_arrangeLeft]
        have hrcol : right'.columns = right.columns := by
          rw [columns_addFilter? hfr, columns_arrangeRight]
        rw [hlcol, hrcol] at hplaces
        exact ⟨condition', d, wanted, handed, pending, hcond, hd, hplaces, ⟨_, hfl, hol⟩,
          ⟨_, hfr, rfl⟩, rfl⟩

end

theorem descendUnion_eq_ok {left right left' right' : Plan} {u : Union} {s' : Pairing}
    {notes : List Note} (h : u.descend left right = ⟨s', left', right', ⟨notes, .ok ()⟩⟩) :
    ∃ d, u.decide left.columns right.columns = .ok d ∧
      left.addFilter? d.forLeft = (left', .ok ()) ∧
      right.addFilter? d.forRight = (right', .ok ()) ∧ s' = .union { u with kept := d.kept } := by
  unfold Union.descend at h
  split at h
  · cases h
  · next d hd =>
    obtain ⟨hl, hr, rfl⟩ := handFilters_eq_ok h
    exact ⟨d, hd, hl, hr, rfl⟩

/-! ### The way up -/

theorem settleRename_eq_ok {name : String} {kept : Filter}
    (h : ((Stage.rename name kept none none).settle input).2.result = .ok ()) :
    ∃ left unmet,
      input.residual.rename input.columns (input.columns.map (·.withRelation (some name))) =
        .ok left ∧
      input.unmet.mapM (SortOrder.rename input.columns
        (input.columns.map (·.withRelation (some name)))) = .ok unmet ∧
      ((Stage.rename name kept none none).settle input).1 =
        .rename name kept (.union [kept, left]) unmet := by
  unfold Stage.settle Stage.settleRename at h ⊢
  dsimp only at h ⊢
  split at h
  · cases h
  · next left hleft =>
    split at h
    · cases h
    · next unmet hunmet => exact ⟨left, unmet, hleft, hunmet, rfl⟩

theorem settleUnion_eq_ok {left right : Plan} {u : Union}
    (h : ((Pairing.union u).settle left right).2.result = .ok ()) :
    ∃ l r, left.residual.rename left.columns left.columns = .ok l ∧
      right.residual.rename right.columns left.columns = .ok r ∧
      ((Pairing.union u).settle left right).1 = .union { u with
        reported := .union [l.inter r, u.kept]
        leftLocal := l.diff (l.inter r)
        rightLocal := r.diff (l.inter r) } := by
  unfold Pairing.settle Union.settle at h ⊢
  dsimp only at h ⊢
  split at h
  · cases h
  · next l r hres =>
    obtain ⟨l', hl, hres⟩ := Result.bind_eq_ok.1 hres
    obtain ⟨r', hr, hres⟩ := Result.bind_eq_ok.1 hres
    cases hres
    exact ⟨l, r, hl, hr, rfl⟩

/-- How a union is optimized that was handed a filter and an order. -/
theorem Handed.optimize_union {distinct : Bool} {left right p' : Plan}
    (h : Handed (.union distinct left right) f o p') (hopt : p'.optimize.2.result = .ok ()) :
    ∃ d left₁ right₁ l r,
      Union.decide { distinct, pushed := f.taken, wanted := SortOrder.taken o } left.columns
        right.columns = .ok d ∧
      (left.addFilter? d.forLeft = (left₁, .ok ()) ∧ left₁.optimize.2.result = .ok ()) ∧
      (right.addFilter? d.forRight = (right₁, .ok ()) ∧ right₁.optimize.2.result = .ok ()) ∧
      left₁.optimize.1.residual.rename left₁.optimize.1.columns left₁.optimize.1.columns = .ok l ∧
      right₁.optimize.1.residual.rename right₁.optimize.1.columns left₁.optimize.1.columns = .ok r ∧
      p'.optimize.1 = pair .settled
        (.union ⟨distinct, f.taken, SortOrder.taken o, d.kept, .union [l.inter r, d.kept],
          l.diff (l.inter r), r.diff (l.inter r)⟩) left₁.optimize.1 right₁.optimize.1 := by
  obtain rfl := h.union
  obtain ⟨s', left₁, right₁, notes, hdown, hlok, hrok, hs, heq⟩ := optimize_pair hopt
  obtain ⟨d, hd, hfl, hfr, rfl⟩ := descendUnion_eq_ok hdown
  obtain ⟨l, r, hl, hr, hsettle⟩ := settleUnion_eq_ok hs
  exact ⟨d, left₁, right₁, l, r, hd, ⟨hfl, hlok⟩, ⟨hfr, hrok⟩, hl, hr, by rw [heq, hsettle]⟩

theorem Built.arrangeLeft {strategy : JoinStrategy} (hp : p.Built) :
    (Join.arrangeLeft strategy p).Built := by
  cases strategy with
  | merge pairs => exact .sort _ false hp
  | nestedLoop | hash => exact hp

theorem Built.arrangeRight {strategy : JoinStrategy} (hp : p.Built) :
    (Join.arrangeRight strategy p).Built := by
  cases strategy with
  | merge pairs => exact .sort _ true hp
  | nestedLoop | hash => exact hp

/-- A plan that was put together and has not been handed anything, over data of any kind. -/
inductive Assembled : Plan → Prop
  | read {t : Table} (weights : AccessWeights) (hcol : ∀ row ∈ t.rows, row.columns = t.columns) :
      Assembled (.read t weights)
  | rows {columns : List Column} {rows : List Row} (hcol : ∀ row ∈ rows, row.columns = columns) :
      Assembled (source .building (.rows { columns, rows }))
  | filter (e : Expr) {p : Plan} (hp : Assembled p) : Assembled (p.filter e)
  | sort (o : SortOrder) (buffered : Bool) {p : Plan} (hp : Assembled p) :
      Assembled (stage .building (.sort o buffered none) p)
  | project (outputs : List Output) {p : Plan} (hp : Assembled p) :
      Assembled (stage .building (.project outputs none none none) p)
  | cut (c : Cut) {p : Plan} (hp : Assembled p) : Assembled (stage .building (.cut c none none) p)
  | rename (name : String) {p : Plan} (hp : Assembled p) : Assembled (p.rename name)
  | join (condition : Option Expr) (choice : JoinChoice) {left right : Plan} (hl : Assembled left)
      (hr : Assembled right) : Assembled (.join condition choice left right)
  | union (distinct : Bool) {left right : Plan} (hl : Assembled left) (hr : Assembled right) :
      Assembled (.union distinct left right)

theorem Built.assembled (hp : p.Built) : p.Assembled := by
  induction hp with
  | read weights ht => exact .read weights ht.sound.columns
  | rows hcol => exact .rows hcol
  | filter e _ ih => exact .filter e ih
  | sort o buffered _ ih => exact .sort o buffered ih
  | project outputs _ ih => exact .project outputs ih
  | cut c _ ih => exact .cut c ih
  | rename name _ ih => exact .rename name ih
  | join condition choice _ _ ihl ihr => exact .join condition choice ihl ihr
  | union distinct _ _ ihl ihr => exact .union distinct ihl ihr

theorem Assembled.arrangeLeft {strategy : JoinStrategy} (hp : p.Assembled) :
    (Join.arrangeLeft strategy p).Assembled := by
  cases strategy with
  | merge pairs => exact .sort _ false hp
  | nestedLoop | hash => exact hp

theorem Assembled.arrangeRight {strategy : JoinStrategy} (hp : p.Assembled) :
    (Join.arrangeRight strategy p).Assembled := by
  cases strategy with
  | merge pairs => exact .sort _ true hp
  | nestedLoop | hash => exact hp

/-- Optimization that succeeds follows the rules. -/
theorem Assembled.settles {p' : Plan} (hp : p.Assembled) (h : Handed p f o p')
    (hopt : p'.optimize.2.result = .ok ()) : Settles p f o p'.optimize.1 := by
  -- a join hands filters to inputs that it has sorted, so the induction is on the plan's weight
  induction hn : p.weight using Nat.strongRecOn generalizing p f o p' with
  | _ n ih =>
    subst hn
    cases hp with
    | read weights hcol =>
      obtain ⟨f', o', hf, ho, rfl⟩ := h.table
      obtain ⟨hs, heq⟩ := optimize_source hopt
      rw [heq]
      unfold Source.settle at hs ⊢
      dsimp only at hs ⊢
      split at hs
      · next path hpath => exact .table hcol hf ho hpath
      · cases hs
    | rows hcol =>
      obtain rfl := h.rows
      obtain ⟨hs, heq⟩ := optimize_source hopt
      rw [heq]
      unfold Source.settle at hs ⊢
      dsimp only at hs ⊢
      split at hs
      · next f' hf => exact .rows hcol hf
      · cases hs
    | @filter e input hi =>
      obtain ⟨input₁, hin, rfl⟩ := h.filter
      obtain ⟨s', input', hdown, hok, hs, heq⟩ := optimize_stage hopt
      obtain ⟨e', he, hadd, rfl⟩ := descendFilter_eq_ok hdown
      rw [heq]
      rw [hin.columns] at he
      obtain ⟨_, hnone, hord⟩ := hin
      cases hnone
      exact .filter he (ih _ (by simp [Plan.filter, weight]) hi (.of_order_first hord hadd) hok rfl)
    | @sort order buffered input hi =>
      obtain ⟨input₁, hin, rfl⟩ := h.sort
      obtain ⟨s', input', hdown, hok, hs, heq⟩ := optimize_stage hopt
      obtain ⟨order', ho, hadd, rfl⟩ := descendSort_eq_ok hdown
      rw [heq]
      rw [hin.columns] at ho
      obtain ⟨_, hf, hnone⟩ := hin
      cases hnone
      have hsame : ((Stage.sort order' buffered (SortOrder.taken o)).settle
          input'.optimize.1).1 = .sort order' buffered (SortOrder.taken o) := by
        show (if _ then _ else _ : Stage × Logged Unit).1 = _
        split <;> rfl
      rw [hsame]
      exact .sort ho (ih _ (by simp [weight]) hi ⟨_, hf, hadd⟩ hok rfl)
    | @project outputs input hi =>
      obtain rfl := h.project
      obtain ⟨s', input', hdown, hok, hs, heq⟩ := optimize_stage hopt
      obtain ⟨outputs', moving, staying, o', hout, hsplit, ho, hin, rfl⟩ :=
        descendProject_eq_ok hdown
      rw [heq]
      exact .project hout hsplit ho (ih _ (by simp [weight]) hi hin hok rfl)
    | @cut c input hi =>
      obtain rfl := h.cut
      obtain ⟨s', input', hdown, hok, hs, heq⟩ := optimize_stage hopt
      cases hdown
      rw [heq]
      exact .cut rfl (ih _ (by simp [weight]) hi ⟨_, rfl, rfl⟩ hok rfl)
    | @rename name input hi =>
      obtain ⟨moving, staying, f', o', input₁, hsplit, hf, ho, hin, rfl⟩ := h.rename
      obtain ⟨s', input', hdown, hok, hs, heq⟩ := optimize_stage hopt
      cases hdown
      rw [heq]
      obtain ⟨left, unmet, hleft, hunmet, hsettle⟩ := settleRename_eq_ok hs
      have hset := ih _ (by simp [Plan.rename, weight]) hi hin hok rfl
      rw [hset.columns] at hleft hunmet
      rw [hsettle]
      exact .rename rfl hsplit hf ho hset hleft hunmet
    | @join condition choice left right hl hr =>
      obtain rfl := h.join
      obtain ⟨s', left', right', notes, hdown, hlok, hrok, hs, heq⟩ := optimize_pair hopt
      obtain ⟨condition', d, wanted, handed, pending, hcond, hd, hplaces, hhl, hhr, rfl⟩ :=
        descendJoin_eq_ok hdown
      rw [heq]
      refine .join hcond hd hplaces (ih _ ?_ hl.arrangeLeft hhl hlok rfl)
        (ih _ ?_ hr.arrangeRight hhr hrok rfl)
      · have := Join.weight_arrangeLeft d.strategy left
        simp only [Plan.join, weight]
        omega
      · have := Join.weight_arrangeRight d.strategy right
        simp only [Plan.join, weight]
        omega
    | @union distinct left right hl hr =>
      obtain ⟨d, left', right', l, r, hd, ⟨hfl, hlok⟩, ⟨hfr, hrok⟩, hleft, hright, heq⟩ :=
        h.optimize_union hopt
      have hsl : Settles left d.forLeft none left'.optimize.1 :=
        ih _ (by simp only [Plan.union, weight]; omega) hl ⟨_, hfl, rfl⟩ hlok rfl
      have hsr : Settles right d.forRight none right'.optimize.1 :=
        ih _ (by simp only [Plan.union, weight]; omega) hr ⟨_, hfr, rfl⟩ hrok rfl
      rw [hsl.columns] at hleft hright
      rw [hsr.columns] at hright
      rw [heq]
      exact .union hd hsl hsr hleft hright

theorem Assembled.settles_alone (hp : p.Assembled) (hopt : p.optimize.2.result = .ok ()) :
    Settles p none none p.optimize.1 := hp.settles ⟨p, rfl, rfl⟩ hopt

theorem Built.settles {p' : Plan} (hp : p.Built) (h : Handed p f o p')
    (hopt : p'.optimize.2.result = .ok ()) : Settles p f o p'.optimize.1 :=
  hp.assembled.settles h hopt

end Plan

end RelPlan

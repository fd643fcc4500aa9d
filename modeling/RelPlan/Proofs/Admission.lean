import RelPlan.Proofs.FilterSets
import RelPlan.Proofs.Moving

/-!
# What a filter that was handed down decides

A filter moved between inputs of a union can end up with names that are ambiguous where it stands.
Evaluation fails on them, unless it never comes to them, so such a filter decides no more than what
it says under every meaning of those names.  A filter admits a condition on a row if it passes
nothing else, and may pass wherever the condition holds (`Filter.Admits`).  Folding, uniting and
splitting filters keep this, and an evaluation that succeeds decides the condition
(`Filter.Admits.decides`).
-/

namespace RelPlan

variable {columns source target : List Column} {outer env : Env} {cells : List (Option Value)}
  {r : ColumnRef} {e e' c : Expr} {x y : Option Value} {f g : Filter} {p q : Prop}
  {m : ColumnRef → Option Value → Prop} {cs moving staying : List Expr}

/-- What a reference may mean: a cell of any column that answers it, and what it is worth outside if
none does. -/
def mayMean (columns : List Column) (outer : Env) (cells : List (Option Value)) (r : ColumnRef)
    (x : Option Value) : Prop :=
  (∃ (i : Nat) (c : Column), columns[i]? = some c ∧ c.answers r ∧ x = cells[i]?.join) ∨
    (resolve columns r = .ok none ∧ x = outer r)

theorem mayMean_iff {o : Option Nat} (h : resolve columns r = .ok o) :
    mayMean columns outer cells r x ↔ x = cellsEnv columns outer cells r := by
  unfold mayMean
  cases o with
  | none =>
    have hno (i : Nat) (c : Column) (hc : columns[i]? = some c) : ¬ c.answers r :=
      resolve_eq_none_iff.1 h c (List.mem_of_getElem? hc)
    rw [cellsEnv_none h]
    constructor
    · rintro (⟨i, c, hc, hr, -⟩ | ⟨-, hx⟩)
      exacts [absurd hr (hno i c hc), hx]
    · exact fun hx => .inr ⟨h, hx⟩
  | some i =>
    obtain ⟨⟨c, hc, hr⟩, huniq⟩ := resolve_eq_some_iff.1 h
    rw [cellsEnv_some h]
    constructor
    · rintro (⟨j, d, hd, hans, rfl⟩ | ⟨hnone, -⟩)
      · rw [huniq j d hd hans]
      · simp [h] at hnone
    · exact fun hx => .inl ⟨i, c, hc, hr, hx⟩

theorem exists_mayMean (columns : List Column) (outer : Env) (cells : List (Option Value))
    (r : ColumnRef) : ∃ x, mayMean columns outer cells r x := by
  by_cases h : resolve columns r = .ok none
  · exact ⟨outer r, .inr ⟨h, rfl⟩⟩
  · simp only [resolve_eq_none_iff, not_forall, not_not] at h
    obtain ⟨c, hc, hr⟩ := h
    obtain ⟨i, hi⟩ := List.mem_iff_getElem?.1 hc
    exact ⟨_, .inl ⟨i, c, hi, hr, rfl⟩⟩

theorem eq_of_mayMean {v : Value} (h : cellsEnv columns outer cells r = some v)
    (hx : mayMean columns outer cells r x) : x = some v := by
  cases hr : resolve columns r with
  | error cause => simp [cellsEnv, hr] at h
  | ok o => rw [(mayMean_iff hr).1 hx, h]

namespace Expr

/-- What an expression may be worth if each of its references may mean several things, and need not
mean the same wherever it occurs. -/
def MayBe (m : ColumnRef → Option Value → Prop) : Expr → Option Value → Prop
  | const v, x => x = some v
  | ref r, x => m r x
  | unary op e, x => ∃ a, e.MayBe m a ∧ op.combine a = x
  | binary op l r, x => ∃ a b, l.MayBe m a ∧ r.MayBe m b ∧ op.combine a b = x

/-- The expression may be worth truth. -/
def MayPass (m : ColumnRef → Option Value → Prop) (e : Expr) : Prop := e.MayBe m (some (.bool true))

theorem mayBe_iff (h : ∀ r ∈ e.refs, ∀ x, m r x ↔ x = env r) : e.MayBe m x ↔ x = e.worth env := by
  induction e generalizing x with
  | const v => exact Iff.rfl
  | ref r => exact h r (by simp [refs]) x
  | unary op a ih =>
    simp only [MayBe, ih h, exists_eq_left, worth_unary]
    exact eq_comm
  | binary op a b iha ihb =>
    simp only [refs, List.mem_append] at h
    simp only [MayBe, iha fun r hr => h r (.inl hr), ihb fun r hr => h r (.inr hr), worth_binary,
      ← and_assoc]
    constructor
    · rintro ⟨_, _, ⟨rfl, rfl⟩, rfl⟩; rfl
    · rintro rfl; exact ⟨_, _, ⟨rfl, rfl⟩, rfl⟩

/-- What evaluation can tell is what the expression is worth under all meanings. -/
theorem eq_of_mayBe (hm : ∀ r v x, env r = some v → m r x → x = some v) (hx : e.MayBe m x)
    {v : Value} (hv : e.worth env = some v) : x = some v := by
  induction e generalizing x v with
  | const w => cases hx; exact hv
  | ref r => exact hm r v x hv hx
  | unary op a ih =>
    obtain ⟨y, hy, rfl⟩ := hx
    rw [worth_unary] at hv
    exact op.combine_mono (fun w hw => ih hy hw) hv
  | binary op a b iha ihb =>
    obtain ⟨y, z, hy, hz, rfl⟩ := hx
    rw [worth_binary] at hv
    exact op.combine_mono (fun w hw => iha hy hw) (fun w hw => ihb hz hw) hv

theorem exists_mayBe (hm : ∀ r, ∃ x, m r x) (e : Expr) : ∃ x, e.MayBe m x := by
  induction e with
  | const v => exact ⟨_, rfl⟩
  | ref r => exact hm r
  | unary op a ih => exact ih.imp' op.combine fun x hx => ⟨x, hx, rfl⟩
  | binary op a b iha ihb =>
    obtain ⟨x, hx⟩ := iha
    obtain ⟨y, hy⟩ := ihb
    exact ⟨_, x, y, hx, hy, rfl⟩

theorem Passes.mayPass (h : e.Passes (cellsEnv columns outer cells)) :
    e.MayPass (mayMean columns outer cells) := by
  obtain ⟨x, hx⟩ := e.exists_mayBe (exists_mayMean columns outer cells)
  obtain rfl := eq_of_mayBe (fun r v x hv hx => eq_of_mayMean hv hx) hx h
  exact hx

theorem mayPass_iff_conjuncts : e.MayPass m ↔ ∀ c ∈ e.conjuncts, c.MayPass m := by
  fun_induction conjuncts e with
  | case1 l r ihl ihr =>
    have hand : (binary .and l r).MayPass m ↔ l.MayPass m ∧ r.MayPass m := by
      constructor
      · rintro ⟨a, b, ha, hb, h⟩
        obtain ⟨rfl, rfl⟩ := worthAnd_eq_true.1 h
        exact ⟨ha, hb⟩
      · exact fun h => ⟨_, _, h.1, h.2, rfl⟩
    simp [hand, ihl, ihr, or_imp, forall_and]
  | case2 e hne => simp

theorem mayBe_subst {s : ColumnRef → Result Expr} (h : e.subst s = .ok e')
    (hm : ∀ r ∈ e.refs, ∀ d, s r = .ok d → d.MayBe m (env r)) : e'.MayBe m (e.worth env) := by
  induction e generalizing e' with
  | const v => cases h; rfl
  | ref r => exact hm r (by simp [refs]) e' h
  | unary op a ih =>
    obtain ⟨a', ha, h⟩ := Result.bind_eq_ok.1 h
    cases h
    exact ⟨_, ih ha hm, (worth_unary ..).symm⟩
  | binary op a b iha ihb =>
    simp only [refs, List.mem_append] at hm
    obtain ⟨a', ha, h⟩ := Result.bind_eq_ok.1 h
    obtain ⟨b', hb, h⟩ := Result.bind_eq_ok.1 h
    cases h
    exact ⟨_, _, iha ha fun r hr => hm r (.inl hr), ihb hb fun r hr => hm r (.inr hr),
      (worth_binary ..).symm⟩

/-- The new name of a reference may still mean the column that the reference means. -/
theorem Movable.mayBe_rename (hm : e.Movable source target) (hlen : source.length = target.length)
    (h : e.rename source target = .ok e') :
    e'.MayBe (mayMean target outer cells) (e.worth (cellsEnv source outer cells)) := by
  refine mayBe_subst h fun r hr d hd => ?_
  rcases hm r hr with ⟨i, hi⟩ | ⟨hs, ht⟩
  · obtain ⟨c, hc⟩ : ∃ c, target[i]? = some c :=
      ⟨_, List.getElem?_eq_getElem (hlen ▸ lt_of_resolve hi)⟩
    obtain rfl : ref c.ref = d := by simpa [renameRef, hi, hc] using hd
    exact Or.inl ⟨i, c, hc, answers_ref c, cellsEnv_some hi⟩
  · obtain rfl : ref r = d := by simpa [renameRef, hs] using hd
    exact Or.inr ⟨ht, cellsEnv_none hs⟩

theorem mayBe_foldConst (hr : e.refs = []) (hx : e.MayBe m x) : e.foldConst.MayBe m x := by
  have hworth (d : Expr) (hd : d.refs = []) (y : Option Value) :
      d.MayBe m y ↔ y = d.worth fun _ => none :=
    mayBe_iff (by simp [hd])
  have hfold := worth_foldConst (fun _ => none) e
  unfold foldConst at hfold ⊢
  split
  · next v heq =>
    simp only [heq] at hfold
    rw [(hworth e hr x).1 hx, ← hfold]
    rfl
  · exact hx

theorem mayBe_foldUnary {op : UnaryOp} (hx : (unary op e).MayBe m x) :
    (foldUnary op e).MayBe m x := by
  unfold foldUnary
  split
  · next hconst =>
    obtain ⟨v, rfl⟩ := eq_const_of_isConst hconst
    exact mayBe_foldConst rfl hx
  · exact hx

theorem mayBe_foldBinary {op : BinaryOp} {l r : Expr} (hx : (binary op l r).MayBe m x) :
    (foldBinary op l r).MayBe m x := by
  have hfolded : (if l.isConst && r.isConst then (binary op l r).foldConst
      else binary op l r).MayBe m x := by
    split
    · next hconst =>
      obtain ⟨hl, hr⟩ := (Bool.and_eq_true ..).mp hconst
      obtain ⟨v, rfl⟩ := eq_const_of_isConst hl
      obtain ⟨w, rfl⟩ := eq_const_of_isConst hr
      exact mayBe_foldConst rfl hx
    · exact hx
  unfold foldBinary
  generalize (if l.isConst && r.isConst then (binary op l r).foldConst else binary op l r) = folded
    at hfolded ⊢
  cases op with
  | cmp | arith | distinct => exact hfolded
  | and | or =>
    obtain ⟨a, b, ha, hb, rfl⟩ := hx
    have htruth {d : Expr} {t : Bool} {y : Option Value} (hd : d.isTruth t) (hy : d.MayBe m y) :
        y = some (.bool t) := by
      rw [eq_of_isTruth hd] at hy
      exact hy
    dsimp only
    split
    · next h =>
      rcases (Bool.or_eq_true ..).mp h with h | h
      · rw [htruth h ha]; rfl
      · rw [htruth h hb]
        simp [MayBe, BinaryOp.combine, worthAnd_comm a, worthOr_comm a]
    · split
      · next h => rw [htruth h ha]; simpa [BinaryOp.combine] using hb
      · split
        · next h =>
          rw [htruth h hb]
          simpa [BinaryOp.combine, worthAnd_comm a, worthOr_comm a] using ha
        · exact hfolded

theorem mayBe_fold (hx : e.MayBe m x) : e.fold.MayBe m x := by
  induction e generalizing x with
  | const | ref => exact hx
  | unary op e ih =>
    obtain ⟨a, ha, rfl⟩ := hx
    exact mayBe_foldUnary ⟨a, ih ha, rfl⟩
  | binary op l r ihl ihr =>
    obtain ⟨a, b, ha, hb, rfl⟩ := hx
    exact mayBe_foldBinary ⟨a, b, ihl ha, ihr hb, rfl⟩

/-- Names that are not ambiguous have one meaning. -/
theorem Clear.mayPass_iff (h : e.Clear columns) :
    e.MayPass (mayMean columns outer cells) ↔ e.Passes (cellsEnv columns outer cells) := by
  rw [MayPass, mayBe_iff, Passes, eq_comm]
  intro r hr x
  obtain ⟨o, ho⟩ := h r hr
  exact mayMean_iff ho

end Expr

namespace Filter

/-- No reference of the filter is ambiguous. -/
def Clear (columns : List Column) (f : Filter) : Prop :=
  f.RefsIn fun r => ∃ o, resolve columns r = .ok o

/-- The filter may be worth truth. -/
def MayPass (m : ColumnRef → Option Value → Prop) (f : Filter) : Prop := ∀ e ∈ f, e.MayPass m

theorem Clear.mayPass_iff (h : f.Clear columns) :
    f.MayPass (mayMean columns outer cells) ↔ f.Passes (cellsEnv columns outer cells) :=
  forall₂_congr fun e he => Expr.Clear.mayPass_iff (h e he)

theorem mayPass_ofList : (ofList cs).MayPass m ↔ ∀ c ∈ cs, c.MayPass m :=
  forall_ofList fun _ => Expr.mayPass_iff_conjuncts

theorem MayPass.conjuncts (h : f.MayPass m) : ∀ c ∈ f.conjuncts, c.MayPass m := by
  intro c hc
  obtain ⟨e, he, hc⟩ := mem_conjuncts hc
  exact Expr.mayPass_iff_conjuncts.1 (h e he) c hc

theorem MayPass.fold (h : f.MayPass m) : (fold f).MayPass m := by
  cases f with
  | none => exact h
  | some e =>
    have := Expr.mayBe_fold (h e rfl)
    unfold Filter.fold
    split
    · simp [MayPass]
    · intro d hd
      cases hd
      exact this

/-- What a filter shares with one that may pass does pass, if its names are not ambiguous. -/
theorem MayPass.inter (hclear : f.Clear columns) (h : g.MayPass (mayMean columns outer cells)) :
    (f.inter g).Passes (cellsEnv columns outer cells) := by
  refine passes_ofList.2 fun c hc => ?_
  obtain ⟨hc, hcont⟩ := List.mem_filter.1 hc
  obtain ⟨d, hd, hdc⟩ := contains_iff.1 hcont
  have hdclear : d.Clear columns := fun r hr =>
    hclear.conjuncts c hc r ((Expr.mem_refs_of_equiv hdc).1 hr)
  exact (Expr.passes_iff_of_equiv hdc).1 (hdclear.mayPass_iff.1 (h.conjuncts d hd))

/-- On the given cells the filter passes only if the condition holds, and it may pass if it does. -/
structure Admits (columns : List Column) (outer : Env) (cells : List (Option Value)) (f : Filter)
    (p : Prop) : Prop where
  sound : f.Passes (cellsEnv columns outer cells) → p
  complete : p → f.MayPass (mayMean columns outer cells)

namespace Admits

theorem passes (columns : List Column) (outer : Env) (cells : List (Option Value)) (f : Filter) :
    Admits columns outer cells f (f.Passes (cellsEnv columns outer cells)) :=
  ⟨id, fun h e he => (h e he).mayPass⟩

theorem iff (h : Admits columns outer cells f p) (hf : f.Clear columns) :
    p ↔ f.Passes (cellsEnv columns outer cells) :=
  ⟨fun hp => hf.mayPass_iff.1 (h.complete hp), h.sound⟩

theorem congr (h : Admits columns outer cells f p) (hpq : p ↔ q) :
    Admits columns outer cells f q :=
  ⟨fun hf => hpq.1 (h.sound hf), fun hq => h.complete (hpq.2 hq)⟩

theorem none (hp : p) : Admits columns outer cells none p := ⟨fun _ => hp, by simp [MayPass]⟩

theorem fold (h : Admits columns outer cells f p) : Admits columns outer cells (fold f) p :=
  ⟨fun hf => h.sound (passes_fold.1 hf), fun hp => (h.complete hp).fold⟩

/-- The second filter need only admit its condition where the first one holds. -/
theorem union (h : Admits columns outer cells f p) (h' : p → Admits columns outer cells g q) :
    Admits columns outer cells (union [f, g]) (p ∧ q) := by
  refine ⟨fun hu => ?_, fun ⟨hp, hq⟩ => ?_⟩
  · rw [passes_union] at hu
    have hp := h.sound (hu f (by simp))
    exact ⟨hp, (h' hp).sound (hu g (by simp))⟩
  · refine forall_union (fun _ => Expr.mayPass_iff_conjuncts) fun k hk => ?_
    simp only [List.mem_cons, List.not_mem_nil, or_false] at hk
    rcases hk with rfl | rfl
    exacts [h.complete hp, (h' hp).complete hq]

theorem push (h : Admits columns outer cells f p) :
    Admits columns outer cells (Filter.union [.none, f]) p :=
  (union (none trivial) fun _ => h).congr (and_iff_right trivial)

/-- Of a filter that is split the part without ambiguous names decides itself. -/
theorem iff_of_split (h : Admits columns outer cells f p)
    (hsplit : ∀ c, c ∈ f.conjuncts ↔ c ∈ moving ∨ c ∈ staying)
    (hclear : ∀ c ∈ moving, c.Clear columns) :
    p ↔ (ofList moving).Passes (cellsEnv columns outer cells) ∧
      ((ofList staying).Passes (cellsEnv columns outer cells) ∨ p) := by
  constructor
  · intro hp
    refine ⟨passes_ofList.2 fun c hc => ?_, .inr hp⟩
    exact (hclear c hc).mayPass_iff.1 ((h.complete hp).conjuncts c ((hsplit c).2 (.inl hc)))
  · rintro ⟨hm, hs | hp⟩
    · refine h.sound (passes_iff_conjuncts.2 fun c hc => ?_)
      rcases (hsplit c).1 hc with hc | hc
      exacts [passes_ofList.1 hm c hc, passes_ofList.1 hs c hc]
    · exact hp

theorem of_split (h : Admits columns outer cells f p) (hsub : ∀ c ∈ staying, c ∈ f.conjuncts) :
    Admits columns outer cells (ofList staying)
      ((ofList staying).Passes (cellsEnv columns outer cells) ∨ p) := by
  refine ⟨.inl, fun hp => mayPass_ofList.2 fun c hc => ?_⟩
  rcases hp with hs | hp
  · exact (passes_ofList.1 hs c hc).mayPass
  · exact (h.complete hp).conjuncts c (hsub c hc)

/-- An evaluation that succeeds decides the condition. -/
theorem decides {scope : Scope} {row : Row} {b : Bool}
    (h : Admits row.columns scope.env (row.values.map some) (some e) p)
    (hb : e.holds scope row = .ok b) : p ↔ b = true := by
  rw [← Expr.passes_iff_of_holds hb, row.env_eq]
  refine ⟨fun hp => ?_, fun hpass => h.sound (passes_some.2 hpass)⟩
  obtain ⟨v, hv, -⟩ := Result.bind_eq_ok.1 hb
  have hworth := Expr.worth_of_evalRow hv
  rw [row.env_eq] at hworth
  have hv := Expr.eq_of_mayBe (fun r w x hw hx => eq_of_mayMean hw hx) (h.complete hp e rfl) hworth
  rw [Expr.Passes, hworth, hv]

end Admits

/-! ### Moving filters -/

theorem clear_of_rename (h : f.rename source target = .ok g) : f.Clear source := by
  rcases Result.optionMapM_eq_ok.1 h with ⟨rfl, -⟩ | ⟨e, e', rfl, -, he⟩
  · exact refsIn_none
  · intro d hd
    cases hd
    exact Expr.clear_of_rename he

section
variable (hf : f.RefsIn (Faithful source target)) (h : f.rename source target = .ok g)
include hf h

/-- A faithfully renamed filter passes where the filter does. -/
theorem passes_rename : g.Passes (cellsEnv target outer cells) ↔
    f.Passes (cellsEnv source outer cells) := by
  rcases Result.optionMapM_eq_ok.1 h with ⟨rfl, rfl⟩ | ⟨e, e', rfl, rfl, he⟩
  · simp
  · rw [passes_some, passes_some, Expr.Passes, Expr.worth_rename he (hf e rfl), Expr.Passes]

theorem clear_rename : g.Clear target := by
  rcases Result.optionMapM_eq_ok.1 h with ⟨rfl, rfl⟩ | ⟨e, e', rfl, rfl, he⟩
  · exact refsIn_none
  · intro d hd r' hr'
    cases hd
    obtain ⟨r, hr, e₀, he₀, hr'⟩ := Expr.mem_refs_of_subst he hr'
    rcases (hf e rfl r hr).back he₀ hr' with ⟨i, _, hi, -, -⟩ | ⟨hi, -⟩
    exacts [⟨_, hi⟩, ⟨_, hi⟩]

theorem Admits.rename (hadm : Admits source outer cells f p) : Admits target outer cells g p := by
  refine (Admits.passes ..).congr ?_
  rw [passes_rename hf h]
  exact (hadm.iff (clear_of_rename h)).symm

end

theorem faithful_of_qualify (h : f.qualify columns = .ok g) :
    f.RefsIn (Faithful columns columns) := fun e he r hr =>
  (clear_of_rename h e he r hr).elim fun _ ho => .of_resolve ho

theorem admits_rename (h : f.rename source target = .ok g)
    (hm : ∀ e ∈ f, e.Movable source target) (hlen : source.length = target.length) :
    Admits target outer cells g (f.Passes (cellsEnv source outer cells)) := by
  rcases Result.optionMapM_eq_ok.1 h with ⟨rfl, rfl⟩ | ⟨e, e', rfl, rfl, he⟩
  · exact .none passes_none
  · have hm := hm e rfl
    refine ⟨fun hp => passes_some.2 (Expr.worth_rename_le he hm hlen (passes_some.1 hp)), ?_⟩
    intro hp d hd
    cases hd
    have hmay : e'.MayBe (mayMean target outer cells) (e.worth (cellsEnv source outer cells)) :=
      hm.mayBe_rename hlen he
    rw [passes_some.1 hp] at hmay
    exact hmay

theorem partCaptured_spec (h : partCaptured source target cs = .ok (moving, staying)) :
    (∀ c, c ∈ cs ↔ c ∈ moving ∨ c ∈ staying) ∧ ∀ c ∈ moving, c.Movable source target := by
  induction cs generalizing moving staying with
  | nil => cases h; simp
  | cons e es ih =>
    obtain ⟨captured, hcap, h⟩ := Result.bind_eq_ok.1 h
    obtain ⟨⟨m, s⟩, hrest, h⟩ := Result.bind_eq_ok.1 h
    obtain ⟨hmem, hmov⟩ := ih hrest
    cases captured
    · cases h
      refine ⟨fun c => ?_, List.forall_mem_cons.2 ⟨Expr.capturesOuter_eq_false.1 hcap, hmov⟩⟩
      rw [List.mem_cons, List.mem_cons, hmem, or_assoc]
    · cases h
      refine ⟨fun c => ?_, hmov⟩
      rw [List.mem_cons, List.mem_cons, hmem, or_left_comm]

theorem splitCaptured_spec (h : splitCaptured source target e = .ok (f, g)) :
    ∃ moving staying, f = ofList moving ∧ g = ofList staying ∧
      (∀ c, c ∈ conjuncts (some e) ↔ c ∈ moving ∨ c ∈ staying) ∧
      ∀ c ∈ moving, c.Movable source target := by
  obtain ⟨⟨moving, staying⟩, hpart, h⟩ := Result.bind_eq_ok.1 h
  cases h
  exact ⟨moving, staying, rfl, rfl, partCaptured_spec hpart⟩

end Filter

theorem Union.partConjuncts_cons (source target : List Column) (e : Expr) (es : List Expr) :
    partConjuncts source target (e :: es) =
      e.capturesOuter source source >>= fun own =>
      (if own then .ok true else e.capturesOuter source target) >>= fun captured =>
      partConjuncts source target es >>= fun parts =>
      .ok (if captured then (parts.1, e :: parts.2) else (e :: parts.1, parts.2)) := by
  rw [partConjuncts]
  rcases e.capturesOuter source source with _ | (_ | _) <;> rfl

/-- The parts of a filter handed to a union are its conjuncts, and what moves can move to either
input. -/
theorem Union.partConjuncts_spec (h : partConjuncts source target cs = .ok (moving, staying)) :
    (∀ c, c ∈ cs ↔ c ∈ moving ∨ c ∈ staying) ∧
      ∀ c ∈ moving, c.Movable source source ∧ c.Movable source target := by
  induction cs generalizing moving staying with
  | nil => cases h; simp
  | cons e es ih =>
    rw [partConjuncts_cons] at h
    obtain ⟨own, hown, h₁⟩ := Result.bind_eq_ok.1 h
    obtain ⟨captured, hcap, h₂⟩ := Result.bind_eq_ok.1 h₁
    obtain ⟨⟨m, s⟩, hrest, hparts⟩ := Result.bind_eq_ok.1 h₂
    obtain ⟨hmem, hmov⟩ := ih hrest
    cases captured
    · cases own
      · cases hparts
        refine ⟨fun c => ?_, List.forall_mem_cons.2 ⟨⟨Expr.capturesOuter_eq_false.1 hown,
          Expr.capturesOuter_eq_false.1 hcap⟩, hmov⟩⟩
        rw [List.mem_cons, List.mem_cons, hmem, or_assoc]
      · cases hcap
    · cases hparts
      refine ⟨fun c => ?_, hmov⟩
      rw [List.mem_cons, List.mem_cons, hmem, or_left_comm]

end RelPlan

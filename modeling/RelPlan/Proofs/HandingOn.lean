import RelPlan.Proofs.Admission
import RelPlan.Proofs.Handed

/-!
# What a node hands on

The filters that a node hands to its inputs are made of the conjuncts it was handed and of its own
predicates, put under other names.  A projection puts the expressions of its outputs in the place of
references to them, which keeps the worth (`Stage.worth_unproject`); a join parts its conjuncts by
the inputs they read (`Join.decide_spec`), and a union by whether both inputs can take them
(`Union.decide_spec`).
-/

namespace RelPlan

variable {columns input left right : List Column} {e e' c : Expr} {f g moving kept : Filter}
  {outer outer' : Env} {cells : List (Option Value)} {r : ColumnRef} {G : ColumnRef → Prop}
  {outputs outputs' : List Output} {cs : List Expr}

namespace Filter

theorem isExact_taken (h : f.IsExact) : f.taken.IsExact := isExact_union (by simp [h])

theorem RefsIn.taken (h : f.RefsIn G) : f.taken.RefsIn G := refsIn_union (by simp [h])

theorem split_spec {own child : List Column} (h : f.split own child = .ok (moving, kept)) :
    ∃ ms ss, moving = ofList ms ∧ kept = ofList ss ∧
      (∀ c, c ∈ f.conjuncts ↔ c ∈ ms ∨ c ∈ ss) ∧ ∀ c ∈ ms, c.Movable own child := by
  cases f with
  | none => cases h; exact ⟨[], [], rfl, rfl, by simp [conjuncts], by simp⟩
  | some e => exact splitCaptured_spec h

theorem movable_ofList {own child : List Column} (h : ∀ c ∈ cs, c.Movable own child) :
    ∀ e ∈ ofList cs, e.Movable own child :=
  (forall_ofList fun _ => Expr.refsIn_iff_conjuncts).2 h

theorem isExact_rename {source target : List Column} (hf : f.IsExact)
    (h : f.rename source target = .ok g) : g.IsExact := by
  rcases Result.optionMapM_eq_ok.1 h with ⟨rfl, rfl⟩ | ⟨e, e', rfl, rfl, he⟩
  · exact hf
  · exact isExact_some.2 (Expr.isExact_of_rename (isExact_some.1 hf) he)

theorem refsIn_rename {source target : List Column} {G' : ColumnRef → Prop}
    (hG : ∀ r, G r → ∀ e, renameRef source target r = .ok e → e.RefsIn G') (hf : f.RefsIn G)
    (h : f.rename source target = .ok g) : g.RefsIn G' := by
  rcases Result.optionMapM_eq_ok.1 h with ⟨rfl, rfl⟩ | ⟨e, e', rfl, rfl, he⟩
  · exact refsIn_none
  · intro d hd r' hr'
    cases hd
    obtain ⟨r, hr, e₀, he₀, hr'⟩ := Expr.mem_refs_of_subst he hr'
    exact hG r (hf e rfl r hr) e₀ he₀ r' hr'

end Filter

/-- A bound expression reads the columns alone and is worth what the expression is. -/
theorem Expr.bindTo_spec (h : e.bindTo columns = .ok e') :
    e.Bound columns ∧ e'.Bound columns ∧ (e.isExact → e'.isExact) ∧
      ∀ outer cells, e'.worth (cellsEnv columns outer cells) =
        e.worth (cellsEnv columns outer cells) := by
  obtain ⟨_, hv, hq⟩ := Result.bind_eq_ok.1 h
  have hb := bound_of_validate hv
  refine ⟨hb, fun r' hr' => ?_, fun he => isExact_of_rename he hq, fun _ _ => worth_qualify hq⟩
  obtain ⟨r, hr, e₀, he₀, hr'⟩ := mem_refs_of_subst hq hr'
  obtain ⟨i, hi⟩ := hb r hr
  obtain ⟨d, hd, -⟩ := exists_of_resolve hi
  have he₀ : Expr.ref d.ref = e₀ := by simpa [renameRef, hi, hd] using he₀
  obtain rfl : r' = d.ref := by simpa [← he₀, refs] using hr'
  exact ⟨i, resolve_ref hi hd⟩

theorem Filter.bindTo_spec (h : f.mapM (Expr.bindTo columns) = .ok g) :
    (∀ e ∈ g, e.Bound columns) ∧ (f.IsExact → g.IsExact) ∧ ∀ outer outer' cells,
      g.Passes (cellsEnv columns outer cells) ↔ f.Passes (cellsEnv columns outer' cells) := by
  rcases Result.optionMapM_eq_ok.1 h with ⟨rfl, rfl⟩ | ⟨e, e', rfl, rfl, he⟩
  · exact ⟨by simp, id, by simp⟩
  · obtain ⟨hbound, hbound', hexact, hworth⟩ := Expr.bindTo_spec he
    refine ⟨fun d hd => ?_, by simpa using hexact, fun outer outer' cells => ?_⟩
    · cases hd
      exact hbound'
    · rw [passes_some, passes_some, Expr.Passes, hworth, hbound.worth_eq outer outer', Expr.Passes]

namespace Stage

theorem bindOutputs_eq_ok (h : bindOutputs input outputs = (outputs', .ok ())) :
    List.Forall₂ (fun out out' => out'.column = out.column ∧
      out.expr.bindTo input = .ok out'.expr) outputs outputs' := by
  induction outputs generalizing outputs' with
  | nil => cases h; exact .nil
  | cons out outs ih =>
    rw [bindOutputs] at h
    split at h
    · cases h
    · next e he =>
      obtain ⟨rfl, hr⟩ := Prod.mk.inj h
      exact .cons ⟨rfl, he⟩ (ih (Prod.ext rfl hr))

theorem bound_of_bindOutputs (h : bindOutputs input outputs = (outputs', .ok ())) :
    ∀ out ∈ outputs', out.expr.Bound input := by
  intro out hout
  obtain ⟨out₀, -, -, he⟩ := exists_of_forall₂ (bindOutputs_eq_ok h) hout
  exact (Expr.bindTo_spec he).2.1

theorem isExact_bindOutputs (ho : ∀ out ∈ outputs, out.expr.isExact)
    (h : bindOutputs input outputs = (outputs', .ok ())) : ∀ out ∈ outputs', out.expr.isExact := by
  intro out hout
  obtain ⟨out₀, hout₀, -, he⟩ := exists_of_forall₂ (bindOutputs_eq_ok h) hout
  exact (Expr.bindTo_spec he).2.2.1 (ho out₀ hout₀)

/-! ### Projections -/

theorem splitProjected_spec (h : splitProjected outputs input f = .ok (moving, kept)) :
    ∃ ms ss, (Filter.ofList ms).mapM (unproject outputs) = .ok moving ∧ kept = Filter.ofList ss ∧
      (∀ c, c ∈ f.conjuncts ↔ c ∈ ms ∨ c ∈ ss) ∧
      ∀ c ∈ ms, c.Movable (outputs.map Output.column) input := by
  unfold splitProjected at h
  split at h
  · cases h
    exact ⟨[], [], rfl, rfl, by simp [Filter.conjuncts], by simp⟩
  · next e =>
    obtain ⟨⟨m, s⟩, hsplit, h⟩ := Result.bind_eq_ok.1 h
    obtain ⟨m', hm, h⟩ := Result.bind_eq_ok.1 h
    cases h
    obtain ⟨ms, ss, rfl, rfl, hmem, hmov⟩ := Filter.splitCaptured_spec hsplit
    exact ⟨ms, ss, hm, rfl, hmem, hmov⟩

theorem outputExpr_eq_ok (h : outputExpr outputs r = .ok e) :
    (∃ i out, resolve (outputs.map Output.column) r = .ok (some i) ∧ outputs[i]? = some out ∧
      e = out.expr) ∨
    (resolve (outputs.map Output.column) r = .ok none ∧ e = .ref r) := by
  obtain ⟨o, ho, h⟩ := Result.bind_eq_ok.1 h
  match o, h with
  | none, h => cases h; exact .inr ⟨ho, rfl⟩
  | some i, h =>
    have hi : i < outputs.length := by simpa using lt_of_resolve ho
    simp only [List.getElem?_eq_getElem hi, Option.map_some, Option.getD_some, Result.pure_eq,
      Except.ok.injEq] at h
    exact .inl ⟨i, outputs[i], ho, List.getElem?_eq_getElem hi, h.symm⟩

theorem isExact_unproject (ho : ∀ out ∈ outputs, out.expr.isExact) (he : e.isExact)
    (h : unproject outputs e = .ok e') : e'.isExact := by
  refine Expr.isExact_of_subst he (fun r e₀ hr => ?_) h
  rcases outputExpr_eq_ok hr with ⟨i, out, -, hout, rfl⟩ | ⟨-, rfl⟩
  · exact ho out (List.mem_of_getElem? hout)
  · rfl

/-- What references become on the way through a projection: what its outputs read, or nothing. -/
theorem refsIn_unproject (hb : ∀ out ∈ outputs, out.expr.Bound input)
    (hm : e.Movable (outputs.map Output.column) input) (h : unproject outputs e = .ok e') :
    ∀ r' ∈ e'.refs, (∃ i, resolve input r' = .ok (some i)) ∨
      (r' ∈ e.refs ∧ resolve (outputs.map Output.column) r' = .ok none ∧
        resolve input r' = .ok none) := by
  intro r' hr'
  obtain ⟨r, hr, e₀, he₀, hr'⟩ := Expr.mem_refs_of_subst h hr'
  rcases outputExpr_eq_ok he₀ with ⟨i, out, -, hout, rfl⟩ | ⟨hnone, rfl⟩
  · exact .inl (hb out (List.mem_of_getElem? hout) r' hr')
  · obtain rfl : r' = r := by simpa [Expr.refs] using hr'
    rcases hm r' hr with ⟨i, hi⟩ | ⟨-, ht⟩
    · simp [hnone] at hi
    · exact .inr ⟨hr, hnone, ht⟩

/-- Below a projection an expression is worth on the cells of the input what it is worth above on
the cells of the outputs. -/
theorem worth_unproject (hb : ∀ out ∈ outputs, out.expr.Bound input)
    (hm : e.Movable (outputs.map Output.column) input) (h : unproject outputs e = .ok e')
    (outer outer' : Env) (cells : List (Option Value)) :
    e'.worth (cellsEnv input outer cells) = e.worth (cellsEnv (outputs.map Output.column) outer
      (outputs.map fun out => out.expr.worth (cellsEnv input outer' cells))) := by
  rw [Expr.worth_subst h]
  refine Expr.worth_congr fun r hr => ?_
  obtain ⟨e₀, he₀⟩ := Expr.exists_of_subst h hr
  rw [he₀]
  rcases outputExpr_eq_ok he₀ with ⟨i, out, hi, hout, rfl⟩ | ⟨hnone, rfl⟩
  · rw [cellsEnv_some hi]
    simp only [Except.toOption, Option.bind_some, List.getElem?_map, hout, Option.map_some,
      Option.join_some]
    exact (hb out (List.mem_of_getElem? hout)).worth_eq outer outer'
  · rw [cellsEnv_none hnone]
    rcases hm r hr with ⟨i, hi⟩ | ⟨-, ht⟩
    · simp [hnone] at hi
    · exact cellsEnv_none ht

end Stage

/-! ### Joins -/

/-- The parts are the conjuncts, by the inputs that they read. -/
theorem JoinParts.ofConjuncts_spec {parts : JoinParts}
    (h : ofConjuncts left right cs = .ok parts) :
    (∀ c, c ∈ cs ↔ c ∈ parts.left ∨ c ∈ parts.right ∨ c ∈ parts.straddling) ∧
      (∀ c ∈ parts.left, c.readsAny right = .ok false) ∧
      ∀ c ∈ parts.right, c.readsAny left = .ok false := by
  induction cs generalizing parts with
  | nil => cases h; simp
  | cons e es ih =>
    obtain ⟨onLeft, hl, h⟩ := Result.bind_eq_ok.1 h
    obtain ⟨onRight, hr, h⟩ := Result.bind_eq_ok.1 h
    obtain ⟨parts', hrest, hparts⟩ := Result.bind_eq_ok.1 h
    obtain ⟨hmem, hleft, hright⟩ := ih hrest
    cases onRight
    · cases hparts
      refine ⟨fun c => ?_, List.forall_mem_cons.2 ⟨hr, hleft⟩, hright⟩
      rw [List.mem_cons, List.mem_cons, hmem, or_assoc]
    · cases onLeft <;> cases hparts
      · refine ⟨fun c => ?_, hleft, List.forall_mem_cons.2 ⟨hl, hright⟩⟩
        simp only [List.mem_cons, hmem]
        tauto
      · refine ⟨fun c => ?_, hleft, hright⟩
        simp only [List.mem_cons, hmem]
        tauto

theorem readsOnly_eq_true (h : readsOnly columns e = .ok true) : e.Bound columns := by
  obtain ⟨reads, -, h⟩ := Result.bind_eq_ok.1 h
  cases reads
  · cases h
  · exact Expr.resolvesWithin_eq_true.1 h

/-- A key pair is over the inputs, and a conjunct equates its sides. -/
structure KeyPair.IsOf (left right : List Column) (c : Expr) (p : KeyPair) : Prop where
  left : p.left.Bound left
  right : p.right.Bound right
  shape : c = .binary (.cmp .eq) p.left p.right ∨ c = .binary (.cmp .eq) p.right p.left

theorem isKeyPair_eq_true {p : KeyPair} (h : isKeyPair left right p = .ok true) :
    p.left.Bound left ∧ p.right.Bound right := by
  obtain ⟨onLeft, hl, h⟩ := Result.bind_eq_ok.1 h
  cases onLeft
  · cases h
  · exact ⟨readsOnly_eq_true hl, readsOnly_eq_true h⟩

theorem keyPair_eq_some {p : KeyPair} (h : keyPair? left right c = .ok (some p)) :
    p.IsOf left right c := by
  unfold keyPair? at h
  split at h
  · next a b =>
    obtain ⟨forward, hf, h⟩ := Result.bind_eq_ok.1 h
    cases forward
    · obtain ⟨backward, hb, hp⟩ := Result.bind_eq_ok.1 h
      cases backward <;> cases hp
      obtain ⟨hl, hr⟩ := isKeyPair_eq_true hb
      exact ⟨hl, hr, .inr rfl⟩
    · cases h
      obtain ⟨hl, hr⟩ := isKeyPair_eq_true hf
      exact ⟨hl, hr, .inl rfl⟩
  · cases h

theorem allKeyPairs_eq_some {ps : List KeyPair} (h : allKeyPairs left right cs = .ok (some ps)) :
    List.Forall₂ (KeyPair.IsOf left right) cs ps := by
  induction cs generalizing ps with
  | nil => cases h; exact .nil
  | cons c cs ih =>
    obtain ⟨p?, hp, h⟩ := Result.bind_eq_ok.1 h
    match p?, h with
    | some p, h =>
      obtain ⟨ps?, hps, h⟩ := Result.bind_eq_ok.1 h
      match ps?, h with
      | some ps', h =>
        cases h
        exact .cons (keyPair_eq_some hp) (ih hps)

namespace JoinStrategy

theorem choose_eq {choice : JoinChoice} {pairs : Option (List KeyPair)} :
    choose choice pairs = .nestedLoop ∨
      ∃ ps, pairs = some ps ∧
        (choose choice pairs = .hash ps ∨ choose choice pairs = .merge ps) := by
  cases choice <;> cases pairs <;> simp [choose]

end JoinStrategy

/-- The parts of a join: what each input is handed, and what the strategy sees to. -/
structure Join.Decides (left right : List Column) (cs : List Expr) (parts : JoinParts)
    (d : Decision) : Prop where
  mem : ∀ c, c ∈ cs ↔ c ∈ parts.left ∨ c ∈ parts.right ∨ c ∈ parts.straddling
  onLeft : ∀ c ∈ parts.left, c.readsAny right = .ok false
  onRight : ∀ c ∈ parts.right, c.readsAny left = .ok false
  forLeft : d.forLeft = Filter.ofList parts.left
  forRight : (d.strategy = .nestedLoop ∧
      d.forRight = Filter.ofList (parts.right ++ parts.straddling)) ∨
    ((d.strategy = .hash d.strategy.pairs ∨ d.strategy = .merge d.strategy.pairs) ∧
      List.Forall₂ (KeyPair.IsOf left right) parts.straddling d.strategy.pairs ∧
      d.forRight = Filter.ofList parts.right)

theorem Join.decide_spec {j : Join} {d : Decision} (h : j.decide left right = .ok d) :
    ∃ pushed parts, j.pushed.qualify (left ++ right) = .ok pushed ∧
      Decides left right (Filter.fold (Filter.union [j.condition, pushed])).conjuncts parts d := by
  obtain ⟨pushed, hq, h⟩ := Result.bind_eq_ok.1 h
  obtain ⟨parts, hparts, h⟩ := Result.bind_eq_ok.1 h
  obtain ⟨pairs, hpairs, h⟩ := Result.bind_eq_ok.1 h
  obtain ⟨hmem, hleft, hright⟩ := JoinParts.ofConjuncts_spec hparts
  refine ⟨pushed, parts, hq, hmem, hleft, hright, ?_, ?_⟩
  · cases h; rfl
  · rcases @JoinStrategy.choose_eq j.choice pairs with hs | ⟨ps, rfl, hs⟩
    · cases h
      exact .inl ⟨hs, by simp only [hs]⟩
    · have hall : List.Forall₂ (KeyPair.IsOf left right) parts.straddling ps := by
        unfold keyPairs at hpairs
        split at hpairs
        · cases hpairs
        · exact allKeyPairs_eq_some hpairs
      cases h
      rcases hs with hs | hs <;> simp only [hs]
      · exact .inr ⟨.inl rfl, hall, trivial⟩
      · exact .inr ⟨.inr rfl, hall, trivial⟩

/-- What a join hands to an input reads nothing of the other one, except that a nested loop hands
all that reads the right one to it. -/
theorem Join.Decides.refsIn {parts : JoinParts} {d : Decision} (h : Decides left right cs parts d)
    (hcs : ∀ c ∈ cs, c.RefsIn G) :
    d.forLeft.RefsIn (fun r => G r ∧ resolve right r = .ok none) ∧
      (d.strategy = .nestedLoop → d.forRight.RefsIn G) ∧
      (d.strategy ≠ .nestedLoop → d.forRight.RefsIn fun r => G r ∧ resolve left r = .ok none) := by
  refine ⟨?_, fun hs => ?_, fun hs => ?_⟩
  · rw [h.forLeft]
    exact Filter.refsIn_ofList.2 fun c hc r hr =>
      ⟨hcs c ((h.mem c).2 (.inl hc)) r hr, Expr.readsAny_eq_false.1 (h.onLeft c hc) r hr⟩
  · obtain ⟨-, hfor⟩ | ⟨hs', -⟩ := h.forRight
    · rw [hfor]
      exact Filter.refsIn_ofList.2 fun c hc => hcs c ((h.mem c).2 (.inr (List.mem_append.1 hc)))
    · rw [hs] at hs'
      simp at hs'
  · obtain ⟨hs', -⟩ | ⟨-, -, hfor⟩ := h.forRight
    · exact absurd hs' hs
    · rw [hfor]
      exact Filter.refsIn_ofList.2 fun c hc r hr =>
        ⟨hcs c ((h.mem c).2 (.inr (.inl hc))) r hr, Expr.readsAny_eq_false.1 (h.onRight c hc) r hr⟩

theorem Join.Decides.exists_isOf {parts : JoinParts} {d : Decision}
    (h : Decides left right cs parts d) :
    ∀ p ∈ d.strategy.pairs, ∃ c ∈ parts.straddling, p.IsOf left right c := by
  intro p hp
  rcases h.forRight with ⟨hs, -⟩ | ⟨-, hpairs, -⟩
  · rw [hs] at hp
    cases hp
  · exact exists_of_forall₂ hpairs hp

theorem KeyPair.IsOf.isExact {p : KeyPair} (h : p.IsOf left right c) (hc : c.isExact) :
    p.left.isExact ∧ p.right.isExact := by
  rcases h.shape with rfl | rfl <;> simp_all [Expr.isExact]

theorem KeyPair.IsOf.clear {p : KeyPair} (h : p.IsOf left right c) (hc : c.Clear columns) :
    p.left.Clear columns ∧ p.right.Clear columns := by
  rcases h.shape with rfl | rfl <;>
    exact ⟨fun r hr => hc r (by simp [Expr.refs, hr]), fun r hr => hc r (by simp [Expr.refs, hr])⟩

theorem Join.Decides.isExact {parts : JoinParts} {d : Decision}
    (h : Decides left right cs parts d) (hcs : ∀ c ∈ cs, c.isExact) :
    d.forLeft.IsExact ∧ d.forRight.IsExact ∧
      ∀ p ∈ d.strategy.pairs, p.left.isExact ∧ p.right.isExact := by
  have hright : ∀ c ∈ parts.right, c.isExact := fun c hc => hcs c ((h.mem c).2 (.inr (.inl hc)))
  have hboth : ∀ c ∈ parts.straddling, c.isExact := fun c hc => hcs c ((h.mem c).2 (.inr (.inr hc)))
  refine ⟨?_, ?_, fun p hp => ?_⟩
  · rw [h.forLeft]
    exact Filter.isExact_ofList.2 fun c hc => hcs c ((h.mem c).2 (.inl hc))
  · rcases h.forRight with ⟨-, hfor⟩ | ⟨-, -, hfor⟩ <;> rw [hfor]
    · exact Filter.isExact_ofList.2 (List.forall_mem_append.2 ⟨hright, hboth⟩)
    · exact Filter.isExact_ofList.2 hright
  · obtain ⟨c, hc, hof⟩ := h.exists_isOf p hp
    exact hof.isExact (hboth c hc)

theorem Join.Decides.bound_pairs {parts : JoinParts} {d : Decision}
    (h : Decides left right cs parts d) :
    ∀ p ∈ d.strategy.pairs, p.left.Bound left ∧ p.right.Bound right := by
  intro p hp
  obtain ⟨c, -, hof⟩ := h.exists_isOf p hp
  exact ⟨hof.left, hof.right⟩

/-! ### Unions -/

theorem Union.decide_spec {u : Union} {d : Decision} (h : u.decide left right = .ok d) :
    left.length = right.length ∧ ∃ ms ss, d.kept = Filter.ofList ss ∧
      (Filter.ofList ms).rename left left = .ok d.forLeft ∧
      (Filter.ofList ms).rename left right = .ok d.forRight ∧
      (∀ c, c ∈ (Filter.fold u.pushed).conjuncts ↔ c ∈ ms ∨ c ∈ ss) ∧
      ∀ c ∈ ms, c.Movable left left ∧ c.Movable left right := by
  obtain ⟨_, hcheck, h⟩ := Result.bind_eq_ok.1 h
  obtain ⟨⟨ms, ss⟩, hparts, h⟩ := Result.bind_eq_ok.1 h
  obtain ⟨fl, hfl, h⟩ := Result.bind_eq_ok.1 h
  obtain ⟨fr, hfr, h⟩ := Result.bind_eq_ok.1 h
  cases h
  obtain ⟨hmem, hmov⟩ := partConjuncts_spec hparts
  refine ⟨?_, ms, ss, rfl, hfl, hfr, hmem, hmov⟩
  unfold checkInputs at hcheck
  split at hcheck
  · assumption
  · cases hcheck

theorem Union.decide_eq_of_none {u : Union} {d : Decision} (hu : u.pushed = none)
    (h : u.decide left right = .ok d) : d = ⟨none, none, none⟩ := by
  obtain ⟨_, -, h⟩ := Result.bind_eq_ok.1 h
  rw [hu] at h
  cases h
  rfl

theorem Union.isExact_decide {u : Union} {d : Decision} (hu : u.pushed.IsExact)
    (h : u.decide left right = .ok d) : d.forLeft.IsExact ∧ d.forRight.IsExact := by
  obtain ⟨-, ms, ss, -, hfl, hfr, hmem, -⟩ := decide_spec h
  have hms : (Filter.ofList ms).IsExact := Filter.isExact_ofList.2 fun c hc =>
    (Filter.isExact_fold hu).conjuncts c ((hmem c).2 (.inl hc))
  exact ⟨Filter.isExact_rename hms hfl, Filter.isExact_rename hms hfr⟩

end RelPlan

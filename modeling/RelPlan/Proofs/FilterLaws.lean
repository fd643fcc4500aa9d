import Mathlib.Logic.Basic
import RelPlan.Proofs.Conjunctions

/-!
# Laws of filters

A set of conjuncts keeps the first of several equivalent ones (`Filter.insertAll_eq`).  Equivalent
conjuncts are in a list together, so it does not matter whether repetitions are dropped before or
after the conjuncts of another filter are taken out, and union, difference and intersection obey the
laws of sets in the order in which conjuncts are written (`Filter.set_laws`).  Where every conjunct
can be told on a row the results can be told as well, and they mean what a reader of `AND` expects
(`Filter.holds_laws`).
-/

namespace RelPlan

variable {scope : Scope} {row : Row} {c d e : Expr} {cs es : List Expr} {f g : Filter}

namespace Filter

/-- The operands of the `AND`s at the top, left to right, with repetitions. -/
def parts (f : Filter) : List Expr := (f.map Expr.conjuncts).getD []

/-- The members that have no equivalent before them. -/
def firsts (es : List Expr) : List Expr := es.eraseDupsBy fun e d => d.equiv e

theorem firsts_cons (e : Expr) (es : List Expr) :
    firsts (e :: es) = e :: firsts (es.filter fun d => !e.equiv d) := by
  rw [firsts, List.eraseDupsBy_cons, firsts]
  simp only [Bool.decide_eq_false]

/-- What is put into a set comes after its members, unless it has an equivalent already. -/
theorem insertAll_eq (cs es : List Expr) :
    insertAll cs es = cs ++ firsts (es.filter fun e => !contains cs e) := by
  induction es generalizing cs with
  | nil => simp [insertAll, firsts]
  | cons e es ih =>
    rw [insertAll]
    cases hc : contains cs e with
    | true => rw [if_pos rfl, ih, List.filter_cons_of_neg (by simp [hc])]
    | false =>
      have hfilter : (es.filter fun d => !contains (cs ++ [e]) d) =
          (es.filter fun d => !contains cs d).filter fun d => !e.equiv d := by
        rw [List.filter_filter]
        refine List.filter_congr fun d _ => ?_
        simp [contains, Bool.and_comm]
      rw [if_neg (by simp), ih, List.filter_cons_of_pos (by simp [hc]), firsts_cons, hfilter,
        List.append_assoc]
      rfl

theorem insertAll_nil (es : List Expr) : insertAll [] es = firsts es := by
  rw [insertAll_eq, List.nil_append, List.filter_eq_self.2 (by simp [contains])]

theorem conjuncts_eq (f : Filter) : f.conjuncts = firsts f.parts := by
  cases f with
  | none => rfl
  | some e => exact insertAll_nil e.conjuncts

theorem firsts_subset (es : List Expr) : firsts es ⊆ es := fun _ h =>
  (mem_of_mem_insertAll (insertAll_nil es ▸ h)).resolve_left (by simp)

theorem contains_congr (h : d.equiv e) : contains cs d = contains cs e := by
  rw [Bool.eq_iff_iff, contains_iff, contains_iff]
  exact exists_congr fun c => and_congr_right fun _ =>
    ⟨fun hd => Expr.equiv_trans hd h, fun he => Expr.equiv_trans he (Expr.equiv_symm h)⟩

theorem contains_firsts (es : List Expr) (e : Expr) : contains (firsts es) e = contains es e := by
  rw [Bool.eq_iff_iff, contains_iff, contains_iff]
  constructor
  · exact fun ⟨d, hd, hde⟩ => ⟨d, firsts_subset es hd, hde⟩
  · rintro ⟨d, hd, hde⟩
    obtain ⟨c, hc, hcd⟩ := exists_equiv_insertAll [] hd
    exact ⟨c, insertAll_nil es ▸ hc, Expr.equiv_trans hcd hde⟩

/-- A condition that equivalent expressions share may be applied before or after. -/
theorem filter_firsts {p : Expr → Bool} (hp : ∀ d e, d.equiv e → p d = p e) (es : List Expr) :
    (firsts es).filter p = firsts (es.filter p) := by
  induction hn : es.length using Nat.strongRecOn generalizing es with
  | _ n ih =>
    subst hn
    cases es with
    | nil => rfl
    | cons e es =>
      have hrest := ih _ (Nat.lt_succ_of_le (List.length_filter_le _ _))
        (es.filter fun d => !e.equiv d) rfl
      rw [firsts_cons]
      cases he : p e with
      | true =>
        rw [List.filter_cons_of_pos he, List.filter_cons_of_pos he, hrest, firsts_cons,
          List.filter_comm]
      | false =>
        rw [List.filter_cons_of_neg (by simp [he]), List.filter_cons_of_neg (by simp [he]), hrest,
          List.filter_filter]
        refine congrArg firsts (List.filter_congr fun d _ => ?_)
        cases hed : e.equiv d
        · simp
        · simp [← hp e d hed, he]

theorem pairwise_firsts (es : List Expr) : (firsts es).Pairwise fun d e => ¬ d.equiv e := by
  induction hn : es.length using Nat.strongRecOn generalizing es with
  | _ n ih =>
    subst hn
    cases es with
    | nil => exact .nil
    | cons e es =>
      rw [firsts_cons]
      refine .cons (fun d hd => ?_) (ih _ (Nat.lt_succ_of_le (List.length_filter_le _ _)) _ rfl)
      simpa using (List.mem_filter.1 (firsts_subset _ hd)).2

theorem firsts_of_pairwise (h : es.Pairwise fun d e => ¬ d.equiv e) : firsts es = es := by
  induction es with
  | nil => rfl
  | cons e es ih =>
    obtain ⟨he, hes⟩ := List.pairwise_cons.1 h
    rw [firsts_cons, List.filter_eq_self.2 fun d hd => by simpa using he d hd, ih hes]

theorem firsts_firsts (es : List Expr) : firsts (firsts es) = firsts es :=
  firsts_of_pairwise (pairwise_firsts es)

theorem parts_ofList (h : ∀ c ∈ cs, c.conjuncts = [c]) : (ofList cs).parts = cs := by
  cases hf : ofList cs with
  | none => cases cs <;> first | rfl | cases hf
  | some e => exact conjuncts_of_mem_ofList hf h

theorem conjuncts_of_mem_parts (h : c ∈ f.parts) : c.conjuncts = [c] := by
  cases f with
  | none => cases h
  | some e => exact Expr.conjuncts_eq_singleton h

theorem parts_union (f g : Filter) : (union [f, g]).parts = firsts (f.parts ++ g.parts) := by
  have hunion : union [f, g] = ofList (firsts (f.parts ++ g.parts)) := by
    rw [← insertAll_nil]
    simp [union, parts]
  rw [hunion, parts_ofList fun c hc => ?_]
  rcases List.mem_append.1 (firsts_subset _ hc) with hc | hc <;> exact conjuncts_of_mem_parts hc

theorem parts_filter (f : Filter) (p : Expr → Bool) :
    (ofList (f.conjuncts.filter p)).parts = (firsts f.parts).filter p := by
  rw [parts_ofList fun c hc => ?_, conjuncts_eq]
  rw [conjuncts_eq] at hc
  exact conjuncts_of_mem_parts (firsts_subset _ (List.mem_of_mem_filter hc))

theorem contains_conjuncts (f : Filter) : contains f.conjuncts = contains f.parts := by
  funext e
  rw [conjuncts_eq, contains_firsts]

theorem parts_inter (f g : Filter) :
    (f.inter g).parts = (firsts f.parts).filter (contains g.parts) := by
  rw [inter, parts_filter, contains_conjuncts]

theorem parts_diff (f g : Filter) :
    (f.diff g).parts = (firsts f.parts).filter fun e => !contains g.parts e := by
  rw [diff, parts_filter, contains_conjuncts]

theorem parts_union_diff (f g : Filter) :
    ((union [f, g]).diff f).parts = (firsts g.parts).filter fun e => !contains f.parts e := by
  have hcongr (d e : Expr) (h : d.equiv e) : (!contains f.parts d) = !contains f.parts e := by
    rw [contains_congr h]
  have hf : (f.parts.filter fun e => !contains f.parts e) = [] :=
    List.filter_eq_nil_iff.2 fun e he => by
      simpa using contains_iff.2 ⟨e, he, e.equiv_refl⟩
  rw [parts_diff, parts_union, firsts_firsts, filter_firsts hcongr, List.filter_append, hf,
    List.nil_append, filter_firsts hcongr]

theorem contains_inter (f : Filter) (h : e ∈ g.parts) :
    contains (f.inter g).parts e = contains f.parts e := by
  rw [parts_inter, Bool.eq_iff_iff, ← contains_firsts f.parts, contains_iff, contains_iff]
  constructor
  · exact fun ⟨d, hd, hde⟩ => ⟨d, List.mem_of_mem_filter hd, hde⟩
  · rintro ⟨d, hd, hde⟩
    have hg : contains g.parts d := contains_iff.2 ⟨e, h, Expr.equiv_symm hde⟩
    exact ⟨d, List.mem_filter.2 ⟨hd, hg⟩, hde⟩

theorem diff_inter (f g : Filter) : g.diff (f.inter g) = g.diff f := by
  unfold diff
  rw [conjuncts_eq g, contains_conjuncts, contains_conjuncts]
  exact congrArg ofList <| List.filter_congr fun e he => by
    rw [contains_inter f (firsts_subset _ he)]

/-- The part of `g` that `f` has too, as it is written in `f`, and the rest of `g` have no
repetitions between them, and nothing of `g` is missing. -/
theorem pairwise_inter_diff (f g : Filter) :
    ((f.inter g).parts ++ (g.diff (f.inter g)).parts).Pairwise (fun d e => ¬ d.equiv e) ∧
      ∀ e ∈ g.parts, contains ((f.inter g).parts ++ (g.diff (f.inter g)).parts) e := by
  rw [diff_inter, parts_diff]
  constructor
  · refine List.pairwise_append.2 ⟨?_, (pairwise_firsts _).filter _, fun c hc d hd hcd => ?_⟩
    · rw [parts_inter]
      exact (pairwise_firsts _).filter _
    · rw [parts_inter] at hc
      have hmem := firsts_subset _ (List.mem_of_mem_filter hc)
      have hnot := (List.mem_filter.1 hd).2
      rw [contains_iff.2 ⟨c, hmem, hcd⟩] at hnot
      cases hnot
  · intro e he
    cases hf : contains f.parts e with
    | true =>
      obtain ⟨d, hd, hde⟩ := contains_iff.1 ((contains_inter f he).trans hf)
      exact contains_iff.2 ⟨d, List.mem_append_left _ hd, hde⟩
    | false =>
      obtain ⟨d, hd, hde⟩ := contains_iff.1 <|
        (contains_firsts g.parts e).trans (contains_iff.2 ⟨e, he, e.equiv_refl⟩)
      refine contains_iff.2 ⟨d, List.mem_append_right _ (List.mem_filter.2 ⟨hd, ?_⟩), hde⟩
      rw [contains_congr hde, hf]
      rfl

/-- A filter is the set of its conjuncts, of which the first of several equivalent ones counts: a
union without one of its parts is what the other part has beside it, a filter falls into the part it
has in common with another one and the rest, both in its order, and for the rest it does not matter
in which of the two spellings the common part is taken out. -/
theorem set_laws (f g : Filter) :
    f.conjuncts = firsts f.parts ∧
    ((union [f, g]).diff f).parts =
      (firsts g.parts).filter (fun e => ∀ d ∈ f.parts, ¬ d.equiv e) ∧
    (f.inter g).parts = (firsts f.parts).filter (fun e => ∃ d ∈ g.parts, d.equiv e) ∧
    (f.diff g).parts = (firsts f.parts).filter (fun e => ∀ d ∈ g.parts, ¬ d.equiv e) ∧
    (∀ e ∈ firsts f.parts, Xor (e ∈ (f.inter g).parts) (e ∈ (f.diff g).parts)) ∧
    g.diff (f.inter g) = g.diff f ∧
    ((f.inter g).parts ++ (g.diff (f.inter g)).parts).Pairwise (fun d e => ¬ d.equiv e) ∧
    ∀ e ∈ g.parts, ∃ d ∈ (f.inter g).parts ++ (g.diff (f.inter g)).parts, d.equiv e := by
  have hsome (h : Filter) : (contains h.parts) = fun e => decide (∃ d ∈ h.parts, d.equiv e) := by
    funext e
    rw [Bool.eq_iff_iff, contains_iff, decide_eq_true_eq]
  have hnone (h : Filter) : (fun e => !contains h.parts e) =
      fun e => decide (∀ d ∈ h.parts, ¬ d.equiv e) := by
    funext e
    rw [Bool.eq_iff_iff, hsome]
    simp
  have hxor : ∀ e ∈ firsts f.parts, Xor (e ∈ (f.inter g).parts) (e ∈ (f.diff g).parts) := by
    intro e he
    rw [parts_inter, parts_diff, List.mem_filter, List.mem_filter]
    cases contains g.parts e <;> simp [Xor, he]
  obtain ⟨hpairwise, hall⟩ := pairwise_inter_diff f g
  refine ⟨conjuncts_eq f, ?_, ?_, ?_, hxor, diff_inter f g, hpairwise,
    fun e he => contains_iff.1 (hall e he)⟩
  · rw [parts_union_diff, hnone]
  · rw [parts_inter, hsome]
  · rw [parts_diff, hnone]

/-- Conjuncts that occur twice, and in another order of their operands. -/
theorem set_laws_turned :
    let above := Expr.binary (.cmp .gt) (.column "t.a") (.const (.int 1))
    let above' := Expr.binary (.cmp .lt) (.const (.int 1)) (.column "t.a")
    let equal := Expr.binary (.cmp .eq) (.column "t.b") (.const (.int 2))
    let equal' := Expr.binary (.cmp .eq) (.const (.int 2)) (.column "t.b")
    let f : Filter := some (.and above (.and equal above'))
    let g : Filter := some (.and (.and equal' (.column "t.c")) equal)
    firsts f.parts = [above, equal] ∧ ((union [f, g]).diff f).parts = [.column "t.c"] ∧
      f.inter g = some equal ∧ g.diff (f.inter g) = some (.column "t.c") ∧
      above ∈ firsts f.parts ∧ Xor (above ∈ (f.inter g).parts) (above ∈ (f.diff g).parts) ∧
      equal ∈ g.parts ∧
      ∃ d ∈ (f.inter g).parts ++ (g.diff (f.inter g)).parts, d.equiv equal := by
  intro above above' equal equal' f g
  have habove : above ∈ firsts f.parts := by decide
  have hequal : equal ∈ g.parts := by decide
  obtain ⟨-, -, -, -, hxor, -, -, hall⟩ := set_laws f g
  exact ⟨by decide, by decide, by decide, by decide, habove, hxor above habove, hequal,
    hall equal hequal⟩

/-! ### What passes a filter -/

/-- Whether a row passes a filter.  It passes where there is none. -/
def holds (scope : Scope) (row : Row) : Filter → Result Bool
  | none => .ok true
  | some e => e.holds scope row

theorem passes_iff_of_holds {b : Bool} (h : f.holds scope row = .ok b) :
    f.Passes (row.env scope) ↔ b = true := by
  cases f with
  | none => cases h; simp
  | some e => rw [passes_some, Expr.passes_iff_of_holds h]

theorem exists_holds (h : ∀ c ∈ f.parts, ∃ a, c.truthOn scope row = .ok a) :
    ∃ b, f.holds scope row = .ok b := by
  cases f with
  | none => exact ⟨true, rfl⟩
  | some e =>
    have htold (cs : List Expr) (hcs : ∀ c ∈ cs, ∃ a, c.truthOn scope row = .ok a) :
        Expr.Told scope row cs := by
      induction cs with
      | nil => exact Expr.told_nil
      | cons c cs ih =>
        obtain ⟨⟨a, ha⟩, hcs⟩ := List.forall_mem_cons.1 hcs
        exact Expr.told_cons.2 ⟨a, ha, .inr (ih hcs)⟩
    obtain ⟨a, ha⟩ := htold e.conjuncts h
    exact Expr.exists_holds.2 ⟨a, (Expr.truthOn_eq_conjunction e).trans ha⟩

/-- Where each conjunct of two filters is a truth value or unknown, a row passes the union if it
passes both, and the one if it passes what is left of it without the other and what they have in
common.  Of a row that passes the other, what is left decides. -/
theorem holds_laws (f g : Filter) (scope : Scope) (row : Row)
    (h : ∀ c ∈ f.parts ++ g.parts, ∃ a : Option Bool, c.evalRow scope row = .ok (.ofTruth a)) :
    ∃ a b rest common : Bool, f.holds scope row = .ok a ∧ g.holds scope row = .ok b ∧
      (union [f, g]).holds scope row = .ok (a && b) ∧
      (f.diff g).holds scope row = .ok rest ∧ (f.inter g).holds scope row = .ok common ∧
      a = (rest && common) ∧ (b = true → a = rest) := by
  have htold {k : Filter} (hk : ∀ c ∈ k.parts, c ∈ f.parts ++ g.parts) :
      ∃ b, k.holds scope row = .ok b := by
    refine exists_holds fun c hc => ?_
    obtain ⟨a, ha⟩ := h c (hk c hc)
    exact ⟨a, by rw [Expr.truthOn, ha]; exact Value.truth_ofTruth a⟩
  have hpart {p : Expr → Bool} : ∀ c ∈ (firsts f.parts).filter p, c ∈ f.parts ++ g.parts :=
    fun c hc => List.mem_append_left _ (firsts_subset _ (List.mem_of_mem_filter hc))
  obtain ⟨a, ha⟩ := htold (k := f) fun c hc => List.mem_append_left _ hc
  obtain ⟨b, hb⟩ := htold (k := g) fun c hc => List.mem_append_right _ hc
  obtain ⟨u, hu⟩ := htold (k := union [f, g]) (parts_union f g ▸ firsts_subset _)
  obtain ⟨rest, hrest⟩ := htold (k := f.diff g) (parts_diff f g ▸ hpart)
  obtain ⟨common, hcommon⟩ := htold (k := f.inter g) (parts_inter f g ▸ hpart)
  have hunion : u = (a && b) := by
    rw [Bool.eq_iff_iff, Bool.and_eq_true, ← passes_iff_of_holds hu, ← passes_iff_of_holds ha,
      ← passes_iff_of_holds hb, passes_union]
    simp
  have hsplit : a = (rest && common) := by
    rw [Bool.eq_iff_iff, Bool.and_eq_true, ← passes_iff_of_holds ha, ← passes_iff_of_holds hrest,
      ← passes_iff_of_holds hcommon, passes_inter_and_diff, and_comm]
  refine ⟨a, b, rest, common, ha, hb, hunion ▸ hu, hrest, hcommon, hsplit, fun htrue => ?_⟩
  have hg : g.Passes (row.env scope) := (passes_iff_of_holds hb).2 htrue
  rw [hsplit, (passes_iff_of_holds hcommon).1 (passes_inter_of_passes hg), Bool.and_true]

/-- One conjunct reads an outer row and is written twice, one is unknown. -/
theorem holds_laws_unknown :
    let f : Filter := some (.and (.binary (.cmp .gt) (.column "o.x") (.column "a")) (.column "b"))
    let g : Filter := some (.and (.binary (.cmp .lt) (.column "a") (.column "o.x"))
      (.unary .isNull (.column "b")))
    let row : Row := ⟨[⟨some "t", "a", .int, false⟩, ⟨some "t", "b", .bool, false⟩],
      [.int 1, .null], none, rfl⟩
    let outer : Row := ⟨[⟨some "o", "x", .float, false⟩], [.float ⟨0x3ff8000000000000⟩], none, rfl⟩
    let scope : Scope := ⟨[outer]⟩
    (∀ c ∈ f.parts ++ g.parts, ∃ a : Option Bool, c.evalRow scope row = .ok (.ofTruth a)) ∧
      f.holds scope row = .ok false ∧ g.holds scope row = .ok true ∧
      f.diff g = some (.column "b") ∧
      f.inter g = some (.binary (.cmp .gt) (.column "o.x") (.column "a")) ∧
      ∃ rest common : Bool, (union [f, g]).holds scope row = .ok (false && true) ∧
        (f.diff g).holds scope row = .ok rest ∧ (f.inter g).holds scope row = .ok common ∧
        false = (rest && common) ∧ false = rest := by
  intro f g row outer scope
  have h : ∀ c ∈ f.parts ++ g.parts, ∃ a : Option Bool,
      c.evalRow scope row = .ok (.ofTruth a) := by
    refine List.forall_mem_cons.2 ⟨⟨some true, by decide⟩, List.forall_mem_cons.2
      ⟨⟨none, by decide⟩, List.forall_mem_cons.2 ⟨⟨some true, by decide⟩,
        List.forall_mem_cons.2 ⟨⟨some true, by decide⟩, fun _ h => nomatch h⟩⟩⟩⟩
  have hf : f.holds scope row = .ok false := by decide
  have hg : g.holds scope row = .ok true := by decide
  obtain ⟨a, b, rest, common, ha, hb, hu, hrest, hcommon, hsplit, hdecide⟩ :=
    holds_laws f g scope row h
  obtain rfl : false = a := Except.ok.inj (hf.symm.trans ha)
  obtain rfl : true = b := Except.ok.inj (hg.symm.trans hb)
  exact ⟨h, hf, hg, by decide, by decide, rest, common, hu, hrest, hcommon, hsplit, hdecide rfl⟩

end Filter

end RelPlan

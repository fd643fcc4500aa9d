import RelPlan.Plan.Run
import RelPlan.Proofs.HandingOn

/-!
# Values of substituted expressions

A substituted expression ends as the expression does where every reference has what its substitute
ends with, failures included (`Expr.evalWith_subst`).  Substitutes that may fail for causes of their
own make the whole fail for these and nothing else (`Expr.eqUnless_subst`).

So an expression gives on the row of a projection what it gives below the projection
(`Stage.evalRow_unproject`), and under other names for the columns of a row what it gave before,
save that the new names may clash (`Expr.evalRow_rename`).
-/

namespace RelPlan

open Result

namespace Result

variable {α β : Type} {C : QueryError → Prop} {x y : Result α} {f g : α → Result β}

/-- The first computation ends as the second one does, unless it fails for one of the causes. -/
def EqUnless (C : QueryError → Prop) (x y : Result α) : Prop :=
  x = y ∨ ∃ cause, C cause ∧ x = .error cause

theorem EqUnless.refl (x : Result α) : EqUnless C x x := .inl rfl

theorem EqUnless.bind (hx : EqUnless C x y) (hf : ∀ a, EqUnless C (f a) (g a)) :
    EqUnless C (x >>= f) (y >>= g) := by
  rcases hx with rfl | ⟨cause, hcause, rfl⟩
  · cases x with
    | ok a => exact hf a
    | error cause => exact .refl _
  · exact .inr ⟨cause, hcause, rfl⟩

end Result

section

variable {C : QueryError → Prop} {f : ColumnRef → Result Expr} {env env' : ColumnRef → Result Value}
  {e e' : Expr}

theorem Expr.eqUnless_subst (h : e.subst f = .ok e')
    (hf : ∀ r ∈ e.refs, ∀ e₀, f r = .ok e₀ → EqUnless C (e₀.evalWith env') (env r)) :
    EqUnless C (e'.evalWith env') (e.evalWith env) := by
  induction e generalizing e' with
  | const v => cases h; exact .refl _
  | ref r => exact hf r (by simp [refs]) e' h
  | unary op a ih =>
    obtain ⟨a', ha, h⟩ := bind_eq_ok.1 h
    cases h
    exact (ih ha hf).bind fun _ => .refl _
  | binary op a b iha ihb =>
    obtain ⟨a', ha, h⟩ := bind_eq_ok.1 h
    obtain ⟨b', hb, h⟩ := bind_eq_ok.1 h
    cases h
    have hl := iha ha fun r hr => hf r (List.mem_append_left _ hr)
    have hr := ihb hb fun r hr => hf r (List.mem_append_right _ hr)
    cases op with
    | and | or =>
      -- The right operand counts only where the left one does not decide, which it does alike.
      refine hl.bind fun v => (EqUnless.refl v.truth).bind fun s => ?_
      split
      · exact .refl _
      · exact hr.bind fun _ => .refl _
    | cmp | arith | distinct => exact hl.bind fun _ => hr.bind fun _ => .refl _

/-- Where every substitute ends as its reference does, so does the whole. -/
theorem Expr.evalWith_subst (h : e.subst f = .ok e')
    (hf : ∀ r ∈ e.refs, ∀ e₀, f r = .ok e₀ → e₀.evalWith env' = env r) :
    e'.evalWith env' = e.evalWith env := by
  have heq : EqUnless (fun _ => False) (e'.evalWith env') (e.evalWith env) :=
    eqUnless_subst h fun r hr e₀ he₀ => .inl (hf r hr e₀ he₀)
  rcases heq with heq | ⟨_, hnever, -⟩
  · exact heq
  · exact hnever.elim

end

section

variable {outputs : List Output} {row projected : Row} {e e' : Expr} {scope : Scope}

theorem Output.compute_eq_ok (h : compute scope outputs row = .ok projected) :
    projected.columns = outputs.map column ∧ projected.tid = none ∧
      List.Forall₂ (fun out v => out.expr.evalRow scope row = .ok v) outputs projected.values := by
  obtain ⟨vs, hvs, hmake⟩ := bind_eq_ok.1 h
  obtain ⟨hcolumns, hvalues, htid⟩ := Row.make_eq_ok hmake
  rw [hvalues]
  exact ⟨hcolumns, htid, List.forall₂_map_left_iff.1 (mapM_eq_ok.1 hvs)⟩

/-- What an expression gives on the row of a projection, its expressions in the place of references
to the outputs give on the row below, value or failure, if no outer reference is taken for a column
there. -/
theorem Stage.evalRow_unproject (scope : Scope)
    (hrow : Output.compute scope outputs row = .ok projected)
    (hfree : e.capturesOuter (outputs.map Output.column) row.columns = .ok false)
    (he : unproject outputs e = .ok e') : e'.evalRow scope row = e.evalRow scope projected := by
  obtain ⟨hcolumns, -, hvalues⟩ := Output.compute_eq_ok hrow
  refine Expr.evalWith_subst he fun r hr e₀ he₀ => ?_
  rcases outputExpr_eq_ok he₀ with ⟨i, out, hi, hout, rfl⟩ | ⟨hnone, rfl⟩
  · rw [← hcolumns] at hi
    obtain ⟨v, hv⟩ := Row.exists_value hi
    rw [Scope.lookup_push_of_some hi hv]
    obtain ⟨hi₁, rfl⟩ := List.getElem?_eq_some_iff.1 hout
    obtain ⟨hi₂, rfl⟩ := List.getElem?_eq_some_iff.1 hv
    exact hvalues.get hi₁ hi₂
  · rcases Expr.capturesOuter_eq_false.1 hfree r hr with ⟨i, hi⟩ | ⟨-, hbelow⟩
    · simp [hnone] at hi
    · rw [← hcolumns] at hnone
      rw [Scope.lookup_push_of_none hnone]
      exact Scope.lookup_push_of_none hbelow

/-- Two columns exchanged and a third computed from them, beside a reference to an outer row: the
substitution is simultaneous, in a value and in a failure. -/
theorem Stage.evalRow_unproject_exchanged :
    let row : Row := ⟨[⟨some "t", "a", .int, false⟩, ⟨some "t", "b", .int, false⟩],
      [.int 3, .int 5], some 0, rfl⟩
    let sum := Expr.binary (.arith .add) (.column "t.a") (.column "t.b")
    let outputs : List Output := [⟨⟨some "t", "b", .int, false⟩, .column "t.a"⟩,
      ⟨⟨some "t", "a", .int, false⟩, .column "t.b"⟩, ⟨⟨none, "s", .int, false⟩, sum⟩]
    let projected : Row := ⟨outputs.map Output.column, [.int 3, .int 5, .int 8], none, rfl⟩
    let outer : Row := ⟨[⟨some "o", "z", .int, false⟩], [.int 5], none, rfl⟩
    let e := Expr.binary (.cmp .lt) (.binary (.arith .sub) (.column "b") (.column "s"))
      (.binary (.arith .div) (.column "s")
        (.binary (.arith .sub) (.column "t.a") (.column "o.z")))
    let e' := Expr.binary (.cmp .lt) (.binary (.arith .sub) (.column "t.a") sum)
      (.binary (.arith .div) sum (.binary (.arith .sub) (.column "t.b") (.column "o.z")))
    Output.compute ⟨[outer]⟩ outputs row = .ok projected ∧
      e.capturesOuter (outputs.map Output.column) row.columns = .ok false ∧
      unproject outputs e = .ok e' ∧
      e.evalRow ⟨[outer]⟩ projected = .error .divisionByZero ∧
      e'.evalRow ⟨[outer]⟩ row = .error .divisionByZero := by
  intro row sum outputs projected outer e e'
  have hrow : Output.compute ⟨[outer]⟩ outputs row = .ok projected := by decide
  have hfree : e.capturesOuter (outputs.map Output.column) row.columns = .ok false := by decide
  have he : unproject outputs e = .ok e' := by decide
  have hfail : e.evalRow ⟨[outer]⟩ projected = .error .divisionByZero := by decide
  exact ⟨hrow, hfree, he, hfail, (evalRow_unproject ⟨[outer]⟩ hrow hfree he).trans hfail⟩

end

/-! ### Renaming -/

section

variable {row row' : Row} {r : ColumnRef} {e e' e₀ : Expr} {scope : Scope}

/-- The error is that the full name of one of the columns means another one too. -/
def Clashes (columns : List Column) (cause : QueryError) : Prop :=
  ∃ c ∈ columns, resolve columns c.ref = .error cause

/-- A renamed reference has the value at the same position, unless its new name clashes. -/
theorem eqUnless_renameRef (hvalues : row'.values = row.values)
    (hr : (∃ i, resolve row.columns r = .ok (some i)) ∨
      (resolve row.columns r = .ok none ∧ resolve row'.columns r = .ok none))
    (h : renameRef row.columns row'.columns r = .ok e₀) :
    EqUnless (Clashes row'.columns) (e₀.evalWith (scope.push row').lookup)
      ((scope.push row).lookup r) := by
  rcases hr with ⟨i, hi⟩ | ⟨hs, ht⟩
  · obtain ⟨v, hv⟩ := Row.exists_value hi
    have hlen : i < row'.columns.length := by
      rw [← row'.aligned, hvalues, row.aligned]
      exact lt_of_resolve hi
    obtain ⟨c, hc⟩ : ∃ c, row'.columns[i]? = some c := ⟨_, List.getElem?_eq_getElem hlen⟩
    obtain rfl : Expr.ref c.ref = e₀ := by simpa [renameRef, hi, hc] using h
    rw [Scope.lookup_push_of_some hi hv]
    rcases hres : resolve row'.columns c.ref with cause | (_ | j)
    · exact .inr ⟨cause, ⟨c, List.mem_of_getElem? hc, hres⟩, Scope.lookup_push_of_error hres⟩
    · exact absurd hres (resolve_ref_ne_none hc)
    · obtain rfl := eq_of_resolve_ref hres hc
      exact .inl (Scope.lookup_push_of_some hres (hvalues ▸ hv))
  · obtain rfl : Expr.ref r = e₀ := by simpa [renameRef, hs] using h
    exact .inl ((Scope.lookup_push_of_none ht).trans (Scope.lookup_push_of_none hs).symm)

theorem Expr.evalRow_qualify (h : e.qualify row.columns = .ok e') :
    e'.evalRow scope row = e.evalRow scope row := by
  refine evalWith_subst h fun r hr e₀ he₀ => ?_
  rcases renameRef_eq_ok.1 he₀ with ⟨i, c, hi, hc, rfl⟩ | ⟨i, -, -, rfl⟩ | ⟨-, rfl⟩
  · obtain ⟨v, hv⟩ := Row.exists_value hi
    rw [Scope.lookup_push_of_some hi hv]
    exact Scope.lookup_push_of_some (resolve_ref hi hc) hv
  · rfl
  · rfl

/-- The same values under other columns: a renamed expression gives what it gave before, value or
failure, unless it comes to the full name of a new column that means another one too.  Full names
for the columns as they are change nothing, and are kept when they are given again. -/
theorem Expr.evalRow_rename (scope : Scope) (row : Row) (e e' : Expr) :
    (∀ row' : Row, row'.values = row.values → e.rename row.columns row'.columns = .ok e' →
      e.capturesOuter row.columns row'.columns = .ok false →
        e'.evalRow scope row' = e.evalRow scope row ∨
          ∃ c ∈ row'.columns, resolve row'.columns c.ref = .error (.ambiguousColumn c.ref) ∧
            e'.evalRow scope row' = .error (.ambiguousColumn c.ref)) ∧
      (e.qualify row.columns = .ok e' →
        e'.evalRow scope row = e.evalRow scope row ∧ e'.qualify row.columns = .ok e') := by
  refine ⟨fun row' hvalues he hfree => ?_, fun he => ⟨evalRow_qualify he, qualify_qualify he⟩⟩
  have heq : EqUnless (Clashes row'.columns) (e'.evalRow scope row') (e.evalRow scope row) :=
    eqUnless_subst he fun r hr e₀ he₀ =>
      eqUnless_renameRef hvalues (capturesOuter_eq_false.1 hfree r hr) he₀
  refine heq.imp_right ?_
  rintro ⟨cause, ⟨c, hc, hres⟩, heval⟩
  obtain rfl := resolve_eq_error hres
  exact ⟨c, hc, hres, heval⟩

/-- Two columns that exchange their names, beside a reference to an outer row, and two columns that
are given one name, which is ambiguous then. -/
theorem Expr.evalRow_rename_exchanged :
    let columns (r m n : String) : List Column :=
      [⟨some r, m, .int, false⟩, ⟨some r, n, .int, false⟩]
    let row : Row := ⟨columns "t" "a" "b", [.int 3, .int 5], some 0, rfl⟩
    let exchanged : Row := ⟨columns "x" "b" "a", [.int 3, .int 5], none, rfl⟩
    let clashing : Row := ⟨columns "x" "c" "c", [.int 3, .int 5], none, rfl⟩
    let scope : Scope := ⟨[⟨[⟨some "o", "z", .int, false⟩], [.int 5], none, rfl⟩]⟩
    let minus (s : String) := binary (.arith .sub) (column s) (column "o.z")
    (minus "a").capturesOuter row.columns exchanged.columns = .ok false ∧
      (minus "a").rename row.columns exchanged.columns = .ok (minus "x.b") ∧
      (minus "a").evalRow scope row = .ok (.int (-2)) ∧
      (minus "x.b").evalRow scope exchanged = (minus "a").evalRow scope row ∧
      (minus "a").rename row.columns clashing.columns = .ok (minus "x.c") ∧
      (∃ c ∈ clashing.columns, resolve clashing.columns c.ref = .error (.ambiguousColumn c.ref) ∧
        (minus "x.c").evalRow scope clashing = .error (.ambiguousColumn c.ref)) ∧
      (minus "a").qualify row.columns = .ok (minus "t.a") ∧
      (minus "t.a").evalRow scope row = (minus "a").evalRow scope row ∧
      (minus "t.a").qualify row.columns = .ok (minus "t.a") := by
  intro columns row exchanged clashing scope minus
  have hfree : (minus "a").capturesOuter row.columns exchanged.columns = .ok false := by decide
  have hfree' : (minus "a").capturesOuter row.columns clashing.columns = .ok false := by decide
  have he : (minus "a").rename row.columns exchanged.columns = .ok (minus "x.b") := by decide
  have hc : (minus "a").rename row.columns clashing.columns = .ok (minus "x.c") := by decide
  have hq : (minus "a").qualify row.columns = .ok (minus "t.a") := by decide
  have hsame := (evalRow_rename scope row (minus "a") (minus "x.b")).1 exchanged rfl he hfree
  have hclash := (evalRow_rename scope row (minus "a") (minus "x.c")).1 clashing rfl hc hfree'
  obtain ⟨hvalue, hagain⟩ := (evalRow_rename scope row (minus "a") (minus "t.a")).2 hq
  exact ⟨hfree, he, by decide, hsame.resolve_right (by decide), hc, hclash.resolve_left (by decide),
    hq, hvalue, hagain⟩

end

end RelPlan

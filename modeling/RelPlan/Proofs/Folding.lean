import RelPlan.Proofs.FilterSets

/-!
# Folding keeps values

Folding evaluates operators on constants, and lets an operand stand for an `AND` or `OR` where the
other one is a constant.  The folded expression may have a value where the expression fails, but
never another value (`Expr.Refines`).  What folding leaves behind is not folded any further, and
`Expr.fold_sound` puts both together with the references that remain.
-/

namespace RelPlan

/-- The connective that one operand `b` decides: `AND` for false, `OR` for true. -/
def BinaryOp.decidedBy : Bool → BinaryOp
  | false => and
  | true => or

/-- What the connective decided by `b` makes of two truth values. -/
def truthDecidedBy : Bool → Option Bool → Option Bool → Option Bool
  | false => truthAnd
  | true => truthOr

section

variable {b : Bool} {s t : Option Bool}

@[simp] theorem truthDecidedBy_right : truthDecidedBy b s (some b) = some b := by
  rcases s with _ | _ | _ <;> cases b <;> rfl

@[simp] theorem truthDecidedBy_neutral_left : truthDecidedBy b (some !b) t = t := by
  rcases t with _ | _ | _ <;> cases b <;> rfl

@[simp] theorem truthDecidedBy_neutral_right : truthDecidedBy b s (some !b) = s := by
  rcases s with _ | _ | _ <;> cases b <;> rfl

end

namespace Expr

variable {d e l r l' r' : Expr} {op : BinaryOp} {v : Value} {b : Bool} {s : Option Bool}
  {env : ColumnRef → Result Value}

theorem truth_of_const (h : (const (.bool b)).evalWith env = .ok (.ofTruth s)) : s = some b := by
  rcases s with _ | _ | _ <;> cases h <;> rfl

theorem bind_truth_eq_ok {x : Result Value} {f : Option Bool → Result Value} :
    (x >>= fun a => a.truth >>= f) = .ok v ↔ ∃ s, x = .ok (.ofTruth s) ∧ f s = .ok v := by
  simp only [Result.bind_eq_ok, Value.truth_eq_ok]
  constructor
  · rintro ⟨_, hx, s, rfl, h⟩
    exact ⟨s, hx, h⟩
  · rintro ⟨s, hx, h⟩
    exact ⟨_, hx, s, rfl, h⟩

theorem evalWith_decidedBy (b : Bool) : (binary (.decidedBy b) l r).evalWith env = .ok v ↔
    ∃ s, l.evalWith env = .ok (.ofTruth s) ∧
      ((s = some b ∧ .bool b = v) ∨
        (s ≠ some b ∧ ∃ t, r.evalWith env = .ok (.ofTruth t) ∧
          .ofTruth (truthDecidedBy b s t) = v)) := by
  cases b <;>
  · simp only [BinaryOp.decidedBy, truthDecidedBy, evalWith, bind_truth_eq_ok]
    refine exists_congr fun s => and_congr_right fun _ => ?_
    split
    · next hs => simp [hs]
    · next hs => simp [hs, bind_truth_eq_ok]

/-- A connective with a value and a constant operand has the value of that operand if it decides,
and of the other one if it does not. -/
theorem evalWith_decidedBy_const (hv : (binary (.decidedBy b) l r).evalWith env = .ok v) :
    (l = const (.bool b) ∨ r = const (.bool b) → .bool b = v) ∧
      (l = const (.bool !b) → r.evalWith env = .ok v) ∧
      (r = const (.bool !b) → l.evalWith env = .ok v) := by
  obtain ⟨s, hs, ⟨rfl, rfl⟩ | ⟨hne, t, ht, rfl⟩⟩ := (evalWith_decidedBy b).1 hv
  · refine ⟨fun _ => rfl, ?_, fun _ => hs⟩
    rintro rfl
    cases b <;> cases hs
  · refine ⟨?_, ?_, ?_⟩
    · rintro (rfl | rfl)
      · exact absurd (truth_of_const hs) hne
      · rw [truth_of_const ht, truthDecidedBy_right]; rfl
    · rintro rfl
      rw [ht, truth_of_const hs, truthDecidedBy_neutral_left]
    · rintro rfl
      rw [hs, truth_of_const ht, truthDecidedBy_neutral_right]

/-- `d` has every value that `e` has. -/
def Refines (d e : Expr) : Prop := ∀ env v, e.evalWith env = .ok v → d.evalWith env = .ok v

namespace Refines

theorem refl (e : Expr) : e.Refines e := fun _ _ h => h

theorem trans (hde : d.Refines e) (hel : e.Refines l) : d.Refines l :=
  fun env v h => hde env v (hel env v h)

theorem unary (h : d.Refines e) (op : UnaryOp) : (unary op d).Refines (unary op e) := by
  intro env v hv
  obtain ⟨a, ha, hv⟩ := Result.bind_eq_ok.1 hv
  exact Result.bind_eq_ok.2 ⟨a, h env a ha, hv⟩

theorem decidedBy (hl : l'.Refines l) (hr : r'.Refines r) (b : Bool) :
    (binary (.decidedBy b) l' r').Refines (binary (.decidedBy b) l r) := by
  intro env v hv
  obtain ⟨s, hs, h⟩ := (evalWith_decidedBy b).1 hv
  refine (evalWith_decidedBy b).2 ⟨s, hl env _ hs, h.imp_right ?_⟩
  rintro ⟨hne, t, ht, rfl⟩
  exact ⟨hne, t, hr env _ ht, rfl⟩

theorem binary (hl : l'.Refines l) (hr : r'.Refines r) (op : BinaryOp) :
    (binary op l' r').Refines (binary op l r) := by
  rcases op with _ | _ | c | a | _
  · exact hl.decidedBy hr false
  · exact hl.decidedBy hr true
  -- The other operators evaluate both operands.
  all_goals
    intro env v hv
    obtain ⟨a, ha, hv⟩ := Result.bind_eq_ok.1 hv
    obtain ⟨b, hb, hv⟩ := Result.bind_eq_ok.1 hv
    exact Result.bind_eq_ok.2 ⟨a, hl env a ha, Result.bind_eq_ok.2 ⟨b, hr env b hb, hv⟩⟩

end Refines

/-! ### Values of folded expressions -/

/-- What evaluates without references evaluates alike everywhere. -/
theorem evalWith_foldConst (h : e.refs = []) : e.foldConst.evalWith env = e.evalWith env := by
  have heval : e.eval .empty = e.evalWith env := evalWith_congr (by simp [h])
  unfold foldConst
  split
  · next v hv => rw [← heval, hv]; rfl
  · rfl

theorem refines_foldUnary (op : UnaryOp) (e : Expr) : (foldUnary op e).Refines (unary op e) := by
  intro env v hv
  unfold foldUnary
  split
  · next h =>
    obtain ⟨a, rfl⟩ := eq_const_of_isConst h
    rw [evalWith_foldConst rfl, hv]
  · exact hv

/-- A binary operator over folded operands, short cuts aside. -/
def foldConsts (op : BinaryOp) (l r : Expr) : Expr :=
  if l.isConst && r.isConst then (binary op l r).foldConst else binary op l r

theorem refines_foldConsts (op : BinaryOp) (l r : Expr) :
    (foldConsts op l r).Refines (binary op l r) := by
  intro env v hv
  unfold foldConsts
  split
  · next h =>
    obtain ⟨hl, hr⟩ := (Bool.and_eq_true ..).mp h
    obtain ⟨a, rfl⟩ := eq_const_of_isConst hl
    obtain ⟨b, rfl⟩ := eq_const_of_isConst hr
    rw [evalWith_foldConst rfl, hv]
  · exact hv

theorem foldBinary_decidedBy (b : Bool) (l r : Expr) : foldBinary (.decidedBy b) l r =
    if l.isTruth b || r.isTruth b then const (.bool b)
    else if l.isTruth !b then r
    else if r.isTruth !b then l
    else foldConsts (.decidedBy b) l r := by
  cases b <;> rfl

theorem refines_foldBinary_decidedBy (b : Bool) (l r : Expr) :
    (foldBinary (.decidedBy b) l r).Refines (binary (.decidedBy b) l r) := by
  intro env v hv
  obtain ⟨hdecided, hleft, hright⟩ := evalWith_decidedBy_const hv
  rw [foldBinary_decidedBy]
  split
  · next h =>
    exact congrArg _ (hdecided (((Bool.or_eq_true ..).mp h).imp eq_of_isTruth eq_of_isTruth))
  split
  · next h => exact hleft (eq_of_isTruth h)
  split
  · next h => exact hright (eq_of_isTruth h)
  · exact refines_foldConsts _ l r env v hv

theorem refines_foldBinary (op : BinaryOp) (l r : Expr) :
    (foldBinary op l r).Refines (binary op l r) := by
  rcases op with _ | _ | c | a | _
  · exact refines_foldBinary_decidedBy false l r
  · exact refines_foldBinary_decidedBy true l r
  all_goals exact refines_foldConsts _ l r

theorem refines_fold (e : Expr) : e.fold.Refines e := by
  induction e with
  | const | ref => exact .refl _
  | unary op e ih => exact (refines_foldUnary op e.fold).trans (ih.unary op)
  | binary op l r ihl ihr => exact (refines_foldBinary op l.fold r.fold).trans (ihl.binary ihr op)

/-! ### Folding twice -/

@[simp] theorem fold_const (v : Value) : (const v).fold = const v := rfl

theorem foldConst_eq (e : Expr) : e.foldConst = e ∨ ∃ v, e.foldConst = const v := by
  unfold foldConst
  split
  · exact .inr ⟨_, rfl⟩
  · exact .inl rfl

theorem foldUnary_eq (op : UnaryOp) (e : Expr) :
    foldUnary op e = unary op e ∨ ∃ v, foldUnary op e = const v := by
  unfold foldUnary
  split
  · exact foldConst_eq _
  · exact .inl rfl

theorem foldConsts_eq (op : BinaryOp) (l r : Expr) :
    foldConsts op l r = binary op l r ∨ ∃ v, foldConsts op l r = const v := by
  unfold foldConsts
  split
  · exact foldConst_eq _
  · exact .inl rfl

theorem foldBinary_decidedBy_eq (b : Bool) (l r : Expr) :
    foldBinary (.decidedBy b) l r = binary (.decidedBy b) l r ∨
      (∃ v, foldBinary (.decidedBy b) l r = const v) ∨
      foldBinary (.decidedBy b) l r = l ∨ foldBinary (.decidedBy b) l r = r := by
  rw [foldBinary_decidedBy]
  split
  · exact .inr (.inl ⟨_, rfl⟩)
  split
  · exact .inr (.inr (.inr rfl))
  split
  · exact .inr (.inr (.inl rfl))
  · exact (foldConsts_eq _ l r).imp_right .inl

theorem foldBinary_eq (op : BinaryOp) (l r : Expr) :
    foldBinary op l r = binary op l r ∨ (∃ v, foldBinary op l r = const v) ∨
      foldBinary op l r = l ∨ foldBinary op l r = r := by
  rcases op with _ | _ | c | a | _
  · exact foldBinary_decidedBy_eq false l r
  · exact foldBinary_decidedBy_eq true l r
  all_goals exact (foldConsts_eq _ l r).imp_right .inl

/-- An operator that was left alone on folded operands is left alone again. -/
theorem fold_fold (e : Expr) : e.fold.fold = e.fold := by
  induction e with
  | const | ref => rfl
  | unary op e ih =>
    rw [fold]
    rcases foldUnary_eq op e.fold with h | ⟨v, h⟩
    · rw [h, fold, ih, h]
    · rw [h, fold_const]
  | binary op l r ihl ihr =>
    rw [fold]
    rcases foldBinary_eq op l.fold r.fold with h | ⟨v, h⟩ | h | h
    · rw [h, fold, ihl, ihr, h]
    · rw [h, fold_const]
    · rw [h, ihl]
    · rw [h, ihr]

/-- The folded expression has the values of the expression, in every scope and on every row of it,
refers to nothing else, and is not folded any further. -/
theorem fold_sound (e : Expr) :
    (∀ scope v, e.eval scope = .ok v → e.fold.eval scope = .ok v) ∧
      (∀ scope row v, e.evalRow scope row = .ok v → e.fold.evalRow scope row = .ok v) ∧
      (∀ r ∈ e.fold.freeRefs, r ∈ e.freeRefs) ∧
      e.fold.fold = e.fold := by
  refine ⟨?_, ?_, ?_, fold_fold e⟩
  · intro scope v hv
    exact refines_fold e scope.lookup v hv
  · intro scope row v hv
    exact refines_fold e (scope.push row).lookup v hv
  · intro r hr
    exact List.mem_eraseDups.2 (refs_fold e (List.mem_eraseDups.1 hr))

/-- A quotient that has no value and is never reached, beside a comparison and a decided `OR`. -/
def unreachedQuotient : Expr :=
  .and
    (binary .or
      (binary (.cmp .gt) (ref ⟨none, "x"⟩)
        (binary (.arith .add) (const (.int 1)) (const (.int 2))))
      (binary (.cmp .eq) (binary (.arith .div) (const (.int 1)) (const (.int 0)))
        (const (.int 1))))
    (binary .or (binary (.cmp .eq) (ref ⟨some "t", "y"⟩) (const .null)) (const (.bool true)))

theorem fold_sound_unreached :
    let row : Row := ⟨[⟨none, "x", .int, false⟩], [.int 7], none, rfl⟩
    let outer : Row := ⟨[⟨some "t", "y", .int, false⟩], [.int 0], none, rfl⟩
    let e := unreachedQuotient
    e.fold ≠ e ∧ e.fold.isConst = false ∧
      e.evalRow ⟨[outer]⟩ row = .ok (.bool true) ∧ e.eval ⟨[row, outer]⟩ = .ok (.bool true) ∧
      e.fold.evalRow ⟨[outer]⟩ row = .ok (.bool true) ∧
      e.fold.eval ⟨[row, outer]⟩ = .ok (.bool true) ∧
      ⟨none, "x"⟩ ∈ e.fold.freeRefs ∧ ⟨none, "x"⟩ ∈ e.freeRefs ∧ e.fold.fold = e.fold := by
  intro row outer e
  obtain ⟨hscope, hrow, hrefs, hfold⟩ := fold_sound e
  have heval : e.eval ⟨[row, outer]⟩ = .ok (.bool true) := by decide
  have hx : ⟨none, "x"⟩ ∈ e.fold.freeRefs := by decide
  exact ⟨by decide, by decide, heval, heval, hrow _ _ _ heval, hscope _ _ heval, hx, hrefs _ hx,
    hfold⟩

end Expr

end RelPlan

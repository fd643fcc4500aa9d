import RelPlan.Proofs.Worth

/-!
# Operands in another order

Equivalent expressions have one worth, so where both have a value they have the same one
(`Expr.eval_eq_of_equiv`).  One of them may fail where the other has a value, since `AND` and `OR`
can leave their right operand alone.  Where neither occurs, they are evaluated alike
(`Expr.evalWith_of_equiv`).
-/

namespace RelPlan

variable {d e : Expr} {v : Value} {c : Comparison}

theorem Value.compareSql_swap (a b : Value) {o : Option Ordering} (h : a.compareSql b = .ok o) :
    b.compareSql a = .ok (o.map Ordering.swap) := by
  unfold compareSql at h ⊢
  rw [Bool.or_comm]
  split at h
  · next hnull => cases h; simp [hnull]
  · next hnull =>
    split at h <;> cases h
    next hrank => simp [hnull, hrank, order_swap]

theorem Comparison.apply_flip {c : Comparison} {a b : Value} (h : c.flip.apply a b = .ok v) :
    c.apply b a = .ok v := by
  obtain ⟨o, ho, h⟩ := Result.bind_eq_ok.1 h
  cases h
  have hswap := Value.compareSql_swap a b ho
  cases o with
  | none => simp [apply, hswap]
  | some o => simp [apply, hswap, ← c.holds_flip o.swap]

theorem Comparison.apply_of_rank_eq {a b : Value} (ha : a.isNull = false) (hb : b.isNull = false)
    (hr : a.rank = b.rank) : c.apply a b = .ok (.bool (c.holds (a.order b))) := by
  simp [apply, Value.compareSql, ha, hb, hr, Value.ofTruth]

theorem Comparison.apply_of_rank_ne {a b : Value} (ha : a.isNull = false) (hb : b.isNull = false)
    (hr : a.rank ≠ b.rank) :
    c.apply a b = .error (.typeMismatch .comparison a.dataType b.dataType) := by
  simp [apply, Value.compareSql, ha, hb, hr]

/-- Whether the operator may leave its right operand alone. -/
def BinaryOp.connects : BinaryOp → Bool
  | and | or => true
  | _ => false

/-- What an operator makes of the values of both operands. -/
def BinaryOp.apply (op : BinaryOp) (a b : Value) : Result Value :=
  match op with
  | and => return .ofTruth (truthAnd (← a.truth) (← b.truth))
  | or => return .ofTruth (truthOr (← a.truth) (← b.truth))
  | cmp c => c.apply a b
  | arith op => op.apply a b
  | distinct => .ok (.bool !(a.same b))

theorem BinaryOp.apply_flip {op op' : BinaryOp} (hplain : op.connects = false)
    (hop : op.flip? = some op') {a b : Value} (h : op'.apply b a = .ok v) :
    op.apply a b = .ok v := by
  cases op with
  | and | or => cases hplain
  | cmp c => cases hop; exact Comparison.apply_flip h
  | arith op =>
    obtain ⟨hcomm, rfl⟩ := flip?_arith.1 hop
    exact Expr.toOption_eq_some.1 ((Arith.apply_comm a b hcomm).trans (Expr.toOption_eq_some.2 h))
  | distinct => cases hop; rw [← h, apply, apply, Value.same_symm]

namespace Expr

/-- An `AND` or `OR`, which may leave its right operand alone, occurs in the expression. -/
def connects : Expr → Bool
  | const _ | ref _ => false
  | unary _ e => e.connects
  | binary .and _ _ | binary .or _ _ => true
  | binary _ l r => l.connects || r.connects

theorem connects_binary {op : BinaryOp} {l r : Expr} :
    (binary op l r).connects = (op.connects || l.connects || r.connects) := by
  cases op <;> rfl

theorem evalWith_binary {env : ColumnRef → Result Value} {op : BinaryOp} {l r : Expr}
    (hplain : op.connects = false) : (binary op l r).evalWith env =
      (l.evalWith env >>= fun a => r.evalWith env >>= fun b => op.apply a b) := by
  cases op <;> first | rfl | cases hplain

/-- Where every operand is evaluated, it does not matter in which order they are written. -/
theorem evalWith_of_equiv {env : ColumnRef → Result Value} (hde : d.equiv e)
    (hplain : e.connects = false) (h : e.evalWith env = .ok v) : d.evalWith env = .ok v := by
  induction d generalizing e v with
  | const => obtain rfl := const_equiv.1 hde; exact h
  | ref => obtain rfl := ref_equiv.1 hde; exact h
  | unary op a ih =>
    obtain ⟨a', rfl, ha⟩ := unary_equiv.1 hde
    obtain ⟨w, hw, h⟩ := Result.bind_eq_ok.1 h
    exact Result.bind_eq_ok.2 ⟨w, ih ha hplain hw, h⟩
  | binary op a b iha ihb =>
    rcases binary_equiv.1 hde with ⟨a', b', rfl, ha, hb⟩ | ⟨op', a', b', rfl, hop, ha, hb⟩
    · simp only [connects_binary, Bool.or_eq_false_iff, and_assoc] at hplain
      obtain ⟨hplain, hpa, hpb⟩ := hplain
      rw [evalWith_binary hplain] at h ⊢
      obtain ⟨x, hx, h⟩ := Result.bind_eq_ok.1 h
      obtain ⟨y, hy, h⟩ := Result.bind_eq_ok.1 h
      simp only [iha ha hpa hx, ihb hb hpb hy, Result.ok_bind, h]
    · simp only [connects_binary, Bool.or_eq_false_iff, and_assoc] at hplain
      obtain ⟨hplain, hpb, hpa⟩ := hplain
      have hplain' : op.connects = false := by
        rcases op with _ | _ | _ | _ | _ <;> first | rfl | (cases hop; exact hplain)
      rw [evalWith_binary hplain] at h
      rw [evalWith_binary hplain']
      obtain ⟨y, hy, h⟩ := Result.bind_eq_ok.1 h
      obtain ⟨x, hx, h⟩ := Result.bind_eq_ok.1 h
      simp only [iha ha hpa hx, ihb hb hpb hy, Result.ok_bind, BinaryOp.apply_flip hplain' hop h]

/-- A value is the worth, and equivalent expressions have one worth. -/
theorem evalWith_eq_of_equiv {env : ColumnRef → Result Value} {w : Value} (hde : d.equiv e)
    (hv : d.evalWith env = .ok v) (hw : e.evalWith env = .ok w) : v = w := by
  have hworth := worth_eq_of_equiv (fun r => (env r).toOption) hde
  rw [worth_of_evalWith hv, worth_of_evalWith hw] at hworth
  exact Option.some.inj hworth

/-- Where equivalent expressions both have a value, in a scope or on a row inside it, it is the same
one.  Sums and products of binary64 data take part in this, since they commute. -/
theorem eval_eq_of_equiv (hde : d.equiv e) (scope : Scope) :
    (∀ v w, d.eval scope = .ok v → e.eval scope = .ok w → v = w) ∧
      ∀ row v w, d.evalRow scope row = .ok v → e.evalRow scope row = .ok w → v = w :=
  ⟨fun _ _ hv hw => evalWith_eq_of_equiv hde hv hw,
    fun _ _ _ hv hw => evalWith_eq_of_equiv hde hv hw⟩

/-- A sum and a product of data inside a comparison.  The `OR` does not come to its right operand
where the comparison is the left one, and evaluates both, one of them missing, where it is not. -/
theorem eval_eq_of_equiv_data :
    let sum := binary (.arith .add) (column "x") (const (.float ⟨0x3fe0000000000000⟩))
    let sum' := binary (.arith .add) (const (.float ⟨0x3fe0000000000000⟩)) (column "x")
    let d := binary .or
      (binary (.cmp .gt) (binary (.arith .mul) sum (column "o.y")) (const (.int 3))) (column "o.n")
    let e := binary .or (column "o.n")
      (binary (.cmp .lt) (const (.int 3)) (binary (.arith .mul) (column "o.y") sum'))
    let row : Row := ⟨[⟨some "t", "x", .float, false⟩], [.float ⟨0x3ff8000000000000⟩], none, rfl⟩
    let outer : Row := ⟨[⟨some "o", "y", .int, false⟩, ⟨some "o", "n", .bool, false⟩],
      [.int 2, .null], none, rfl⟩
    d.equiv e ∧ d.evalRow ⟨[outer]⟩ row = .ok (.bool true) ∧
      (∃ w, e.evalRow ⟨[outer]⟩ row = .ok w ∧ .bool true = w) ∧
      sum.equiv sum' ∧ sum.eval ⟨[row, outer]⟩ = .ok (.float ⟨0x4000000000000000⟩) ∧
      ∃ w, sum'.eval ⟨[row, outer]⟩ = .ok w ∧ .float ⟨0x4000000000000000⟩ = w := by
  intro sum sum' d e row outer
  have hde : d.equiv e := by decide
  have hsum : sum.equiv sum' := by decide
  have hd : d.evalRow ⟨[outer]⟩ row = .ok (.bool true) := by decide
  have he : e.evalRow ⟨[outer]⟩ row = .ok (.bool true) := by decide
  have hv : sum.eval ⟨[row, outer]⟩ = .ok (.float ⟨0x4000000000000000⟩) := by decide
  have hw : sum'.eval ⟨[row, outer]⟩ = .ok (.float ⟨0x4000000000000000⟩) := by decide
  exact ⟨hde, hd, ⟨_, he, (eval_eq_of_equiv hde ⟨[outer]⟩).2 row _ _ hd he⟩, hsum, hv, _, hw,
    (eval_eq_of_equiv hsum ⟨[row, outer]⟩).1 _ _ hv hw⟩

end Expr

end RelPlan

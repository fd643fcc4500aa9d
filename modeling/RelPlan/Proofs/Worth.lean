import RelPlan.Expr.Fold
import RelPlan.Proofs.Equivalence
import RelPlan.Proofs.Exactness

/-!
# The worth of an expression

Evaluation fails on operands that do not fit, and `AND` and `OR` leave their right operand alone
when the left one decides, so whether an expression has a value depends on how it is written.  Its
worth does not: truth is neutral for `AND` and falsity decides it from either side, and any two
values compare.  A value that evaluation yields is the worth (`worth_of_evalWith`); folding and
exchanging operands keep the worth even where they rescue or lose an evaluation.
-/

namespace RelPlan

/-- What references are worth, if anything. -/
abbrev Env := ColumnRef → Option Value

namespace Env

/-- No reference is worth a binary64 datum. -/
def IsExact (env : Env) : Prop := ∀ r v, env r = some v → v.isExact

end Env

/-- What references are worth in a scope. -/
def Scope.env (scope : Scope) : Env := fun r => (scope.lookup r).toOption

/-- What references are worth on a row, inside a scope. -/
def Row.env (scope : Scope) (row : Row) : Env := (scope.push row).env

/-- Falsity decides, truth is neutral. -/
def worthAnd : Option Value → Option Value → Option Value
  | some (.bool false), _ | _, some (.bool false) => some (.bool false)
  | some (.bool true), y => y
  | x, some (.bool true) => x
  | some .null, some .null => some .null
  | _, _ => none

/-- Truth decides, falsity is neutral. -/
def worthOr : Option Value → Option Value → Option Value
  | some (.bool true), _ | _, some (.bool true) => some (.bool true)
  | some (.bool false), y => y
  | x, some (.bool false) => x
  | some .null, some .null => some .null
  | _, _ => none

/-- Any two values compare. -/
def Comparison.worth (c : Comparison) (a b : Value) : Value :=
  if a.isNull || b.isNull then .null else .bool (c.holds (a.order b))

namespace Expr

def worth (env : Env) : Expr → Option Value
  | const v => some v
  | ref r => env r
  | unary op e => do (op.apply (← e.worth env)).toOption
  | binary .and l r => worthAnd (l.worth env) (r.worth env)
  | binary .or l r => worthOr (l.worth env) (r.worth env)
  | binary (.cmp c) l r => return c.worth (← l.worth env) (← r.worth env)
  | binary (.arith op) l r => do (op.apply (← l.worth env) (← r.worth env)).toOption
  | binary .distinct l r => return .bool !((← l.worth env).same (← r.worth env))

/-- The expression is worth truth. -/
def Passes (env : Env) (e : Expr) : Prop := e.worth env = some (.bool true)

instance (env : Env) (e : Expr) : Decidable (e.Passes env) :=
  inferInstanceAs (Decidable (e.worth env = some (.bool true)))

end Expr

/-- The worth of an operator, of the worth of its operand. -/
def UnaryOp.combine (op : UnaryOp) (x : Option Value) : Option Value :=
  x.bind fun v => (op.apply v).toOption

/-- The worth of an operator, of the worths of its operands. -/
def BinaryOp.combine (op : BinaryOp) (x y : Option Value) : Option Value :=
  match op with
  | .and => worthAnd x y
  | .or => worthOr x y
  | .cmp c => return c.worth (← x) (← y)
  | .arith a => do (a.apply (← x) (← y)).toOption
  | .distinct => return .bool !((← x).same (← y))

theorem Expr.worth_unary (env : Env) (op : UnaryOp) (e : Expr) :
    (unary op e).worth env = op.combine (e.worth env) := rfl

theorem Expr.worth_binary (env : Env) (op : BinaryOp) (l r : Expr) :
    (binary op l r).worth env = op.combine (l.worth env) (r.worth env) := by
  cases op <;> rfl

section
variable {x y : Option Value} {v w : Value} {a b : Option Bool}

theorem worthAnd_comm (x y : Option Value) : worthAnd x y = worthAnd y x := by
  unfold worthAnd
  grind

theorem worthOr_comm (x y : Option Value) : worthOr x y = worthOr y x := by
  unfold worthOr
  grind

@[simp] theorem worthAnd_true_left : worthAnd (some (.bool true)) x = x := by
  unfold worthAnd
  grind

@[simp] theorem worthAnd_false_left : worthAnd (some (.bool false)) x = some (.bool false) := rfl

@[simp] theorem worthOr_false_left : worthOr (some (.bool false)) x = x := by
  unfold worthOr
  grind

@[simp] theorem worthOr_true_left : worthOr (some (.bool true)) x = some (.bool true) := rfl

theorem worthAnd_eq_true : worthAnd x y = some (.bool true) ↔
    x = some (.bool true) ∧ y = some (.bool true) := by
  unfold worthAnd
  grind

theorem Value.truth_eq_ok : v.truth = .ok a ↔ v = ofTruth a := by
  cases v <;> cases a <;> simp [truth, ofTruth]

theorem worthAnd_ofTruth (a b : Option Bool) :
    worthAnd (some (.ofTruth a)) (some (.ofTruth b)) = some (.ofTruth (truthAnd a b)) := by
  rcases a with _ | (_ | _) <;> rcases b with _ | (_ | _) <;> rfl

theorem worthOr_ofTruth (a b : Option Bool) :
    worthOr (some (.ofTruth a)) (some (.ofTruth b)) = some (.ofTruth (truthOr a b)) := by
  rcases a with _ | (_ | _) <;> rcases b with _ | (_ | _) <;> rfl

end

section
variable {x x' y y' : Option Value} {v : Value}

theorem worthAnd_mono (hx : ∀ v, x = some v → x' = some v)
    (hy : ∀ v, y = some v → y' = some v) (h : worthAnd x y = some v) :
    worthAnd x' y' = some v := by
  unfold worthAnd at h
  split at h
  · cases h; rw [hx _ rfl]; rfl
  · cases h; rw [hy _ rfl, worthAnd_comm]; rfl
  · rw [hx _ rfl, worthAnd_true_left, hy _ h]
  · rw [hy _ rfl, worthAnd_comm, worthAnd_true_left, hx _ h]
  · cases h; rw [hx _ rfl, hy _ rfl]; rfl
  · cases h

theorem worthOr_mono (hx : ∀ v, x = some v → x' = some v)
    (hy : ∀ v, y = some v → y' = some v) (h : worthOr x y = some v) :
    worthOr x' y' = some v := by
  unfold worthOr at h
  split at h
  · cases h; rw [hx _ rfl]; rfl
  · cases h; rw [hy _ rfl, worthOr_comm]; rfl
  · rw [hx _ rfl, worthOr_false_left, hy _ h]
  · rw [hy _ rfl, worthOr_comm, worthOr_false_left, hx _ h]
  · cases h; rw [hx _ rfl, hy _ rfl]; rfl
  · cases h

theorem UnaryOp.combine_mono (op : UnaryOp) (hx : ∀ v, x = some v → x' = some v)
    (h : op.combine x = some v) : op.combine x' = some v := by
  obtain ⟨w, hw, h⟩ := Option.bind_eq_some_iff.1 h
  rw [hx w hw]
  exact h

theorem BinaryOp.combine_mono (op : BinaryOp) (hx : ∀ v, x = some v → x' = some v)
    (hy : ∀ v, y = some v → y' = some v) (h : op.combine x y = some v) :
    op.combine x' y' = some v := by
  cases op with
  | and => exact worthAnd_mono hx hy h
  | or => exact worthOr_mono hx hy h
  | cmp | arith | distinct =>
    obtain ⟨a, ha, h⟩ := Option.bind_eq_some_iff.1 h
    obtain ⟨b, hb, h⟩ := Option.bind_eq_some_iff.1 h
    rw [hx a ha, hy b hb]
    exact h

end

theorem Comparison.holds_flip (c : Comparison) (o : Ordering) :
    c.flip.holds o.swap = c.holds o := by
  revert c o
  rintro (_ | _ | _ | _ | _ | _) (_ | _ | _) <;> rfl

theorem Comparison.worth_flip (c : Comparison) (a b : Value) : c.flip.worth b a = c.worth a b := by
  simp only [worth, ← Value.order_swap a b, holds_flip, Bool.or_comm b.isNull]

theorem Comparison.worth_eq_true {c : Comparison} {v w : Value} : c.worth v w = .bool true ↔
    v.isNull = false ∧ w.isNull = false ∧ c.holds (v.order w) := by
  unfold worth
  cases hv : v.isNull <;> cases hw : w.isNull <;> simp

theorem Comparison.worth_of_apply {c : Comparison} {a b v : Value} (h : c.apply a b = .ok v) :
    c.worth a b = v := by
  obtain ⟨o, ho, h⟩ := Result.bind_eq_ok.1 h
  cases h
  unfold Value.compareSql at ho
  unfold worth
  split at ho
  · next hnull => cases ho; simp [hnull, Value.ofTruth]
  · next hnull =>
    split at ho <;> cases ho
    simp [hnull, Value.ofTruth]

section
open Float.Model UnpackedFloat

theorem Binary64.add_comm (x y : Binary64) : x.add y = y.add x := by
  have hcomm (a b : UnpackedFloat) :
      UnpackedFloat.add .binary64 a b = UnpackedFloat.add .binary64 b a := by
    rcases a with s | _ | s | ⟨s, m, n, _⟩ <;> rcases b with s' | _ | s' | ⟨s', m', n', _⟩ <;>
      try rfl
    · cases s <;> cases s' <;> rfl
    · cases s <;> cases s' <;> rfl
    · show normalize .binary64 (s.apply (decreaseExponent m n (min n n')).1 +
          s'.apply (decreaseExponent m' n' (min n n')).1) (min n n') .positive =
        normalize .binary64 (s'.apply (decreaseExponent m' n' (min n' n)).1 +
          s.apply (decreaseExponent m n (min n' n)).1) (min n' n) .positive
      rw [Int.min_comm n n', Int.add_comm]
  exact congrArg (fun a => Binary64.mk (Float.ofModel (.pack a)).toBits) (hcomm _ _)

theorem Binary64.mul_comm (x y : Binary64) : x.mul y = y.mul x := by
  have hsign (s s' : Sign) : s * s' = s' * s := by cases s <;> cases s' <;> rfl
  have hcomm (a b : UnpackedFloat) :
      UnpackedFloat.mul .binary64 a b = UnpackedFloat.mul .binary64 b a := by
    rcases a with s | _ | s | ⟨s, m, n, _⟩ <;> rcases b with s' | _ | s' | ⟨s', m', n', _⟩ <;>
      try rfl
    case finite.finite =>
      show roundWithAccuracy .binary64 (s * s') (m * m') (n + n') .exact =
        roundWithAccuracy .binary64 (s' * s) (m' * m) (n' + n) .exact
      rw [hsign, Nat.mul_comm, Int.add_comm]
    case infinity.infinity | infinity.finite | finite.infinity =>
      exact congrArg infinity (hsign s s')
    case zero.zero | zero.finite | finite.zero => exact congrArg zero (hsign s s')
  exact congrArg (fun a => Binary64.mk (Float.ofModel (.pack a)).toBits) (hcomm _ _)

end

theorem Arith.apply_comm (a b : Value) {op : Arith} (hop : op = .add ∨ op = .mul) :
    (op.apply a b).toOption = (op.apply b a).toOption := by
  rcases hop with rfl | rfl <;> cases a <;> cases b <;>
    simp [apply, Value.toBinary64?, applyInt, applyBinary64, Except.toOption, Int.add_comm,
      Int.mul_comm, Binary64.add_comm, Binary64.mul_comm]

theorem BinaryOp.combine_flip {op op' : BinaryOp} (hop : op.flip? = some op')
    (x y : Option Value) : op'.combine y x = op.combine x y := by
  rcases op with _ | _ | c | a | _
  · cases hop; exact worthAnd_comm y x
  · cases hop; exact worthOr_comm y x
  · cases hop
    cases x <;> cases y <;> simp [combine, Comparison.worth_flip]
  · obtain ⟨ha, rfl⟩ := flip?_arith.1 hop
    cases x <;> cases y <;> try rfl
    exact Arith.apply_comm _ _ ha
  · cases hop
    cases x <;> cases y <;> simp [combine, Value.same_symm]

namespace Expr

variable {env env' : Env} {e e' : Expr} {v : Value}

/-! ### Evaluation -/

theorem toOption_eq_some {α : Type} {x : Result α} {a : α} : x.toOption = some a ↔ x = .ok a := by
  cases x <;> simp [Except.toOption]

/-- What evaluation yields is the worth. -/
theorem worth_of_evalWith {lookup : ColumnRef → Result Value} (h : e.evalWith lookup = .ok v) :
    e.worth (fun r => (lookup r).toOption) = some v := by
  fun_induction evalWith lookup e generalizing v with
  | case1 w => cases h; rfl
  | case2 r => simp [worth, h, Except.toOption]
  | case3 op e ih =>
    obtain ⟨w, hw, h⟩ := Result.bind_eq_ok.1 h
    rw [worth, ih hw]
    exact toOption_eq_some.2 h
  | case4 l r ihl ihr =>
    obtain ⟨w, hw, h⟩ := Result.bind_eq_ok.1 h
    obtain ⟨a, ha, h⟩ := Result.bind_eq_ok.1 h
    rw [worth, ihl hw, Value.truth_eq_ok.1 ha]
    split at h
    · next hdecides => cases h; simp [hdecides, Value.ofTruth]
    · obtain ⟨w', hw', h⟩ := Result.bind_eq_ok.1 h
      obtain ⟨b, hb, h⟩ := Result.bind_eq_ok.1 h
      cases h
      rw [ihr hw', Value.truth_eq_ok.1 hb, worthAnd_ofTruth]
  | case5 l r ihl ihr =>
    obtain ⟨w, hw, h⟩ := Result.bind_eq_ok.1 h
    obtain ⟨a, ha, h⟩ := Result.bind_eq_ok.1 h
    rw [worth, ihl hw, Value.truth_eq_ok.1 ha]
    split at h
    · next hdecides => cases h; simp [hdecides, Value.ofTruth]
    · obtain ⟨w', hw', h⟩ := Result.bind_eq_ok.1 h
      obtain ⟨b, hb, h⟩ := Result.bind_eq_ok.1 h
      cases h
      rw [ihr hw', Value.truth_eq_ok.1 hb, worthOr_ofTruth]
  | case6 c l r ihl ihr =>
    obtain ⟨a, ha, h⟩ := Result.bind_eq_ok.1 h
    obtain ⟨b, hb, h⟩ := Result.bind_eq_ok.1 h
    simp [worth, ihl ha, ihr hb, Comparison.worth_of_apply h]
  | case7 op l r ihl ihr =>
    obtain ⟨a, ha, h⟩ := Result.bind_eq_ok.1 h
    obtain ⟨b, hb, h⟩ := Result.bind_eq_ok.1 h
    rw [worth, ihl ha, ihr hb]
    exact toOption_eq_some.2 h
  | case8 l r ihl ihr =>
    obtain ⟨a, ha, h⟩ := Result.bind_eq_ok.1 h
    obtain ⟨b, hb, h⟩ := Result.bind_eq_ok.1 h
    cases h
    simp [worth, ihl ha, ihr hb]

theorem worth_of_eval {scope : Scope} (h : e.eval scope = .ok v) : e.worth scope.env = some v :=
  worth_of_evalWith h

theorem worth_of_evalRow {scope : Scope} {row : Row} (h : e.evalRow scope row = .ok v) :
    e.worth (row.env scope) = some v :=
  worth_of_evalWith h

theorem passes_iff_of_evalRow {scope : Scope} {row : Row} (h : e.evalRow scope row = .ok v) :
    e.Passes (row.env scope) ↔ e.evalRow scope row = .ok (.bool true) := by
  rw [Passes, worth_of_evalRow h, h]
  simp

theorem passes_iff_of_holds {scope : Scope} {row : Row} {b : Bool}
    (h : e.holds scope row = .ok b) : e.Passes (row.env scope) ↔ b = true := by
  obtain ⟨v, hv, h⟩ := Result.bind_eq_ok.1 h
  obtain ⟨a, ha, h⟩ := Result.bind_eq_ok.1 h
  cases h
  rw [Passes, worth_of_evalRow hv, Value.truth_eq_ok.1 ha]
  rcases a with _ | (_ | _) <;> simp [Value.ofTruth]

theorem worth_congr (h : ∀ r ∈ e.refs, env r = env' r) : e.worth env = e.worth env' := by
  fun_induction worth env e with
  | case1 v => rfl
  | case2 r => exact h r (by simp [refs])
  | case3 op e ih => rw [worth, ih h]
  | case4 l r ihl ihr | case5 l r ihl ihr | case6 _ l r ihl ihr | case7 _ l r ihl ihr
  | case8 l r ihl ihr =>
    simp only [refs, List.mem_append] at h
    rw [worth, ihl fun x hx => h x (.inl hx), ihr fun x hx => h x (.inr hx)]

/-- References that are worth something more keep the worth that there is. -/
theorem worth_mono (hle : ∀ r v, env r = some v → env' r = some v) (h : e.worth env = some v) :
    e.worth env' = some v := by
  induction e generalizing v with
  | const w => exact h
  | ref r => exact hle r v h
  | unary op e ih =>
    rw [worth_unary] at h ⊢
    exact op.combine_mono (fun _ => ih) h
  | binary op l r ihl ihr =>
    rw [worth_binary] at h ⊢
    exact op.combine_mono (fun _ => ihl) (fun _ => ihr) h

theorem worthAnd_isExact {x y : Option Value} (hx : ∀ v, x = some v → v.isExact)
    (hy : ∀ v, y = some v → v.isExact) (h : worthAnd x y = some v) : v.isExact := by
  unfold worthAnd at h
  split at h <;> first | (cases h; done) | (cases h; rfl) | exact hy v h | exact hx v h

theorem worthOr_isExact {x y : Option Value} (hx : ∀ v, x = some v → v.isExact)
    (hy : ∀ v, y = some v → v.isExact) (h : worthOr x y = some v) : v.isExact := by
  unfold worthOr at h
  split at h <;> first | (cases h; done) | (cases h; rfl) | exact hy v h | exact hx v h

theorem worth_isExact (he : e.isExact) (henv : env.IsExact) (h : e.worth env = some v) :
    v.isExact := by
  fun_induction worth env e generalizing v with
  | case1 w => cases h; exact he
  | case2 r => exact henv r v h
  | case3 op e ih =>
    obtain ⟨w, hw, h⟩ := Option.bind_eq_some_iff.1 h
    exact UnaryOp.isExact_apply (ih he hw) (toOption_eq_some.1 h)
  | case4 l r ihl ihr =>
    simp only [isExact, Bool.and_eq_true] at he
    exact worthAnd_isExact (fun _ => ihl he.1) (fun _ => ihr he.2) h
  | case5 l r ihl ihr =>
    simp only [isExact, Bool.and_eq_true] at he
    exact worthOr_isExact (fun _ => ihl he.1) (fun _ => ihr he.2) h
  | case6 c l r ihl ihr =>
    obtain ⟨a, -, h⟩ := Option.bind_eq_some_iff.1 h
    obtain ⟨b, -, h⟩ := Option.bind_eq_some_iff.1 h
    cases h
    unfold Comparison.worth
    split <;> rfl
  | case7 op l r ihl ihr =>
    simp only [isExact, Bool.and_eq_true] at he
    obtain ⟨a, ha, h⟩ := Option.bind_eq_some_iff.1 h
    obtain ⟨b, hb, h⟩ := Option.bind_eq_some_iff.1 h
    exact Arith.isExact_apply (ihl he.1 ha) (ihr he.2 hb) (toOption_eq_some.1 h)
  | case8 l r ihl ihr =>
    obtain ⟨a, -, h⟩ := Option.bind_eq_some_iff.1 h
    obtain ⟨b, -, h⟩ := Option.bind_eq_some_iff.1 h
    cases h
    rfl

/-! ### Equivalent expressions -/

/-- Equivalent expressions have one worth. -/
theorem worth_eq_of_equiv (env : Env) (h : e.equiv e') : e.worth env = e'.worth env := by
  induction e generalizing e' with
  | const => obtain rfl := const_equiv.1 h; rfl
  | ref => obtain rfl := ref_equiv.1 h; rfl
  | unary op a ih =>
    obtain ⟨a', rfl, ha⟩ := unary_equiv.1 h
    rw [worth_unary, worth_unary, ih ha]
  | binary op a b iha ihb =>
    rcases binary_equiv.1 h with ⟨a', b', rfl, ha, hb⟩ | ⟨op', a', b', rfl, hop, ha, hb⟩
    · rw [worth_binary, worth_binary, iha ha, ihb hb]
    · rw [worth_binary, worth_binary, iha ha, ihb hb, BinaryOp.combine_flip hop]

theorem eq_const_of_isConst (h : e.isConst) : ∃ v, e = const v := by
  cases e <;> simp_all [isConst]

theorem eq_of_isTruth {b : Bool} (h : e.isTruth b) : e = const (.bool b) := by
  unfold isTruth at h
  split at h <;> simp_all

theorem worth_foldConst (env : Env) (e : Expr) : e.foldConst.worth env = e.worth env := by
  unfold foldConst
  split
  · next v hv =>
    exact (worth_mono (fun r w hw => by cases hw) (worth_of_eval hv)).symm
  · rfl

theorem worth_foldUnary (env : Env) (op : UnaryOp) (e : Expr) :
    (foldUnary op e).worth env = (unary op e).worth env := by
  unfold foldUnary
  split
  · exact worth_foldConst env _
  · rfl

theorem worth_foldBinary (env : Env) (op : BinaryOp) (l r : Expr) :
    (foldBinary op l r).worth env = (binary op l r).worth env := by
  have hfolded : (if l.isConst && r.isConst then (binary op l r).foldConst
      else binary op l r).worth env = (binary op l r).worth env := by
    split
    · exact worth_foldConst env _
    · rfl
  unfold foldBinary
  generalize (if l.isConst && r.isConst then (binary op l r).foldConst else binary op l r) = folded
    at hfolded ⊢
  cases op with
  | and =>
    dsimp only
    split
    · next h =>
      rcases (Bool.or_eq_true ..).mp h with h | h
      · simp [eq_of_isTruth h, worth]
      · simp [eq_of_isTruth h, worth, worthAnd_comm (l.worth env)]
    · split
      · next h => simp [eq_of_isTruth h, worth]
      · split
        · next h => simp [eq_of_isTruth h, worth, worthAnd_comm (l.worth env)]
        · exact hfolded
  | or =>
    dsimp only
    split
    · next h =>
      rcases (Bool.or_eq_true ..).mp h with h | h
      · simp [eq_of_isTruth h, worth]
      · simp [eq_of_isTruth h, worth, worthOr_comm (l.worth env)]
    · split
      · next h => simp [eq_of_isTruth h, worth]
      · split
        · next h => simp [eq_of_isTruth h, worth, worthOr_comm (l.worth env)]
        · exact hfolded
  | cmp | arith | distinct => exact hfolded

/-- Folding keeps the worth. -/
theorem worth_fold (env : Env) (e : Expr) : e.fold.worth env = e.worth env := by
  induction e with
  | const | ref => rfl
  | unary op e ih =>
    rw [fold, worth_foldUnary, worth, worth, ih]
  | binary op l r ihl ihr =>
    rw [fold, worth_foldBinary]
    rcases op with _ | _ | _ | _ | _ <;> simp only [worth, ihl, ihr]

theorem isExact_foldConst (he : e.isExact) : e.foldConst.isExact := by
  unfold foldConst
  split
  · next hv => exact eval_isExact he Scope.isExact_empty hv
  · exact he

theorem isExact_fold (he : e.isExact) : e.fold.isExact := by
  induction e with
  | const | ref => exact he
  | unary op e ih =>
    rw [fold, foldUnary]
    split
    · exact isExact_foldConst (ih he)
    · exact ih he
  | binary op l r ihl ihr =>
    simp only [isExact, Bool.and_eq_true] at he
    have hl := ihl he.1
    have hr := ihr he.2
    have hb : (binary op l.fold r.fold).isExact := by simp [isExact, hl, hr]
    have hc := isExact_foldConst hb
    rw [fold]
    cases op <;> simp only [foldBinary] <;> grind [isExact, Value.isExact]

end Expr

end RelPlan

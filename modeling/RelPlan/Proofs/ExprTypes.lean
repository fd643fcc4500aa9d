import RelPlan.Expr.Typing
import RelPlan.Index.Limits
import RelPlan.Proofs.Cells
import RelPlan.Table

/-!
# Types of values

What a table stores fits the types of its columns, and what an expression is evaluated to fits the
type that it has on rows of these columns (`Expr.admits_of_evalRow`).  Two values that fit one type
compare, if the type says anything (`DataType.rank_eq_of_admits`).
-/

namespace RelPlan

variable {type : DataType} {v w : Value} {columns : List Column} {scope : Scope} {row : Row}
  {e : Expr}

namespace DataType

/-- The value is missing or of a kind that a column of the type may hold. -/
def Admits (type : DataType) (v : Value) : Prop := v.isNull ∨ type.compatible v.dataType

theorem compatible_comm (a b : DataType) : a.compatible b = b.compatible a := by
  cases a <;> cases b <;> rfl

theorem any_admits (v : Value) : any.Admits v := .inr (by cases v <;> rfl)

theorem bool_admits_ofTruth (a : Option Bool) : bool.Admits (.ofTruth a) := by
  rcases a with _ | b
  exacts [.inl rfl, .inr rfl]

/-- The place in the order of the values that are known to be of the type. -/
def rank : DataType → Nat
  | any => 0
  | bool => 1
  | int | float => 2
  | text => 3

theorem rank_eq_of_admits (hany : type ≠ any) (hv : type.Admits v) (hnull : v.isNull = false) :
    v.rank = type.rank := by
  unfold Admits at hv
  rw [hnull] at hv
  cases type <;> cases v <;>
    simp_all [compatible, isNumeric, Value.dataType, Value.rank, rank, Value.isNull]

end DataType

theorem checkComparable_eq_ok : checkComparable type v = .ok () ↔ type.Admits v := by
  unfold checkComparable DataType.Admits
  cases v.isNull <;> cases type.compatible v.dataType <;> simp

theorem Table.admits_of_checkTypes {values : List Value} (h : checkTypes columns values = .ok ())
    {i : Nat} {c : Column} (hc : columns[i]? = some c) (hv : values[i]? = some v) :
    c.dataType.Admits v := by
  induction columns generalizing values i with
  | nil => cases hc
  | cons d columns ih =>
    match values, h, hv with
    | w :: values, h, hv =>
      unfold checkTypes at h
      split at h
      · next hw =>
        cases i with
        | zero =>
          cases hc
          cases hv
          exact .inr (DataType.compatible_comm _ _ ▸ hw)
        | succ i => exact ih h hc hv
      · cases h

theorem Arith.isNumeric_of_apply {op : Arith} {a b : Value} (h : op.apply a b = .ok v) :
    v.isNull ∨ v.dataType.isNumeric := by
  have hint {n : Int} (h : Value.ofIntChecked n = .ok v) : v.isNull ∨ v.dataType.isNumeric := by
    unfold Value.ofIntChecked at h
    split at h <;> cases h
    exact .inr rfl
  unfold apply at h
  split at h
  · cases h; exact .inl rfl
  · cases h; exact .inl rfl
  · cases op <;> simp only [applyInt] at h
    case div =>
      split at h
      · cases h
      · exact hint h
    all_goals exact hint h
  · split at h
    · cases op <;> simp only [applyBinary64] at h
      case div =>
        split at h <;> cases h
        exact .inr rfl
      all_goals cases h; exact .inr rfl
    · cases h

theorem DataType.arith_admits (a b : DataType) (h : v.isNull ∨ v.dataType.isNumeric) :
    (a.arith b).Admits v := by
  rcases h with h | h
  · exact .inl h
  · refine .inr ?_
    cases a <;> cases b <;> cases hv : v.dataType <;> simp_all [arith, compatible, isNumeric]

theorem UnaryOp.admits_of_negate (hv : type.Admits v) (h : negate.apply v = .ok w) :
    type.Admits w := by
  cases v <;> simp only [apply, reduceCtorEq] at h
  · cases h; exact hv
  · unfold Value.ofIntChecked at h
    split at h <;> cases h
    exact hv
  · cases h; exact hv

/-- A row whose values fit the columns gives an expression a value of its type. -/
theorem Expr.admits_of_evalRow (hrow : Table.checkTypes row.columns row.values = .ok ())
    (h : e.evalRow scope row = .ok v) : (e.typeIn row.columns).Admits v := by
  fun_induction typeIn row.columns e generalizing v with
  | case1 w =>
    cases h
    exact .inr (by simp [DataType.compatible])
  | case2 r i hr =>
    have hi : i < row.columns.length := lt_of_resolve hr
    obtain ⟨w, hw⟩ := Row.exists_value hr
    obtain rfl : w = v := by
      rw [evalRow, eval, evalWith, Scope.lookup_push_of_some hr hw] at h
      exact Except.ok.inj h
    rw [List.getElem?_eq_getElem hi]
    exact Table.admits_of_checkTypes hrow (List.getElem?_eq_getElem hi) hw
  | case3 r => exact DataType.any_admits v
  | case4 e ih =>
    obtain ⟨w, hw, h⟩ := Result.bind_eq_ok.1 h
    exact UnaryOp.admits_of_negate (ih hw) h
  | case5 op e hne =>
    obtain ⟨w, -, h⟩ := Result.bind_eq_ok.1 h
    cases op with
    | negate => exact absurd rfl hne
    | not =>
      obtain ⟨a, -, h⟩ := Result.bind_eq_ok.1 h
      cases h
      exact DataType.bool_admits_ofTruth _
    | isNull | isNotNull => cases h; exact .inr rfl
  | case6 op l r =>
    obtain ⟨a, -, h⟩ := Result.bind_eq_ok.1 h
    obtain ⟨b, -, h⟩ := Result.bind_eq_ok.1 h
    exact DataType.arith_admits _ _ (Arith.isNumeric_of_apply h)
  | case7 op l r hne =>
    cases op with
    | arith op => exact absurd rfl (hne op)
    | and | or =>
      obtain ⟨w, -, h⟩ := Result.bind_eq_ok.1 h
      obtain ⟨a, -, h⟩ := Result.bind_eq_ok.1 h
      split at h
      · cases h; exact .inr rfl
      · obtain ⟨w', -, h⟩ := Result.bind_eq_ok.1 h
        obtain ⟨b, -, h⟩ := Result.bind_eq_ok.1 h
        cases h
        exact DataType.bool_admits_ofTruth _
    | cmp c =>
      obtain ⟨a, -, h⟩ := Result.bind_eq_ok.1 h
      obtain ⟨b, -, h⟩ := Result.bind_eq_ok.1 h
      obtain ⟨o, -, h⟩ := Result.bind_eq_ok.1 h
      cases h
      exact DataType.bool_admits_ofTruth _
    | distinct =>
      obtain ⟨a, -, h⟩ := Result.bind_eq_ok.1 h
      obtain ⟨b, -, h⟩ := Result.bind_eq_ok.1 h
      cases h
      exact .inr rfl

end RelPlan

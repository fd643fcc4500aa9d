import Mathlib.Logic.Relation
import RelPlan.Expr
import RelPlan.Proofs.KeyOrder
import RelPlan.Proofs.Rounding

/-!
# Equivalent expressions

At each operator with a flipped form `Expr.equiv` tries two ways to match the operands, straight and
crossed.  So what an expression is equivalent to is a case analysis on its root (`binary_equiv` and
its relatives), and the relation as a whole is an equivalence: one expression is equivalent to
another exactly if it becomes the other when operators in it are turned around (`equiv_laws`).
-/

namespace RelPlan

open Relation

theorem Value.eq_of_same {a b : Value} (htype : a.dataType = b.dataType) (h : a.same b) :
    a = b := by
  cases a <;> cases b <;> cases htype <;>
    simp_all [same, order, Binary64.order, Std.LawfulEqCmp.compare_eq_iff_eq, Int64.toInt_inj]
  exact Binary64.orderKey_inj h

namespace BinaryOp

variable {op op' op'' : BinaryOp}

theorem flip?_arith {a : Arith} :
    (arith a).flip? = some op ↔ (a = .add ∨ a = .mul) ∧ op = arith a := by
  cases a <;> simp [flip?, eq_comm]

theorem flip?_of_flip? (h : op.flip? = some op') : op'.flip? = some op := by
  rcases op with _ | _ | c | a | _
  case cmp => cases c <;> cases h <;> rfl
  case arith => cases a <;> cases h <;> rfl
  all_goals cases h; rfl

theorem eq_of_flip?_of_flip? (h : op.flip? = some op') (h' : op'.flip? = some op'') : op = op'' :=
  Option.some.inj ((flip?_of_flip? h).symm.trans h')

end BinaryOp

namespace Expr

variable {a b c e l r l' r' : Expr} {op op' : BinaryOp} {u : UnaryOp} {v : Value} {x : ColumnRef}

theorem const_equiv : (const v).equiv e ↔ e = const v := by
  cases e with
  | const w =>
    simp only [equiv, Bool.and_eq_true, decide_eq_true_eq, const.injEq]
    exact ⟨fun h => (Value.eq_of_same h.1 h.2).symm, by rintro rfl; simp⟩
  | ref | unary | binary => simp [equiv]

theorem ref_equiv : (ref x).equiv e ↔ e = ref x := by
  cases e <;> simp [equiv, eq_comm]

theorem unary_equiv : (unary u a).equiv e ↔ ∃ b, e = unary u b ∧ a.equiv b := by
  cases e with
  | unary u' b =>
    simp only [equiv, Bool.and_eq_true, decide_eq_true_eq, unary.injEq]
    exact ⟨fun h => ⟨b, ⟨h.1.symm, rfl⟩, h.2⟩, by rintro ⟨b, ⟨rfl, rfl⟩, h⟩; exact ⟨rfl, h⟩⟩
  | const | ref | binary => simp [equiv]

/-- The operands match as they stand, or crosswise under the flipped operator. -/
theorem binary_equiv : (binary op l r).equiv e ↔
    (∃ l' r', e = binary op l' r' ∧ l.equiv l' ∧ r.equiv r') ∨
      ∃ op' l' r', e = binary op' r' l' ∧ op.flip? = some op' ∧ l.equiv l' ∧ r.equiv r' := by
  cases e with
  | binary op' a b =>
    simp only [equiv, Bool.or_eq_true, Bool.and_eq_true, decide_eq_true_eq, binary.injEq]
    constructor
    · rintro (⟨⟨rfl, hl⟩, hr⟩ | ⟨⟨hop, hl⟩, hr⟩)
      · exact .inl ⟨a, b, ⟨rfl, rfl, rfl⟩, hl, hr⟩
      · exact .inr ⟨op', b, a, ⟨rfl, rfl, rfl⟩, hop, hl, hr⟩
    · rintro (⟨_, _, ⟨rfl, rfl, rfl⟩, hl, hr⟩ | ⟨_, _, _, ⟨rfl, rfl, rfl⟩, hop, hl, hr⟩)
      · exact .inl ⟨⟨rfl, hl⟩, hr⟩
      · exact .inr ⟨⟨hop, hl⟩, hr⟩
  | const | ref | unary => simp [equiv]

@[simp] theorem equiv_refl (e : Expr) : e.equiv e := by
  induction e with
  | const => exact const_equiv.2 rfl
  | ref => exact ref_equiv.2 rfl
  | unary u e ih => exact unary_equiv.2 ⟨e, rfl, ih⟩
  | binary op l r ihl ihr => exact binary_equiv.2 (.inl ⟨l, r, rfl, ihl, ihr⟩)

theorem equiv_symm (h : a.equiv b) : b.equiv a := by
  induction a generalizing b with
  | const => obtain rfl := const_equiv.1 h; exact h
  | ref => obtain rfl := ref_equiv.1 h; exact h
  | unary u a ih =>
    obtain ⟨b, rfl, hb⟩ := unary_equiv.1 h
    exact unary_equiv.2 ⟨a, rfl, ih hb⟩
  | binary op l r ihl ihr =>
    rcases binary_equiv.1 h with ⟨l', r', rfl, hl, hr⟩ | ⟨op', l', r', rfl, hop, hl, hr⟩
    · exact binary_equiv.2 (.inl ⟨l, r, rfl, ihl hl, ihr hr⟩)
    · exact binary_equiv.2 (.inr ⟨op, r, l, rfl, BinaryOp.flip?_of_flip? hop, ihr hr, ihl hl⟩)

theorem equiv_trans (hab : a.equiv b) (hbc : b.equiv c) : a.equiv c := by
  induction a generalizing b c with
  | const => obtain rfl := const_equiv.1 hab; exact hbc
  | ref => obtain rfl := ref_equiv.1 hab; exact hbc
  | unary u a ih =>
    obtain ⟨b, rfl, hb⟩ := unary_equiv.1 hab
    obtain ⟨c, rfl, hc⟩ := unary_equiv.1 hbc
    exact unary_equiv.2 ⟨c, rfl, ih hb hc⟩
  | binary op l r ihl ihr =>
    -- Two crossings are none; a straight match beside a crossing is a crossing.
    rcases binary_equiv.1 hab with ⟨l', r', rfl, hl, hr⟩ | ⟨op', l', r', rfl, hop, hl, hr⟩ <;>
      rcases binary_equiv.1 hbc with ⟨_, _, rfl, hl', hr'⟩ | ⟨_, _, _, rfl, hop', hl', hr'⟩
    · exact binary_equiv.2 (.inl ⟨_, _, rfl, ihl hl hl', ihr hr hr'⟩)
    · exact binary_equiv.2 (.inr ⟨_, _, _, rfl, hop', ihl hl hl', ihr hr hr'⟩)
    · exact binary_equiv.2 (.inr ⟨_, _, _, rfl, hop, ihl hl hr', ihr hr hl'⟩)
    · obtain rfl := BinaryOp.eq_of_flip?_of_flip? hop hop'
      exact binary_equiv.2 (.inl ⟨_, _, rfl, ihl hl hr', ihr hr hl'⟩)

/-! ### Turning operators around -/

/-- One operator in the expression is turned around: its operands are exchanged, and the flipped
operator stands in its place. -/
inductive Turns : Expr → Expr → Prop
  | root {op op' : BinaryOp} (hop : op.flip? = some op') (l r : Expr) :
    Turns (binary op l r) (binary op' r l)
  | unary (u : UnaryOp) {a b : Expr} (h : Turns a b) : Turns (unary u a) (unary u b)
  | left (op : BinaryOp) {l l' : Expr} (h : Turns l l') (r : Expr) :
    Turns (binary op l r) (binary op l' r)
  | right (op : BinaryOp) (l : Expr) {r r' : Expr} (h : Turns r r') :
    Turns (binary op l r) (binary op l r')

theorem Turns.equiv (h : a.Turns b) : a.equiv b := by
  induction h with
  | root hop l r => exact binary_equiv.2 (.inr ⟨_, l, r, rfl, hop, equiv_refl l, equiv_refl r⟩)
  | unary u _ ih => exact unary_equiv.2 ⟨_, rfl, ih⟩
  | left op _ r ih => exact binary_equiv.2 (.inl ⟨_, r, rfl, ih, equiv_refl r⟩)
  | right op l _ ih => exact binary_equiv.2 (.inl ⟨l, _, rfl, equiv_refl l, ih⟩)

theorem turns_unary (u : UnaryOp) (h : ReflTransGen Turns a b) :
    ReflTransGen Turns (unary u a) (unary u b) :=
  h.lift _ fun _ _ h => h.unary u

theorem turns_binary (op : BinaryOp) (hl : ReflTransGen Turns l l') (hr : ReflTransGen Turns r r') :
    ReflTransGen Turns (binary op l r) (binary op l' r') :=
  (hl.lift (binary op · r) fun _ _ h => h.left op r).trans
    (hr.lift (binary op l') fun _ _ h => h.right op l')

/-- Equivalence is turning operators around, at any depth and any number of times. -/
theorem equiv_iff_turns : a.equiv b ↔ ReflTransGen Turns a b := by
  constructor
  · intro h
    induction a generalizing b with
    | const => obtain rfl := const_equiv.1 h; exact .refl
    | ref => obtain rfl := ref_equiv.1 h; exact .refl
    | unary u a ih =>
      obtain ⟨b, rfl, hb⟩ := unary_equiv.1 h
      exact turns_unary u (ih hb)
    | binary op l r ihl ihr =>
      rcases binary_equiv.1 h with ⟨l', r', rfl, hl, hr⟩ | ⟨op', l', r', rfl, hop, hl, hr⟩
      · exact turns_binary op (ihl hl) (ihr hr)
      · exact (turns_binary op (ihl hl) (ihr hr)).tail (.root hop l' r')
  · intro h
    induction h with
    | refl => exact equiv_refl a
    | tail _ hturn ih => exact equiv_trans ih hturn.equiv

/-- Being equivalent is reflexive, symmetric and transitive, and two expressions are equivalent
exactly if one becomes the other when operators in it are turned around. -/
theorem equiv_laws (a b c : Expr) :
    a.equiv a ∧ (a.equiv b → b.equiv a) ∧ (a.equiv b → b.equiv c → a.equiv c) ∧
      (a.equiv b ↔ ReflTransGen Turns a b) :=
  ⟨equiv_refl a, equiv_symm, equiv_trans, equiv_iff_turns⟩

/-- Operands exchanged at three depths, one of them beside a NaN. -/
theorem equiv_laws_nested :
    let x := column "t.x"
    let nan := const (.float ⟨0x7ff8000000000001⟩)
    let two := const (.int 2)
    let a := and (binary (.cmp .gt) x nan)
      (binary .distinct (binary (.arith .mul) (binary (.arith .add) x two) x) two)
    let b := and (binary .distinct (binary (.arith .mul) (binary (.arith .add) x two) x) two)
      (binary (.cmp .lt) nan x)
    let c := and (binary (.cmp .lt) nan x)
      (binary .distinct two (binary (.arith .mul) x (binary (.arith .add) two x)))
    a.equiv b ∧ b.equiv c ∧ a ≠ b ∧ b ≠ c ∧ a.equiv a ∧ b.equiv a ∧ a.equiv c ∧
      ReflTransGen Turns a b := by
  intro x nan two a b c
  have hab : a.equiv b := by decide
  have hbc : b.equiv c := by decide
  obtain ⟨hrefl, hsymm, htrans, hturns⟩ := equiv_laws a b c
  exact ⟨hab, hbc, by decide, by decide, hrefl, hsymm hab, htrans hab hbc, hturns.1 hab⟩

end Expr

end RelPlan

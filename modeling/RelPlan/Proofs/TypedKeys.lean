import RelPlan.Proofs.ExprTypes
import RelPlan.Proofs.TracedTables

/-!
# Types of keys

What an expression is evaluated to on a row that fits its columns fits the type of the expression.
The rows that a table has ever given a tid fit its columns, so each key of an index fits the type
that was worked out when the index was attached, over any data and after any operations
(`Table.Traced.admits`).  Values that fit one type compare unless it says nothing, so a bound or a
probe that passes its check compares with every key there is (`Table.types_sound`).
-/

namespace RelPlan

variable {type : DataType} {v w : Value} {row : Row} {columns : List Column}

/-- Each value is of a type that its column may hold. -/
def Row.Typed (row : Row) : Prop :=
  List.Forall₂ (fun c v => v.dataType.compatible c.dataType) row.columns row.values

/-- The types that bounds and probes are checked against, one for each component of a key. -/
def BaseIndex.keyTypes : BaseIndex → List DataType
  | ordered i => i.keyTypes
  | hashed i => [i.keyType]

theorem Value.compatible_of_admits (h : type.Admits v) : v.dataType.compatible type := by
  rw [DataType.compatible_comm]
  rcases h with h | h
  · cases v <;> cases h
    cases type <;> rfl
  · exact h

theorem Value.exists_compareSql (hany : type ≠ .any) (hv : type.Admits v) (hw : type.Admits w) :
    ∃ o, v.compareSql w = .ok o := by
  unfold compareSql
  split
  · exact ⟨none, rfl⟩
  · next hnull =>
    rw [Bool.or_eq_true, not_or, Bool.not_eq_true, Bool.not_eq_true] at hnull
    have hrank := DataType.rank_eq_of_admits hany hv hnull.1
    rw [if_pos (hrank.trans (DataType.rank_eq_of_admits hany hw hnull.2).symm)]
    exact ⟨_, rfl⟩

namespace Table

variable {t : Table} {known : List Row} {i : Index} {x : Entry}

theorem checkTypes_eq_ok {values : List Value}
    (h : List.Forall₂ (fun c v => v.dataType.compatible c.dataType) columns values) :
    checkTypes columns values = .ok () := by
  induction h with
  | nil => rfl
  | cons hv _ ih => rw [checkTypes, if_pos hv, ih]

/-- The key of an entry fits the types that the index has for keys. -/
theorem Traced.admits (h : t.Traced known) (hi : i ∈ t.indexes) (hx : x ∈ i.entries) :
    List.Forall₂ DataType.Admits i.base.keyTypes x.key := by
  have htraces := h.indexes i hi
  obtain ⟨row, hknown, hentry⟩ := htraces.traced x hx
  obtain ⟨hcol, hfits⟩ := h.fits row hknown
  have hadmits {e : Expr} {v : Value} (hv : e.evalRow .empty row = .ok v) :
      (e.typeIn t.columns).Admits v := by
    rw [← hcol] at hfits ⊢
    exact Expr.admits_of_evalRow hfits hv
  rcases Index.entryOf_eq_ok.1 hentry with ⟨-, hnone⟩ | ⟨y, -, hy, heq⟩
  · cases hnone
  cases heq
  have htyped := htraces.typed
  obtain ⟨cond, base⟩ := i
  cases base with
  | ordered i =>
    have hkeys := Result.mapM_eq_ok.1 (OrderedIndex.entryOf_eq_ok.1 hy).2
    rw [BaseIndex.keyTypes, show i.keyTypes = i.keys.map (Expr.typeIn t.columns) from htyped,
      List.forall₂_map_left_iff]
    exact hkeys.imp fun _ _ => hadmits
  | hashed i =>
    obtain ⟨tid, -, hy⟩ := Result.bind_eq_ok.1 hy
    obtain ⟨v, hv, hy⟩ := Result.bind_eq_ok.1 hy
    cases hy
    rw [BaseIndex.keyTypes, show i.keyType = i.key.typeIn t.columns from htyped]
    exact .cons (hadmits hv) .nil

/-- The type of an expression bounds its values on rows that fit their columns.  So, however a table
has come about, what passes the check against the type of a key, one that says anything, compares
with that component of every key that the index holds. -/
theorem types_sound :
    (∀ (row : Row) (scope : Scope) (e : Expr) (v : Value), row.Typed →
      e.evalRow scope row = .ok v → v.dataType.compatible (e.typeIn row.columns)) ∧
    ∀ (t : Table) (i : Index) (x : Entry), t.Grown → i ∈ t.indexes → x ∈ i.entries →
      List.Forall₂ (fun type k => type ≠ .any → ∀ v, checkComparable type v = .ok () →
        (∃ o, v.compareSql k = .ok o) ∧ ∃ o, k.compareSql v = .ok o) i.base.keyTypes x.key := by
  constructor
  · intro row scope e v hrow hv
    exact Value.compatible_of_admits (Expr.admits_of_evalRow (checkTypes_eq_ok hrow) hv)
  · intro t i x ht hi hx
    obtain ⟨known, htraced⟩ := ht.traced
    refine (htraced.admits hi hx).imp fun type k hk hany v hv => ?_
    have hv := checkComparable_eq_ok.1 hv
    exact ⟨Value.exists_compareSql hany hv hk, Value.exists_compareSql hany hk hv⟩

/-- Integers and binary64 data, each in the column of the other, under an index on a sum and a
negation. -/
def crossed : Table :=
  (run [.insert [.float ⟨0x3ff8000000000000⟩, .int 2], .addIndex (.ordered "i"
      [.binary (.arith .add) (.column "a") (.const (.int 1)), .unary .negate (.column "b")] false),
    .insert [.int 3, .null]] (make "t" [("a", .int), ("b", .float)])).1

theorem grown_crossed : crossed.Grown := ⟨"t", [("a", .int), ("b", .float)], _, by decide, rfl⟩

theorem types_sound_crossed :
    let sum := Expr.binary (.arith .add) (.column "a") (.const (.int 1))
    let columns : List Column := [⟨some "t", "a", .int, false⟩, ⟨some "t", "b", .float, false⟩]
    let row : Row := ⟨columns, [.float ⟨0x3ff8000000000000⟩, .int 2], some 0, rfl⟩
    row ∈ crossed.rows ∧ row.Typed ∧
      sum.evalRow .empty row = .ok (.float ⟨0x4004000000000000⟩) ∧
      (Value.float ⟨0x4004000000000000⟩).dataType.compatible (sum.typeIn columns) ∧
      crossed.Grown ∧ ∃ i ∈ crossed.indexes, ∃ x ∈ i.entries,
        i.base.keyTypes = [.int, .float] ∧ x.key = [.float ⟨0x4004000000000000⟩, .int (-2)] ∧
        DataType.float ≠ .any ∧ checkComparable .float (.int 7) = .ok () ∧
        (∃ o, (Value.int 7).compareSql (.int (-2)) = .ok o) ∧
        ∃ o, (Value.int (-2)).compareSql (.int 7) = .ok o := by
  intro sum columns row
  have htyped : row.Typed := .cons rfl (.cons rfl .nil)
  have hsum : sum.evalRow .empty row = .ok (.float ⟨0x4004000000000000⟩) := by decide
  let i := crossed.indexes.get ⟨0, by decide⟩
  let x : Entry := ⟨[.float ⟨0x4004000000000000⟩, .int (-2)], 0⟩
  have hi : i ∈ crossed.indexes := List.get_mem _ _
  have hx : x ∈ i.entries := by decide
  obtain ⟨hvalues, hkeys⟩ := types_sound
  obtain _ | ⟨-, _ | ⟨hfloat, -⟩⟩ := hkeys crossed i x grown_crossed hi hx
  exact ⟨by decide, htyped, hsum, hvalues row .empty sum _ htyped hsum, grown_crossed, i, hi, x, hx,
    by decide, rfl, by decide, rfl, hfloat (by decide) (.int 7) rfl⟩

end Table

end RelPlan

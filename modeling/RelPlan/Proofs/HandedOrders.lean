import RelPlan.Proofs.HandingOn
import RelPlan.Proofs.Records

/-!
# Orders that are handed on

An order that is wanted of a node becomes an order of its input by the same renamings as a filter.
Every reference of it means a column of the node (`SortOrder.Bound`), and rows of the input that are
in the order handed on make rows of the node that are in the order wanted.
-/

namespace RelPlan

variable {columns left right source target : List Column} {o p : SortOrder} {outer : Env}
  {a b a' b' : Env} {g : Expr → Result Expr} {xs : List Record} {outputs : List Output}

namespace SortOrder

/-- Every key reads the columns alone. -/
def Bound (columns : List Column) (o : SortOrder) : Prop := ∀ k ∈ o.keys, k.expr.Bound columns

instance (columns : List Column) (o : SortOrder) : Decidable (o.Bound columns) :=
  inferInstanceAs (Decidable (∀ k ∈ o.keys, k.expr.Bound columns))

theorem mapM_eq_ok (h : o.mapM g = .ok p) :
    List.Forall₂ (fun k k' => k'.descending = k.descending ∧ g k.expr = .ok k'.expr)
      o.keys p.keys := by
  obtain ⟨ks, hks, h⟩ := Result.bind_eq_ok.1 h
  cases h
  refine (Result.mapM_eq_ok.1 hks).imp fun k k' hk => ?_
  obtain ⟨e, he, hk⟩ := Result.bind_eq_ok.1 hk
  cases hk
  exact ⟨rfl, he⟩

theorem forall_of_mapM {P : Expr → Prop} (h : o.mapM g = .ok p)
    (hg : ∀ k ∈ o.keys, ∀ e, g k.expr = .ok e → P e) : ∀ k ∈ p.keys, P k.expr := by
  intro k hk
  obtain ⟨k₀, hk₀, -, he⟩ := exists_of_forall₂ (mapM_eq_ok h) hk
  exact hg k₀ hk₀ k.expr he

theorem Le.of_mapM (h : o.mapM g = .ok p)
    (ha : ∀ k ∈ o.keys, ∀ e, g k.expr = .ok e → e.worth a' = k.expr.worth a)
    (hb : ∀ k ∈ o.keys, ∀ e, g k.expr = .ok e → e.worth b' = k.expr.worth b)
    (hle : p.Le a' b') : o.Le a b := by
  refine hle.of_worth ?_
  have hall := mapM_eq_ok h
  refine ((List.forall₂_and_left _ _).2 ⟨fun k hk => hk, hall⟩).imp fun k k' hk => ?_
  exact ⟨hk.2.1, ha k hk.1 _ hk.2.2, hb k hk.1 _ hk.2.2⟩

theorem keys_fold_subset : ∀ k ∈ o.fold.keys, ∃ k₀ ∈ o.keys, k.expr = k₀.expr.fold := by
  intro k hk
  obtain ⟨k₀, hk₀, rfl⟩ := List.mem_map.1 (List.mem_of_mem_filter hk)
  exact ⟨k₀, hk₀, rfl⟩

theorem IsExact.fold (h : o.IsExact) : o.fold.IsExact := by
  intro k hk
  obtain ⟨k₀, hk₀, he⟩ := keys_fold_subset k hk
  rw [he]
  exact Expr.isExact_fold (h k₀ hk₀)

theorem Bound.fold (h : o.Bound columns) : o.fold.Bound columns := by
  intro k hk r hr
  obtain ⟨k₀, hk₀, he⟩ := keys_fold_subset k hk
  exact h k₀ hk₀ r (Expr.refs_fold _ (he ▸ hr))

theorem IsExact.mapM (ho : o.IsExact) (h : o.mapM g = .ok p)
    (hg : ∀ e e', e.isExact → g e = .ok e' → e'.isExact) : p.IsExact :=
  forall_of_mapM h fun k hk e he => hg _ e (ho k hk) he

theorem bound_of_validate (h : o.validate columns = .ok ()) : o.Bound columns := fun k hk r hr =>
  requireAll_eq_ok.1 h r (List.mem_flatMap.2 ⟨k, hk, hr⟩)

theorem Bound.qualify (h : o.Bound columns) (ho : o.qualify columns = .ok p) : p.Bound columns :=
  forall_of_mapM ho fun k hk _ he => (h k hk).rename
    (fun r hr => (h k hk r hr).elim fun _ hi => .of_resolve hi) he

theorem IsExact.rename (ho : o.IsExact) (h : o.rename source target = .ok p) : p.IsExact :=
  ho.mapM h fun _ _ he h => Expr.isExact_of_rename he h

theorem bindTo_spec (h : o.bindTo columns = .ok p) :
    p.Bound columns ∧ (o.IsExact → p.IsExact) := by
  obtain ⟨_, hv, h⟩ := Result.bind_eq_ok.1 h
  obtain ⟨q, hq, h⟩ := Result.bind_eq_ok.1 h
  cases h
  exact ⟨((bound_of_validate hv).qualify hq).fold, fun ho => (ho.rename hq).fold⟩

theorem sorted_of_qualify (h : o.qualify columns = .ok p)
    (hs : p.Sorted (xs.map (Record.env columns outer))) :
    o.Sorted (xs.map (Record.env columns outer)) :=
  hs.of_map fun _ _ _ _ => .of_mapM h (fun _ _ _ he => Expr.worth_qualify he)
    fun _ _ _ he => Expr.worth_qualify he

theorem sorted_of_bindTo (h : o.bindTo columns = .ok p)
    (hs : p.Sorted (xs.map (Record.env columns outer))) :
    o.Sorted (xs.map (Record.env columns outer)) := by
  obtain ⟨_, -, h⟩ := Result.bind_eq_ok.1 h
  obtain ⟨q, hq, h⟩ := Result.bind_eq_ok.1 h
  cases h
  exact sorted_of_qualify hq hs.of_fold

section
variable {relation : Option String}

theorem Bound.rename (h : o.Bound (columns.map (·.withRelation relation)))
    (ho : o.rename (columns.map (·.withRelation relation)) columns = .ok p) : p.Bound columns :=
  forall_of_mapM ho fun k hk _ he => (h k hk).rename (h k hk).movable.faithful he

theorem sorted_of_rename (ho : o.Bound (columns.map (·.withRelation relation)))
    (h : o.rename (columns.map (·.withRelation relation)) columns = .ok p)
    (hs : p.Sorted (xs.map (Record.env columns outer))) :
    o.Sorted ((xs.map Record.bare).map
      (Record.env (columns.map (·.withRelation relation)) outer)) := by
  rw [List.map_map]
  have hworth (x : Record) (k : SortKey) (hk : k ∈ o.keys) (e : Expr)
      (he : k.expr.rename (columns.map (·.withRelation relation)) columns = .ok e) :
      e.worth (x.env columns outer) =
        k.expr.worth (x.bare.env (columns.map (·.withRelation relation)) outer) :=
    Expr.worth_rename he (ho k hk).movable.faithful
  exact hs.of_map fun x _ y _ => .of_mapM h (hworth x) (hworth y)

end

section
variable (hb : ∀ out ∈ outputs, out.expr.Bound columns)
include hb

theorem Bound.unproject (h : o.Bound (outputs.map Output.column))
    (ho : o.mapM (Stage.unproject outputs) = .ok p) : p.Bound columns := by
  refine forall_of_mapM ho fun k hk e he r' hr' => ?_
  rcases Stage.refsIn_unproject hb (h k hk).movable he r' hr' with hi | ⟨hr, hnone, -⟩
  · exact hi
  · obtain ⟨i, hi⟩ := h k hk r' hr
    simp [hi] at hnone

theorem sorted_of_unproject (ho : o.Bound (outputs.map Output.column))
    (h : o.mapM (Stage.unproject outputs) = .ok p)
    (hs : p.Sorted (xs.map (Record.env columns outer))) :
    o.Sorted ((xs.map (Record.compute columns outputs)).map
      (Record.env (outputs.map Output.column) outer)) := by
  rw [List.map_map]
  exact hs.of_map fun _ _ _ _ => .of_mapM h
    (fun k hk _ he => Stage.worth_unproject hb (ho k hk).movable he ..)
    fun k hk _ he => Stage.worth_unproject hb (ho k hk).movable he ..

end

theorem bound_of_resolvesWithin (h : Join.resolvesWithin columns o = .ok true) :
    o.Bound columns := by
  obtain ⟨bs, hbs, h⟩ := Result.bind_eq_ok.1 h
  intro k hk
  obtain ⟨b, hb, hk⟩ := Result.exists_of_mapM_eq_ok hbs hk
  have hall : bs.all id = true := Except.ok.inj h
  obtain rfl : b = true := List.all_eq_true.1 hall b hb
  exact Expr.resolvesWithin_eq_true.1 hk

/-- Pairs are in an order that reads the left columns alone if their left records are. -/
theorem Le.of_left {x x' y y' : Record} (ho : o.Bound left)
    (hc : ∀ k ∈ o.keys, k.expr.Clear (left ++ right)) (hx : x.cells.length = left.length)
    (hx' : x'.cells.length = left.length) (hle : o.Le (x.env left outer) (x'.env left outer)) :
    o.Le ((x.append y).env (left ++ right) outer) ((x'.append y').env (left ++ right) outer) := by
  refine hle.of_worth (List.forall₂_same.2 fun k hk => ⟨rfl, ?_, ?_⟩)
  · exact ((ho k hk).worth_append_left (hc k hk) hx ..).symm
  · exact ((ho k hk).worth_append_left (hc k hk) hx' ..).symm

end SortOrder

end RelPlan

import RelPlan.Proofs.FilterSets

/-!
# Conjunctions evaluated in order

A conjunction is told by telling its conjuncts one after the other up to the first that is false
(`Expr.truthOn_eq_conjunction`).  So it can be told without those that are known to be true: what is
left over of a filter that can be told on a row can be told on it too (`Filter.holds_diff`).
-/

namespace RelPlan

variable {scope : Scope} {row : Row} {d e : Expr} {cs ds es : List Expr} {f g : Filter}

theorem truthAnd_assoc (a b c : Option Bool) :
    truthAnd (truthAnd a b) c = truthAnd a (truthAnd b c) := by
  rcases a with _ | _ | _ <;> rcases b with _ | _ | _ <;> rcases c with _ | _ | _ <;> rfl

theorem truthAnd_eq_false {a b : Option Bool} :
    truthAnd a b = some false ↔ a = some false ∨ b = some false := by
  rcases a with _ | _ | _ <;> rcases b with _ | _ | _ <;> simp [truthAnd]

@[simp] theorem truthAnd_true (a : Option Bool) : truthAnd a (some true) = a := by
  rcases a with _ | _ | _ <;> rfl

@[simp] theorem true_truthAnd (a : Option Bool) : truthAnd (some true) a = a := by
  rcases a with _ | _ | _ <;> rfl

@[simp] theorem Value.truth_ofTruth (a : Option Bool) : (ofTruth a).truth = .ok a := by
  rcases a with _ | _ | _ <;> rfl

namespace Expr

/-- The truth value of an expression on a row. -/
def truthOn (scope : Scope) (row : Row) (e : Expr) : Result (Option Bool) := do
  (← e.evalRow scope row).truth

/-- The conjunction of the truth values, up to the first that is false. -/
def conjunction (scope : Scope) (row : Row) : List Expr → Result (Option Bool)
  | [] => .ok (some true)
  | e :: es => do
    let a ← e.truthOn scope row
    if a = some false then pure (some false) else return truthAnd a (← conjunction scope row es)

theorem holds_eq (e : Expr) : e.holds scope row = (·.getD false) <$> e.truthOn scope row := by
  simp only [holds, truthOn, bind_assoc, map_eq_pure_bind]

theorem exists_holds : (∃ b, e.holds scope row = .ok b) ↔ ∃ a, e.truthOn scope row = .ok a := by
  rw [holds_eq]
  rcases e.truthOn scope row with err | a <;> simp

theorem worth_of_truthOn {a : Option Bool} (h : e.truthOn scope row = .ok a) :
    e.worth (row.env scope) = some (.ofTruth a) := by
  obtain ⟨v, hv, ha⟩ := Result.bind_eq_ok.1 h
  rw [worth_of_evalRow hv, Value.truth_eq_ok.1 ha]

theorem truthOn_and (l r : Expr) : (binary .and l r).truthOn scope row =
    l.truthOn scope row >>= fun a =>
      if a = some false then pure (some false)
      else r.truthOn scope row >>= fun b => pure (truthAnd a b) := by
  simp only [truthOn, evalRow, eval, evalWith, bind_assoc]
  congr 1
  funext v
  congr 1
  funext a
  split
  · rfl
  · simp only [bind_assoc, Result.pure_eq, Result.ok_bind, Value.truth_ofTruth]

theorem conjunction_append (cs ds : List Expr) : conjunction scope row (cs ++ ds) =
    conjunction scope row cs >>= fun a =>
      if a = some false then pure (some false)
      else conjunction scope row ds >>= fun b => pure (truthAnd a b) := by
  induction cs with
  | nil => rcases hds : conjunction scope row ds <;> simp [conjunction, hds]
  | cons c cs ih =>
    rw [List.cons_append, conjunction, conjunction, ih]
    rcases c.truthOn scope row with err | a
    · rfl
    by_cases ha : a = some false
    · simp [ha]
    rcases conjunction scope row cs with err | b
    · simp [ha]
    by_cases hb : b = some false
    · simp [ha, hb, truthAnd_eq_false]
    · simp [ha, hb, truthAnd_eq_false, truthAnd_assoc]

/-- A conjunction is worth what its conjuncts are worth one after the other. -/
theorem truthOn_eq_conjunction (e : Expr) :
    e.truthOn scope row = conjunction scope row e.conjuncts := by
  fun_induction conjuncts e with
  | case1 l r ihl ihr => rw [truthOn_and, ihl, ihr, conjunction_append]
  | case2 e hne =>
    rw [conjunction, conjunction]
    rcases e.truthOn scope row with err | a
    · rfl
    · rcases a with _ | _ | _ <;> rfl

theorem truthOn_eq_true :
    e.truthOn scope row = .ok (some true) ↔ e.evalRow scope row = .ok (.bool true) := by
  constructor
  · intro h
    obtain ⟨v, hv, h⟩ := Result.bind_eq_ok.1 h
    rw [hv, Value.truth_eq_ok.1 h]
    rfl
  · intro h
    rw [truthOn, h]
    rfl

theorem conjunction_eq_true : conjunction scope row cs = .ok (some true) ↔
    ∀ c ∈ cs, c.truthOn scope row = .ok (some true) := by
  induction cs with
  | nil => simp [conjunction]
  | cons c cs ih =>
    rw [conjunction, List.forall_mem_cons, ← ih]
    rcases c.truthOn scope row with err | _ | _ | _ <;>
      rcases conjunction scope row cs with err' | _ | _ | _ <;> simp [truthAnd]

/-- A row passes a conjunction only if each conjunct is true of it. -/
theorem evalRow_of_holds (h : e.holds scope row = .ok true) :
    ∀ c ∈ e.conjuncts, c.evalRow scope row = .ok (.bool true) := by
  rw [holds_eq] at h
  obtain ⟨a, ha, h⟩ := Result.map_eq_ok.1 h
  obtain rfl : a = some true := by rcases a with _ | _ | _ <;> simp at h ⊢
  rw [truthOn_eq_conjunction, conjunction_eq_true] at ha
  exact fun c hc => truthOn_eq_true.1 (ha c hc)

/-- The conjuncts can be told, up to the first that is false. -/
def Told (scope : Scope) (row : Row) (cs : List Expr) : Prop :=
  ∃ t, conjunction scope row cs = .ok t

theorem told_nil : Told scope row [] := ⟨_, rfl⟩

theorem told_cons : Told scope row (e :: es) ↔
    ∃ a, e.truthOn scope row = .ok a ∧ (a = some false ∨ Told scope row es) := by
  unfold Told
  rw [conjunction]
  rcases e.truthOn scope row with err | a
  · simp
  · by_cases ha : a = some false
    · simp [ha]
    · rcases conjunction scope row es with err | b <;> simp [ha]

/-- The conjunct can be told, and it is not false. -/
def NotFalse (scope : Scope) (row : Row) (e : Expr) : Prop :=
  ∃ a, e.truthOn scope row = .ok a ∧ a ≠ some false

theorem told_append (h : ∀ c ∈ cs, c.NotFalse scope row) :
    Told scope row (cs ++ ds) ↔ Told scope row ds := by
  induction cs with
  | nil => rfl
  | cons c cs ih =>
    obtain ⟨⟨a, ha, hne⟩, hcs⟩ := List.forall_mem_cons.1 h
    rw [List.cons_append, told_cons, ih hcs]
    simp [ha, hne]

theorem Told.filter {keep : Expr → Bool} (h : Told scope row es)
    (hkeep : ∀ e ∈ es, ¬ keep e → ∀ a, e.truthOn scope row = .ok a → a ≠ some false) :
    Told scope row (es.filter keep) := by
  induction es with
  | nil => exact h
  | cons e es ih =>
    obtain ⟨hkeep, hrest⟩ := List.forall_mem_cons.1 hkeep
    obtain ⟨a, ha, h⟩ := told_cons.1 h
    by_cases hke : keep e
    · rw [List.filter_cons_of_pos hke, told_cons]
      exact ⟨a, ha, h.imp_right fun h => ih h hrest⟩
    · rw [List.filter_cons_of_neg hke]
      exact ih (h.resolve_left (hkeep hke a ha)) hrest

theorem NotFalse.of_equiv (hde : d.equiv e) (h : d.NotFalse scope row) {a : Option Bool}
    (ha : e.truthOn scope row = .ok a) : a ≠ some false := by
  obtain ⟨b, hb, hne⟩ := h
  have hworth := worth_of_truthOn hb
  rw [worth_eq_of_equiv _ hde, worth_of_truthOn ha] at hworth
  rintro rfl
  rcases b with _ | _ | _ <;> simp_all [Value.ofTruth]

end Expr

namespace Filter

theorem exists_insertAll_eq_append (cs es : List Expr) : ∃ ds, insertAll cs es = cs ++ ds := by
  induction es generalizing cs with
  | nil => exact ⟨[], (List.append_nil cs).symm⟩
  | cons e es ih =>
    rw [insertAll]
    split
    · exact ih cs
    · obtain ⟨ds, hds⟩ := ih (cs ++ [e])
      exact ⟨e :: ds, by rw [hds, List.append_assoc]; rfl⟩

theorem told_insertAll (hne : ∀ c ∈ cs, c.NotFalse scope row) (h : Expr.Told scope row es) :
    Expr.Told scope row (insertAll cs es) := by
  induction es generalizing cs with
  | nil => rw [insertAll, ← List.append_nil cs, Expr.told_append hne]; exact h
  | cons e es ih =>
    obtain ⟨a, ha, h⟩ := Expr.told_cons.1 h
    rw [insertAll]
    split
    · next hcont =>
      obtain ⟨d, hd, hde⟩ := contains_iff.1 hcont
      exact ih hne (h.resolve_left ((hne d hd).of_equiv hde ha))
    · by_cases hfalse : a = some false
      · obtain ⟨ds, hds⟩ := exists_insertAll_eq_append (cs ++ [e]) es
        rw [hds, List.append_assoc, Expr.told_append hne, List.singleton_append, Expr.told_cons]
        exact ⟨a, ha, .inl hfalse⟩
      · refine ih ?_ (h.resolve_left hfalse)
        simpa [or_imp, forall_and] using ⟨hne, a, ha, hfalse⟩

/-- What is left over of a filter can be told where the filter can, if the row meets the rest. -/
theorem holds_diff (hpass : g.Passes (row.env scope))
    (h : ∀ e ∈ f, ∃ b, e.holds scope row = .ok b) :
    ∀ e ∈ f.diff g, ∃ b, e.holds scope row = .ok b := by
  intro d hd
  have hpart : Expr.Told scope row (f.conjuncts.filter fun e => !contains g.conjuncts e) := by
    -- A dropped conjunct has an equivalent one in `g`, which the row satisfies: it is true, so it
    -- cannot be the false one that tells the rest.
    cases f with
    | none => exact Expr.told_nil
    | some e =>
      have htold : Expr.Told scope row e.conjuncts := by
        obtain ⟨a, ha⟩ := Expr.exists_holds.1 (h e rfl)
        exact ⟨a, Expr.truthOn_eq_conjunction e ▸ ha⟩
      refine (told_insertAll (by simp) htold).filter fun c hc hdrop a ha => ?_
      obtain ⟨c', hc', hequiv⟩ := contains_iff.1 (by simpa using hdrop)
      have htrue := passes_iff_conjuncts.1 hpass c' hc'
      rw [Expr.passes_iff_of_equiv hequiv, Expr.Passes, Expr.worth_of_truthOn ha] at htrue
      rintro rfl
      cases htrue
  have hsingle (c : Expr) (hc : c ∈ f.conjuncts.filter fun e => !contains g.conjuncts e) :
      c.conjuncts = [c] := by
    obtain ⟨e, -, hce⟩ := mem_conjuncts (List.mem_of_mem_filter hc)
    exact Expr.conjuncts_eq_singleton hce
  rw [Expr.exists_holds, Expr.truthOn_eq_conjunction, conjuncts_of_mem_ofList hd hsingle]
  exact hpart

end Filter

end RelPlan

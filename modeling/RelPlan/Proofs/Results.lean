import Mathlib.Data.List.Forall2
import Mathlib.Data.List.ReduceOption
import RelPlan.Logged

/-!
# Computations that may fail

When a sequence of fallible steps succeeds, each step has.  `bind_eq_ok` and its relatives take a
successful computation apart without unfolding it.  The result of a computation with notes is a
computation without (`Logged.result_bind`).
-/

namespace RelPlan.Result

variable {α β γ : Type} {x : Result α} {f : α → Result β} {a : α} {b : β} {e : QueryError}

@[simp] theorem pure_eq (a : α) : (pure a : Result α) = .ok a := rfl

@[simp] theorem throw_eq (e : QueryError) : (throw e : Result α) = .error e := rfl

@[simp] theorem ok_bind (a : α) (f : α → Result β) : (Except.ok a >>= f : Result β) = f a := rfl

@[simp] theorem error_bind (e : QueryError) (f : α → Result β) :
    (Except.error e >>= f : Result β) = .error e := rfl

@[simp] theorem map_ok (f : α → β) (a : α) : (f <$> (.ok a : Result α)) = .ok (f a) := rfl

@[simp] theorem map_error (f : α → β) (e : QueryError) :
    (f <$> (.error e : Result α)) = .error e := rfl

theorem bind_eq_ok : (x >>= f) = .ok b ↔ ∃ a, x = .ok a ∧ f a = .ok b := by
  cases x <;> simp

theorem map_eq_ok {f : α → β} : f <$> x = .ok b ↔ ∃ a, x = .ok a ∧ f a = b := by
  cases x <;> simp

theorem mapM_eq_ok {as : List α} {bs : List β} :
    as.mapM f = .ok bs ↔ List.Forall₂ (fun a b => f a = .ok b) as bs := by
  induction as generalizing bs with
  | nil => cases bs <;> simp
  | cons a as ih =>
    simp only [List.mapM_cons, bind_eq_ok, pure_eq, Except.ok.injEq]
    constructor
    · rintro ⟨b, hb, bs', hbs, rfl⟩
      exact .cons hb (ih.1 hbs)
    · rintro ⟨⟩
      next b bs' hb hbs => exact ⟨b, hb, bs', ih.2 hbs, rfl⟩

theorem exists_of_mapM_eq_ok {as : List α} {bs : List β} (h : as.mapM f = .ok bs) (ha : a ∈ as) :
    ∃ b ∈ bs, f a = .ok b := by
  have hall := mapM_eq_ok.1 h
  clear h
  induction hall with
  | nil => cases ha
  | cons hb _ ih =>
    rcases List.mem_cons.1 ha with rfl | ha
    · exact ⟨_, List.mem_cons_self, hb⟩
    · obtain ⟨b, hmem, hb⟩ := ih ha
      exact ⟨b, List.mem_cons_of_mem _ hmem, hb⟩

theorem mapM_congr {g : α → Result β} {as : List α} (h : ∀ a ∈ as, f a = g a) :
    as.mapM f = as.mapM g := by
  induction as with
  | nil => rfl
  | cons a as ih =>
    simp only [List.mapM_cons, h a (by simp), ih fun b hb => h b (by simp [hb])]

theorem filterM_eq_ok {p : α → Result Bool} {as bs : List α} (h : as.filterM p = .ok bs) :
    (∀ a ∈ as, ∃ v, p a = .ok v) ∧ bs = as.filter fun a => (p a).toOption = some true := by
  have haux (as acc : List α) (bs : List α) (h : as.filterAuxM p acc = .ok bs) :
      (∀ a ∈ as, ∃ v, p a = .ok v) ∧
        bs = (as.filter fun a => (p a).toOption = some true).reverse ++ acc := by
    induction as generalizing acc with
    | nil => cases h; simp
    | cons a as ih =>
      obtain ⟨v, hv, h⟩ := bind_eq_ok.1 h
      obtain ⟨hall, rfl⟩ := ih _ h
      refine ⟨List.forall_mem_cons.2 ⟨⟨v, hv⟩, hall⟩, ?_⟩
      cases v <;> simp [hv, Except.toOption]
  obtain ⟨bs', hbs, h⟩ := bind_eq_ok.1 h
  cases h
  obtain ⟨hall, rfl⟩ := haux as [] bs' hbs
  exact ⟨hall, by simp⟩

theorem filterM_congr {p q : α → Result Bool} {as : List α} (h : ∀ a ∈ as, p a = q a) :
    as.filterM p = as.filterM q := by
  have haux (as acc : List α) (h : ∀ a ∈ as, p a = q a) :
      as.filterAuxM p acc = as.filterAuxM q acc := by
    induction as generalizing acc with
    | nil => rfl
    | cons a as ih =>
      obtain ⟨ha, has⟩ := List.forall_mem_cons.1 h
      simp only [List.filterAuxM, ha]
      exact congrArg _ (funext fun v => ih _ has)
  simp only [List.filterM, haux as [] h]

theorem filterMapM_eq_ok {f : α → Result (Option β)} {as : List α} {bs : List β}
    (h : as.filterMapM f = .ok bs) :
    ∃ os, List.Forall₂ (fun a o => f a = .ok o) as os ∧ bs = os.reduceOption := by
  induction as generalizing bs with
  | nil => cases h; exact ⟨[], .nil, rfl⟩
  | cons a as ih =>
    rw [List.filterMapM_cons] at h
    obtain ⟨o, ho, h⟩ := bind_eq_ok.1 h
    match o, h with
    | none, h =>
      obtain ⟨os, hos, rfl⟩ := ih h
      exact ⟨none :: os, .cons ho hos, rfl⟩
    | some b, h =>
      obtain ⟨bs', hbs, h⟩ := bind_eq_ok.1 h
      cases h
      obtain ⟨os, hos, rfl⟩ := ih hbs
      exact ⟨some b :: os, .cons ho hos, rfl⟩

theorem filterMapM_congr {f g : α → Result (Option β)} {as : List α} (h : ∀ a ∈ as, f a = g a) :
    as.filterMapM f = as.filterMapM g := by
  induction as with
  | nil => rfl
  | cons a as ih =>
    obtain ⟨ha, has⟩ := List.forall_mem_cons.1 h
    rw [List.filterMapM_cons, List.filterMapM_cons, ha, ih has]

theorem optionMapM_eq_ok {o : Option α} {o' : Option β} :
    o.mapM f = .ok o' ↔ (o = none ∧ o' = none) ∨ ∃ a b, o = some a ∧ o' = some b ∧ f a = .ok b := by
  cases o with
  | none => cases o' <;> simp
  | some a =>
    simp only [Option.mapM_some, map_eq_ok, reduceCtorEq, false_and, false_or, Option.some.injEq]
    constructor
    · rintro ⟨b, hb, rfl⟩; exact ⟨a, b, rfl, rfl, hb⟩
    · rintro ⟨_, b, rfl, rfl, hb⟩; exact ⟨b, hb, rfl⟩

end RelPlan.Result

theorem RelPlan.exists_of_forall₂ {α β : Type} {R : α → β → Prop} {as : List α} {bs : List β}
    {b : β} (h : List.Forall₂ R as bs) (hb : b ∈ bs) : ∃ a ∈ as, R a b := by
  induction h with
  | nil => cases hb
  | cons hab _ ih =>
    rcases List.mem_cons.1 hb with rfl | hb
    · exact ⟨_, List.mem_cons_self, hab⟩
    · obtain ⟨a, ha, hab⟩ := ih hb
      exact ⟨a, List.mem_cons_of_mem _ ha, hab⟩

theorem RelPlan.map_eq_iff_forall₂ {α β γ : Type} {f : α → γ} {g : β → γ} {as : List α}
    {bs : List β} : as.map f = bs.map g ↔ List.Forall₂ (fun a b => f a = g b) as bs := by
  rw [← List.forall₂_eq_eq_eq, List.forall₂_map_left_iff, List.forall₂_map_right_iff]

theorem RelPlan.pairwise_of_forall₂ {α β : Type} {R : α → β → Prop} {S : α → α → Prop}
    {T : β → β → Prop} {as : List α} {bs : List β} (h : List.Forall₂ R as bs)
    (hST : ∀ a a' b b', R a b → R a' b' → S a a' → T b b') (hs : as.Pairwise S) :
    bs.Pairwise T := by
  induction h with
  | nil => exact .nil
  | @cons a b as bs hab hrest ih =>
    cases hs with
    | cons ha hs =>
      refine List.pairwise_cons.2 ⟨?_, ih hs⟩
      clear ih hs
      induction hrest with
      | nil => simp
      | cons hab' _ ih =>
        obtain ⟨ha', ha⟩ := List.forall_mem_cons.1 ha
        exact List.forall_mem_cons.2 ⟨hST _ _ _ _ hab hab' ha', ih ha⟩

namespace RelPlan.Logged

variable {α β : Type}

@[simp] theorem result_bind (x : Logged α) (f : α → Logged β) :
    (x >>= f).result = x.result >>= fun a => (f a).result := by
  show (x.bind f).result = _
  unfold bind
  cases x.result <;> rfl

theorem result_bind_eq_ok {x : Logged α} {f : α → Logged β} {b : β} :
    (x >>= f).result = .ok b ↔ ∃ a, x.result = .ok a ∧ (f a).result = .ok b := by
  rw [result_bind, Result.bind_eq_ok]

@[simp] theorem result_pure (a : α) : (pure a : Logged α).result = .ok a := rfl

@[simp] theorem result_lift (r : Result α) : (liftM r : Logged α).result = r := rfl

@[simp] theorem result_ofResult (r : Result α) : (ofResult r).result = r := rfl

@[simp] theorem result_fail (e : QueryError) : (fail e : Logged α).result = .error e := rfl

@[simp] theorem result_note (n : Note) : (note n).result = .ok () := rfl

theorem result_foldlM (f : β → α → Logged β) (b : β) (as : List α) :
    (as.foldlM f b).result = as.foldlM (fun b a => (f b a).result) b := by
  induction as generalizing b with
  | nil => rfl
  | cons a as ih => simp [List.foldlM_cons, ih]

end RelPlan.Logged

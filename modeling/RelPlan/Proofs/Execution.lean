import Mathlib
import RelPlan.Proofs.Drains

/-!
# Plans executed as they are written

`Plan.eval` executes a plan as it is written: nothing is handed down, no index is used, and every
pair of rows of a join is formed.  Executing the optimized plan yields the same rows, in some order,
wherever both succeed (`Built.execute_sound`), whatever the weights of its tables and the strategies
of its joins are.
-/

namespace RelPlan

variable {columns columns' : List Column} {rows rows' : List Row} {U : List Record} {e : Expr}

namespace Plan

/-- What each node says of the rows of its inputs. -/
def eval : Plan → Result (List Row)
  | source _ (.table r) => .ok r.table.rows
  | source _ (.rows r) => .ok r.rows
  | stage _ (.filter e _) input => do (← input.eval).filterM fun row => e.holds .empty row
  | stage _ (.sort _ _ _) input => input.eval
  | stage _ (.project outputs _ _ _) input => do (← input.eval).mapM (Output.compute .empty outputs)
  | stage _ (.cut c _ _) input => return c.select (← input.eval)
  | stage _ (.rename name _ _ _) input => do
    (← input.eval).mapM fun row => row.reshape (input.columns.map (·.withRelation (some name)))
  | pair _ (.join j) left right => do
    let ls ← left.eval
    let rs ← right.eval
    let pairs ← (ls.flatMap fun l => rs.map (l, ·)).mapM fun x =>
      x.1.concat x.2 (left.columns ++ right.columns)
    match j.condition with
    | some e => pairs.filterM fun row => e.holds .empty row
    | none => pure pairs
  | pair _ (.union u) left right => do
    let ls ← left.eval
    let rs ← right.eval
    let rows ← (ls ++ rs).mapM fun row => row.reshape left.columns
    pure (if u.distinct then rows.eraseDups else rows)

/-- There are neither limits nor offsets in the plan. -/
def uncut : Plan → Bool
  | source _ _ => true
  | stage _ (.cut _ _ _) _ => false
  | stage _ _ input => input.uncut
  | pair _ _ left right => left.uncut && right.uncut

end Plan

theorem stands_filterM (h : List.Forall₂ (Row.Stands columns) rows U)
    (hfilter : rows.filterM (fun row => e.holds .empty row) = .ok rows') :
    List.Forall₂ (Row.Stands columns) rows'
      (U.filter fun x => e.Passes (x.env columns Scope.empty.env)) := by
  obtain ⟨hall, rfl⟩ := Result.filterM_eq_ok hfilter
  clear hfilter
  induction h with
  | nil => exact .nil
  | @cons row x rows U hrow _ ih =>
    obtain ⟨⟨v, hv⟩, hrest⟩ := List.forall_mem_cons.1 hall
    have hpass := Expr.passes_iff_of_holds hv
    rw [hrow.env] at hpass
    have hkeep : (e.holds .empty row).toOption = some true ↔
        e.Passes (x.env columns Scope.empty.env) := by simp [hv, hpass, Except.toOption]
    by_cases hp : e.Passes (x.env columns Scope.empty.env)
    · rw [List.filter_cons_of_pos (by simpa using hkeep.2 hp), List.filter_cons_of_pos (by simpa)]
      exact .cons hrow (ih hrest)
    · rw [List.filter_cons_of_neg (by simpa using mt hkeep.1 hp),
        List.filter_cons_of_neg (by simpa)]
      exact ih hrest

theorem stands_mapM {α β : Type} {R : α → β → Prop} {f : α → Result Row} {g : β → Record}
    {as : List α} {bs : List β} (h : List.Forall₂ R as bs) (hmap : as.mapM f = .ok rows)
    (hf : ∀ a b row, R a b → f a = .ok row → row.Stands columns (g b)) :
    List.Forall₂ (Row.Stands columns) rows (bs.map g) := by
  have hall := Result.mapM_eq_ok.1 hmap
  clear hmap
  induction h generalizing rows with
  | nil => cases hall; exact .nil
  | cons hab _ ih =>
    cases hall with
    | cons hrow hrest => exact .cons (hf _ _ _ hab hrow) (ih hrest)

theorem stands_eraseDups (h : List.Forall₂ (Row.Stands columns) rows U) :
    List.Forall₂ (Row.Stands columns) rows.eraseDups U.eraseDups := by
  induction hn : rows.length using Nat.strongRecOn generalizing rows U with
  | _ n ih =>
    subst hn
    cases h with
    | nil => exact .nil
    | @cons row x rows U hrow hrest =>
      rw [List.eraseDups_cons, List.eraseDups_cons]
      have hfilter : List.Forall₂ (Row.Stands columns) (rows.filter fun row' => !row' == row)
          (U.filter fun x' => !x' == x) := by
        refine List.rel_filter (fun row' x' h => ?_) hrest
        have := Relator.rel_eq (Row.biUnique_stands columns) h hrow
        simpa using not_congr this
      exact .cons hrow (ih _ (Nat.lt_succ_of_le (List.length_filter_le _ _)) hfilter rfl)

theorem stands_reshape (h : List.Forall₂ (Row.Stands columns) rows U)
    (hmap : (rows.mapM fun row => row.reshape columns') = .ok rows') :
    List.Forall₂ (Row.Stands columns') rows' (U.map Record.bare) :=
  stands_mapM h hmap fun _ _ _ hrow hreshape => hrow.reshape hreshape

theorem stands_product {left right : List Column} {ls rs : List Row} {U V : List Record}
    (hl : List.Forall₂ (Row.Stands left) ls U) (hr : List.Forall₂ (Row.Stands right) rs V)
    (hmap : (ls.flatMap fun l => rs.map (l, ·)).mapM (fun x => x.1.concat x.2 columns) = .ok rows) :
    List.Forall₂ (Row.Stands columns) rows (U.flatMap fun x => V.map x.append) := by
  have hpairs : List.Forall₂
      (fun (a : Row × Row) (b : Record × Record) => a.1.Stands left b.1 ∧ a.2.Stands right b.2)
      (ls.flatMap fun l => rs.map (l, ·)) (U.flatMap fun x => V.map (x, ·)) :=
    List.rel_flatMap hl fun l x hlx => List.rel_map (fun r y hry => ⟨hlx, hry⟩) hr
  have hrecords : (U.flatMap fun x => V.map x.append) =
      (U.flatMap fun x => V.map (x, ·)).map fun z => z.1.append z.2 := by
    simp [List.map_flatMap, Function.comp_def]
  rw [hrecords]
  exact stands_mapM hpairs hmap fun a b row hab hrow => hab.1.concat hab.2 hrow

namespace Plan

variable {p : Plan}

/-- Without limits and offsets the rows stand for the records of the plan. -/
theorem Built.stands_eval (hp : p.Built) (hcut : p.uncut) (h : p.eval = .ok rows) :
    List.Forall₂ (Row.Stands p.columns) rows p.records := by
  induction hp generalizing rows with
  | @read t weights ht =>
    cases h
    exact List.forall₂_map_right_iff.2
      (List.forall₂_same.2 fun row hrow => ⟨ht.sound.columns row hrow, rfl⟩)
  | rows hcol =>
    cases h
    exact List.forall₂_map_right_iff.2 (List.forall₂_same.2 fun row hrow => ⟨hcol row hrow, rfl⟩)
  | filter e _ ih =>
    obtain ⟨rows₀, h₀, h⟩ := Result.bind_eq_ok.1 h
    exact stands_filterM (ih hcut h₀) h
  | sort o buffered _ ih => exact ih hcut h
  | project outputs _ ih =>
    obtain ⟨rows₀, h₀, h⟩ := Result.bind_eq_ok.1 h
    exact stands_mapM (ih hcut h₀) h fun _ _ _ hrow hout => hrow.compute (fun _ _ => rfl) hout
  | cut c => cases hcut
  | rename name _ ih =>
    obtain ⟨rows₀, h₀, h⟩ := Result.bind_eq_ok.1 h
    exact stands_reshape (ih hcut h₀) h
  | @join condition choice left right _ _ ihl ihr =>
    obtain ⟨hcutl, hcutr⟩ := Bool.and_eq_true_iff.1 hcut
    obtain ⟨ls, hls, h⟩ := Result.bind_eq_ok.1 h
    obtain ⟨rs, hrs, h⟩ := Result.bind_eq_ok.1 h
    obtain ⟨pairs, hpairs, h⟩ := Result.bind_eq_ok.1 h
    have hproduct := stands_product (ihl hcutl hls) (ihr hcutr hrs) hpairs
    show List.Forall₂ (Row.Stands (left.columns ++ right.columns)) rows (records (pair _ _ _ _))
    cases condition with
    | none =>
      cases h
      simpa only [records, Filter.passes_none, decide_true, List.filter_true] using hproduct
    | some e => simpa only [records, Filter.passes_some] using stands_filterM hproduct h
  | @union distinct left right _ _ ihl ihr =>
    obtain ⟨hcutl, hcutr⟩ := Bool.and_eq_true_iff.1 hcut
    obtain ⟨ls, hls, h⟩ := Result.bind_eq_ok.1 h
    obtain ⟨rs, hrs, h⟩ := Result.bind_eq_ok.1 h
    obtain ⟨all, hall, h⟩ := Result.bind_eq_ok.1 h
    cases h
    rw [List.mapM_append] at hall
    obtain ⟨ls', hls', hall⟩ := Result.bind_eq_ok.1 hall
    obtain ⟨rs', hrs', hall⟩ := Result.bind_eq_ok.1 hall
    cases hall
    have hboth : List.Forall₂ (Row.Stands left.columns) (ls' ++ rs')
        ((left.records ++ right.records).map Record.bare) := by
      rw [List.map_append]
      exact List.rel_append (stands_reshape (ihl hcutl hls) hls')
        (stands_reshape (ihr hcutr hrs) hrs')
    cases distinct with
    | false => exact hboth
    | true => exact stands_eraseDups hboth

/-- The rows of an executed plan are those of the plan as it is written. -/
theorem Built.execute_sound (hp : p.Built) (hcut : p.uncut) (hx : p.IsExact)
    (heval : p.eval = .ok rows) (hrun : p.execute.2.result = .ok rows') : rows'.Perm rows := by
  obtain ⟨U, hstands, hperm⟩ := hp.stands_execute hx hrun
  exact perm_of_stands hstands (hp.stands_eval hcut heval) hperm

/-- A table `t` of `a` and `b`, ordered by `a` in an index. -/
def storedPairs : Plan :=
  .read (Table.run [.addIndex (.ordered "i" [.ref ⟨none, "a"⟩] false), .insert [.int 7, .int 1],
    .insert [.int 3, .int 5], .insert [.int 7, .int 4]] (.make "t" [("a", .int), ("b", .int)])).1 {}

/-- The rows of `t` in which `a` is `7`, found twice and kept once, by descending `b`. -/
def joinedPairs : Plan :=
  .sort ⟨[⟨.ref ⟨none, "b"⟩, true⟩]⟩
    (.filter (.binary (.cmp .eq) (.ref ⟨none, "a"⟩) (.const (.int 7)))
      (.union true (.project [("a", .ref ⟨none, "a"⟩), ("b", .ref ⟨none, "b"⟩)] storedPairs)
        (.project [("a", .ref ⟨some "x", "a"⟩), ("b", .ref ⟨some "t", "b"⟩)]
          (.join (some (.binary (.cmp .eq) (.ref ⟨some "x", "a"⟩) (.ref ⟨some "t", "a"⟩))) .hash
            (.rename "x" storedPairs) storedPairs))))

/-- The rows of `joinedPairs` by ascending or descending `b`. -/
def pairsOf (bs : List Int64) : List Row :=
  bs.map fun b => ⟨joinedPairs.columns, [.int 7, .int b], none, rfl⟩

theorem execute_sound_joined : joinedPairs.eval = .ok (pairsOf [1, 4]) ∧
    joinedPairs.execute.2.result = .ok (pairsOf [4, 1]) ∧
    (pairsOf [4, 1]).Perm (pairsOf [1, 4]) := by
  have hbuilt : storedPairs.Built := .read _ ⟨_, _, _, by decide, rfl⟩
  have heval : joinedPairs.eval = .ok (pairsOf [1, 4]) := by cbv
  have hrun : joinedPairs.execute.2.result = .ok (pairsOf [4, 1]) := by cbv
  refine ⟨heval, hrun, Built.execute_sound ?_ (by decide) (by decide) heval hrun⟩
  exact .sort _ _ (.filter _ (.union _ (.project _ hbuilt)
    (.project _ (.join _ _ (.rename _ hbuilt) hbuilt))))

end Plan

end RelPlan

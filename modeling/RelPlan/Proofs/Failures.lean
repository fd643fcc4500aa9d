import RelPlan.Proofs.SettledScans

/-!
# Causes of failure

`FailsIn C` says of a computation, and of a scan that is read to its end, that it fails for no cause
outside `C`.  An operation on scans adds to the causes of its inputs only those of what it evaluates
on their rows.
-/

namespace RelPlan

variable {α β : Type} {C : QueryError → Prop}

/-- What operators fail for on values. -/
def QueryError.OfValues : QueryError → Prop
  | typeMismatch _ _ _ | divisionByZero | integerOverflow => True
  | _ => False

namespace Result

variable {x : Result α} {f : α → Result β} {as : List α}

/-- The computation fails for no other cause. -/
def FailsIn (C : QueryError → Prop) (x : Result α) : Prop := ∀ cause, x = .error cause → C cause

theorem failsIn_ok (a : α) : FailsIn C (.ok a) := nofun

theorem failsIn_error {cause : QueryError} (h : C cause) : FailsIn C (.error cause : Result α) := by
  rintro _ ⟨⟩
  exact h

theorem FailsIn.bind (hx : FailsIn C x) (hf : ∀ a, x = .ok a → FailsIn C (f a)) :
    FailsIn C (x >>= f) := by
  cases x with
  | ok a => exact hf a rfl
  | error cause => exact failsIn_error (hx cause rfl)

theorem FailsIn.map (hx : FailsIn C x) (g : α → β) : FailsIn C (g <$> x) := by
  cases x with
  | ok a => exact failsIn_ok _
  | error cause => exact failsIn_error (hx cause rfl)

theorem FailsIn.ite {p : Prop} [Decidable p] {y : Result α} (hx : FailsIn C x) (hy : FailsIn C y) :
    FailsIn C (if p then x else y) := by
  split
  exacts [hx, hy]

theorem failsIn_mapM (h : ∀ a ∈ as, FailsIn C (f a)) : FailsIn C (as.mapM f) := by
  induction as with
  | nil => exact failsIn_ok _
  | cons a as ih =>
    obtain ⟨ha, has⟩ := List.forall_mem_cons.1 h
    rw [List.mapM_cons]
    exact ha.bind fun _ _ => (ih has).bind fun _ _ => failsIn_ok _

theorem failsIn_filterM {p : α → Result Bool} (h : ∀ a ∈ as, FailsIn C (p a)) :
    FailsIn C (as.filterM p) := by
  have haux (acc : List α) : FailsIn C (as.filterAuxM p acc) := by
    induction as generalizing acc with
    | nil => exact failsIn_ok _
    | cons a as ih =>
      obtain ⟨ha, has⟩ := List.forall_mem_cons.1 h
      exact ha.bind fun _ _ => ih has _
  exact (haux []).bind fun _ _ => failsIn_ok _

theorem failsIn_filterMapM {g : α → Result (Option β)} (h : ∀ a ∈ as, FailsIn C (g a)) :
    FailsIn C (as.filterMapM g) := by
  induction as with
  | nil => exact failsIn_ok _
  | cons a as ih =>
    obtain ⟨ha, has⟩ := List.forall_mem_cons.1 h
    rw [List.filterMapM_cons]
    refine ha.bind fun o _ => ?_
    cases o with
    | none => exact ih has
    | some b => exact (ih has).bind fun _ _ => failsIn_ok _

end Result

open Result

section
variable {scope : Scope} {row : Row} {e : Expr} {es : List Expr}
  (hvalues : ∀ cause, cause.OfValues → C cause)
include hvalues

theorem Value.failsIn_truth (v : Value) : FailsIn C v.truth := by
  cases v with
  | null | bool => exact failsIn_ok _
  | int | float | text => exact failsIn_error (hvalues _ trivial)

theorem Value.failsIn_compareSql (v w : Value) : FailsIn C (v.compareSql w) :=
  (failsIn_ok _).ite ((failsIn_ok _).ite (failsIn_error (hvalues _ trivial)))

theorem Value.failsIn_ofIntChecked (n : Int) : FailsIn C (Value.ofIntChecked n) :=
  (failsIn_ok _).ite (failsIn_error (hvalues _ trivial))

theorem UnaryOp.failsIn_apply (op : UnaryOp) (v : Value) : FailsIn C (op.apply v) := by
  cases op with
  | isNull | isNotNull => exact failsIn_ok _
  | not => exact (v.failsIn_truth hvalues).bind fun _ _ => failsIn_ok _
  | negate =>
    cases v with
    | null | float => exact failsIn_ok _
    | int n => exact Value.failsIn_ofIntChecked hvalues _
    | bool | text => exact failsIn_error (hvalues (.typeMismatch _ _ _) trivial)

theorem Arith.failsIn_apply (op : Arith) (v w : Value) : FailsIn C (op.apply v w) := by
  have hdiv (x y : Binary64) : FailsIn C (op.applyBinary64 x y) := by
    cases op with
    | add | sub | mul => exact failsIn_ok _
    | div => exact (failsIn_error (hvalues .divisionByZero trivial)).ite (failsIn_ok _)
  unfold apply
  split
  · exact failsIn_ok _
  · exact failsIn_ok _
  · cases op with
    | add | sub | mul => exact Value.failsIn_ofIntChecked hvalues _
    | div =>
      exact (failsIn_error (hvalues .divisionByZero trivial)).ite
        (Value.failsIn_ofIntChecked hvalues _)
  · split
    · exact hdiv _ _
    · exact failsIn_error (hvalues _ trivial)

/-- Evaluation fails for what the references or the operators fail for. -/
theorem Expr.failsIn_evalWith {env : ColumnRef → Result Value}
    (henv : ∀ r ∈ e.refs, FailsIn C (env r)) : FailsIn C (e.evalWith env) := by
  induction e with
  | const => exact failsIn_ok _
  | ref r => exact henv r (by simp [refs])
  | unary op e ih => exact (ih henv).bind fun v _ => op.failsIn_apply hvalues v
  | binary op l r ihl ihr =>
    obtain ⟨hl, hr⟩ := List.forall_mem_append.1 henv
    cases op with
    | and | or =>
      refine (ihl hl).bind fun v _ => (v.failsIn_truth hvalues).bind fun a _ => ?_
      refine (failsIn_ok _).ite ((ihr hr).bind fun w _ => ?_)
      exact (w.failsIn_truth hvalues).bind fun _ _ => failsIn_ok _
    | cmp c =>
      refine (ihl hl).bind fun v _ => (ihr hr).bind fun w _ => ?_
      exact (v.failsIn_compareSql hvalues w).bind fun _ _ => failsIn_ok _
    | arith op =>
      exact (ihl hl).bind fun v _ => (ihr hr).bind fun w _ => op.failsIn_apply hvalues v w
    | distinct => exact (ihl hl).bind fun _ _ => (ihr hr).bind fun _ _ => failsIn_ok _

theorem Expr.failsIn_holds (h : FailsIn C (e.evalRow scope row)) : FailsIn C (e.holds scope row) :=
  h.bind fun v _ => (v.failsIn_truth hvalues).bind fun _ _ => failsIn_ok _

theorem failsIn_checkComparable (type : DataType) (v : Value) :
    FailsIn C (checkComparable type v) :=
  (failsIn_ok _).ite (failsIn_error (hvalues _ trivial))

theorem failsIn_keysEqual (vs ws : List Value) : FailsIn C (keysEqual vs ws) := by
  induction vs generalizing ws with
  | nil => exact failsIn_ok _
  | cons v vs ih =>
    cases ws with
    | nil => exact failsIn_ok _
    | cons w ws =>
      exact (v.failsIn_compareSql hvalues w).bind fun _ _ => (ih ws).ite (failsIn_ok _)

end

theorem failsIn_joinKey {scope : Scope} {row : Row} {es : List Expr}
    (h : ∀ e ∈ es, FailsIn C (e.evalRow scope row)) : FailsIn C (joinKey scope row es) := by
  induction es with
  | nil => exact failsIn_ok _
  | cons e es ih =>
    obtain ⟨he, hes⟩ := List.forall_mem_cons.1 h
    exact he.bind fun _ _ => (failsIn_ok _).ite ((ih hes).bind fun _ _ => failsIn_ok _)

theorem Row.failsIn_make {columns : List Column} {vs : List Value}
    (harity : ∀ n m, C (.arityMismatch n m)) : FailsIn C (Row.make columns vs) := by
  unfold make
  split
  exacts [failsIn_ok _, failsIn_error (harity _ _)]

/-! ### Scans -/

namespace Scan

variable {P : α → Prop} {s : Scan α}

/-- Reading the scan to its end fails for no other cause. -/
def FailsIn (C : QueryError → Prop) : Scan α → Prop
  | done => True
  | fail cause => C cause
  | note _ s | row _ s => (s ()).FailsIn C

theorem failsIn_ofList (as : List α) : (ofList as).FailsIn C := by
  induction as with
  | nil => trivial
  | cons a as ih => exact ih

theorem failsIn_push {r : Result α} {rest : Unit → Scan α} (h : Result.FailsIn C r)
    (hrest : (rest ()).FailsIn C) : (push r rest).FailsIn C := by
  cases r with
  | ok a => exact hrest
  | error cause => exact h cause rfl

theorem failsIn_withNotes {s : Unit → Scan α} (h : (s ()).FailsIn C) (ns : List Note) :
    (withNotes ns s).FailsIn C := by
  induction ns with
  | nil => exact h
  | cons n ns ih => exact ih

theorem failsIn_ofLogged {x : Logged (Unit → Scan α)} (hx : Result.FailsIn C x.result)
    (h : ∀ s, x.result = .ok s → (s ()).FailsIn C) : (ofLogged x).FailsIn C := by
  obtain ⟨notes, r⟩ := x
  cases r with
  | ok s => exact failsIn_withNotes (h s rfl) notes
  | error cause => exact failsIn_withNotes (s := fun _ => fail cause) (hx cause rfl) notes

namespace FailsIn

theorem append (h : s.FailsIn C) {t : Unit → Scan α} (ht : (t ()).FailsIn C) :
    (s.append t).FailsIn C := by
  induction s with
  | done => exact ht
  | fail cause => exact h
  | note n s ih | row a s ih => exact ih () h

theorem bind (h : s.FailsIn C) (hall : s.All P) {f : α → Scan β}
    (hf : ∀ a, P a → (f a).FailsIn C) : (s.bind f).FailsIn C := by
  induction s with
  | done => trivial
  | fail cause => exact h
  | note n s ih => exact ih () h hall
  | row a s ih =>
    rw [bind_row]
    exact (hf a hall.1).append (ih () h hall.2)

theorem filterMap (h : s.FailsIn C) (hall : s.All P) {f : α → Result (Option β)}
    (hf : ∀ a, P a → Result.FailsIn C (f a)) : (s.filterMap f).FailsIn C := by
  induction s with
  | done => trivial
  | fail cause => exact h
  | note n s ih => exact ih () h hall
  | row a s ih =>
    rw [Scan.filterMap]
    split
    · exact ih () h hall.2
    · exact ih () h hall.2
    · next cause hcause => exact hf a hall.1 cause hcause

theorem map (h : s.FailsIn C) (hall : s.All P) {f : α → Result β}
    (hf : ∀ a, P a → Result.FailsIn C (f a)) : (s.map f).FailsIn C :=
  h.filterMap hall fun a ha => (hf a ha).map some

theorem filter (h : s.FailsIn C) (hall : s.All P) {p : α → Result Bool}
    (hp : ∀ a, P a → Result.FailsIn C (p a)) : (s.filter p).FailsIn C :=
  h.filterMap hall fun a ha => (hp a ha).bind fun _ _ => failsIn_ok _

theorem take (h : s.FailsIn C) (k : Nat) : (s.take k).FailsIn C := by
  induction s generalizing k with
  | done => cases k <;> trivial
  | fail cause =>
    cases k with
    | zero => trivial
    | succ k => exact h
  | note n s ih =>
    cases k with
    | zero => trivial
    | succ k => exact ih () h (k + 1)
  | row a s ih =>
    cases k with
    | zero => trivial
    | succ k => rw [take_row]; exact ih () h k

theorem drop (h : s.FailsIn C) (k : Nat) : (s.drop k).FailsIn C := by
  induction s generalizing k with
  | done => cases k <;> trivial
  | fail cause => cases k <;> exact h
  | note n s ih =>
    cases k with
    | zero => exact h
    | succ k => exact ih () h (k + 1)
  | row a s ih =>
    cases k with
    | zero => exact h
    | succ k => exact ih () h k

theorem distinct (h : s.FailsIn C) (key : α → List Value) (seen : KeyMap Unit) :
    (s.distinct key seen).FailsIn C := by
  induction s generalizing seen with
  | done => trivial
  | fail cause => exact h
  | note n s ih => exact ih () h seen
  | row a s ih =>
    rw [Scan.distinct]
    split
    · exact ih () h seen
    · exact ih () h _

theorem probe (h : s.FailsIn C) : (s.probe : Scan β).FailsIn C := by
  induction s with
  | done | row => trivial
  | fail cause => exact h
  | note n s ih => exact ih () h

theorem seek (h : s.FailsIn C) (p : α → Bool) :
    Result.FailsIn C (s.seek p).1.result ∧ ((s.seek p).2 ()).FailsIn C := by
  unfold Scan.seek
  generalize ([] : List Note) = ns
  induction s generalizing ns with
  | done => exact ⟨failsIn_ok _, trivial⟩
  | fail cause => exact ⟨failsIn_error h, h⟩
  | note n s ih => exact ih () h _
  | row a s ih =>
    rw [seekAfter]
    split
    · exact ⟨failsIn_ok _, h⟩
    · exact ih () h _

theorem drain (h : s.FailsIn C) : Result.FailsIn C s.drain.result := by
  induction s with
  | done => exact failsIn_ok _
  | fail cause => exact failsIn_error h
  | note n s ih =>
    rw [drain_note]
    exact ih () h
  | row a s ih =>
    rw [drain_row]
    exact (ih () h).map _

end FailsIn

end Scan

section
variable {scope : Scope} (hvalues : ∀ cause, cause.OfValues → C cause)
include hvalues

theorem Limit.failsIn_tightestFrom {type : DataType} {tighter : Ordering} {bs : List Bound}
    (h : ∀ b ∈ bs, FailsIn C (b.expr.eval scope)) (best : Option Limit) :
    FailsIn C (tightestFrom scope type tighter best bs) := by
  induction bs generalizing best with
  | nil => exact failsIn_ok _
  | cons b bs ih =>
    obtain ⟨hb, hbs⟩ := List.forall_mem_cons.1 h
    exact hb.bind fun v _ => (failsIn_checkComparable hvalues type v).bind fun _ _ =>
      (failsIn_ok _).ite (ih hbs _)

theorem Limits.failsIn_ofRanges {types : List DataType} {cs : List ColumnRange}
    (h : ∀ c ∈ cs, ∀ b ∈ c.lower ++ c.upper, FailsIn C (b.expr.eval scope)) :
    FailsIn C (ofRanges scope types cs) := by
  induction cs generalizing types with
  | nil => exact failsIn_ok _
  | cons c cs ih =>
    obtain ⟨hc, hcs⟩ := List.forall_mem_cons.1 h
    obtain ⟨hlower, hupper⟩ := List.forall_mem_append.1 hc
    refine (Limit.failsIn_tightestFrom hvalues hlower none).bind fun lower _ => ?_
    refine (Limit.failsIn_tightestFrom hvalues hupper none).bind fun upper _ => ?_
    refine (ih hcs).bind fun rest _ => ?_
    split <;> exact failsIn_ok _

theorem Index.failsIn_scan {i : Index} {probe : Probe}
    (hmismatch : ∀ index, C (.indexProbeMismatch index))
    (h : ∀ e ∈ probe.exprs, FailsIn C (e.eval scope)) : FailsIn C (i.scan probe scope) := by
  obtain ⟨cond, base⟩ := i
  cases base with
  | ordered i =>
    cases probe with
    | range r =>
      have hlimits : FailsIn C (Limits.ofRanges scope i.checkedTypes r.columns) :=
        Limits.failsIn_ofRanges hvalues fun c hc b hb =>
          h b.expr (List.mem_flatMap.2 ⟨c, hc, List.mem_map_of_mem hb⟩)
      refine hlimits.bind fun limits _ => ?_
      split
      · exact failsIn_ok _
      · split <;> exact failsIn_ok _
    | key => exact failsIn_error (hmismatch _)
  | hashed i =>
    cases probe with
    | range => exact failsIn_error (hmismatch _)
    | key e =>
      refine (h e (List.mem_singleton_self e)).bind fun v _ => ?_
      have hread : FailsIn C (if v.isNull then pure []
          else pure (((i.bucket (i.hash v)).filter fun x => HashedIndex.hits v x.2).map (·.1))) :=
        (failsIn_ok _).ite (failsIn_ok _)
      exact ((failsIn_checkComparable hvalues _ v).bind fun _ _ => hread).ite hread

end

theorem AccessPath.failsIn_rowsAt {t : Table} {index : String} {tids : List Nat}
    (hmissing : ∀ tid, C (.missingRow t.name index tid)) : (rowsAt t index tids).FailsIn C := by
  induction tids with
  | nil => trivial
  | cons tid tids ih =>
    rw [rowsAt]
    split
    exacts [ih, hmissing tid]

/-! ### Joins -/

variable {columns : List Column} {scope : Scope} {P Q : Row → Prop}

theorem failsIn_nestedLoop {partners : Row → Logged (Unit → Scan Row)} {left : Unit → Scan Row}
    (harity : ∀ n m, C (.arityMismatch n m)) (hl : (left ()).FailsIn C) (hall : (left ()).All P)
    (hp : ∀ row, P row → (Scan.ofLogged (partners row)).FailsIn C) :
    (nestedLoop columns partners left).FailsIn C :=
  hl.bind hall fun row hrow =>
    (hp row hrow).map (Scan.all_true _) fun _ _ => Row.failsIn_make harity

theorem Scan.FailsIn.keyed {s : Scan Row} {keys : List Expr} (h : s.FailsIn C) (hall : s.All P)
    (hkeys : ∀ row, P row → Result.FailsIn C (joinKey scope row keys)) :
    (s.keyed scope keys).FailsIn C :=
  h.filterMap hall fun row hrow => (hkeys row hrow).bind fun _ _ => failsIn_ok _

theorem failsIn_buildThen {probe : HashTable → Scan Row} {s : Scan Keyed} {table : HashTable}
    (h : s.FailsIn C) (hall : s.All fun x => P x.row) (ht : table.Holds P)
    (hprobe : ∀ table : HashTable, table.Holds P → (probe table).FailsIn C) :
    (buildThen probe table s).FailsIn C := by
  induction s generalizing table with
  | done => exact hprobe table ht
  | fail cause => exact h
  | note n s ih => exact ih () h hall ht
  | row x s ih => exact ih () h hall.2 (ht.add hall.1)

section
variable {join : Row → Row → Result Row} (hjoin : ∀ l r, FailsIn C (join l r))
include hjoin

theorem failsIn_mergeGroup (left first : Keyed) {next : (Unit → Scan Keyed) → Scan Row}
    (hnext : ∀ s, (s ()).FailsIn C → (next s).FailsIn C) {right : Scan Keyed}
    (hr : right.FailsIn C) : (mergeGroup join left first next right).FailsIn C := by
  induction right with
  | done => exact hnext _ trivial
  | fail cause => exact hr
  | note n s ih => exact ih () hr
  | row x s ih =>
    rw [mergeGroup]
    split
    · exact Scan.failsIn_push (hjoin _ _) (ih () hr)
    · exact hnext (fun _ => .row x s) hr

theorem failsIn_mergeFrom {kept : Bool} (hmark : kept = false → C .markUnsupported)
    (notes : List Note) {right : Unit → Scan Keyed} (hr : (right ()).FailsIn C)
    {group : Option MergeGroup} (hgroup : ∀ g ∈ group, (g.rest ()).FailsIn C) {left : Scan Keyed}
    (hl : left.FailsIn C) : (mergeFrom join kept notes right group left).FailsIn C := by
  -- On the left input only: a row of it reads on in the right input, or in what the group kept of
  -- it, and both are handed to the next row.
  induction left generalizing notes right group with
  | done => exact Scan.failsIn_withNotes hr.probe notes
  | fail cause =>
    exact Scan.failsIn_withNotes (s := fun _ => (.fail cause : Scan Row)) hl notes
  | note n s ih =>
    exact Scan.failsIn_withNotes (s := fun _ => .note n _) (ih () [] hr hgroup hl) notes
  | row x s ih =>
    have hjoinGroup (g : MergeGroup) (hg : (g.rest ()).FailsIn C) :
        (Scan.push (join x.row g.first.row) fun _ =>
          mergeGroup join x g.first (fun beyond => mergeFrom join kept [] beyond (some g) (s ()))
            (g.rest ())).FailsIn C := by
      refine Scan.failsIn_push (hjoin _ _) (failsIn_mergeGroup hjoin _ _ (fun beyond hb => ?_) hg)
      exact ih () [] hb (by simpa using hg) hl
    obtain ⟨hfound, hrest⟩ := hr.seek fun y => orderKeys x.key y.key != .gt
    rw [mergeFrom]
    dsimp only
    split
    · next g hg =>
      have hmem := (Option.filter_eq_some_iff.1 hg).1
      exact Scan.failsIn_withNotes (hjoinGroup g (hgroup g hmem)) notes
    · split
      · next cause hcause =>
        exact Scan.failsIn_withNotes (s := fun _ => .fail cause) (hfound cause hcause) _
      · exact Scan.failsIn_withNotes (s := fun _ => .done) trivial _
      · next y _ =>
        split
        · refine ih () _ ?_ (by simp) hl
          exact hrest
        · refine Scan.failsIn_withNotes ?_ _
          cases kept with
          | true => exact hjoinGroup ⟨y, _⟩ hrest
          | false => exact hmark rfl

end

section
variable {pairs : List KeyPair} {left : Unit → Scan Row} (harity : ∀ n m, C (.arityMismatch n m))
include harity

theorem failsIn_hashJoin {right : Unit → Scan Row} (hvalues : ∀ cause, cause.OfValues → C cause)
    (hl : (left ()).FailsIn C) (hlall : (left ()).All P) (hr : (right ()).FailsIn C)
    (hrall : (right ()).All Q)
    (hleft : ∀ row, P row → FailsIn C (joinKey scope row (pairs.map KeyPair.left)))
    (hright : ∀ row, Q row → FailsIn C (joinKey scope row (pairs.map KeyPair.right))) :
    (hashJoin scope columns pairs left right).FailsIn C := by
  refine failsIn_buildThen (hr.keyed hrall hright) hrall.keyed HashTable.holds_empty
    fun table ht => ?_
  refine (hl.keyed hlall hleft).bind (Scan.all_true _) fun x _ => ?_
  have heach : FailsIn C
      (joinEach scope columns (pairs.map KeyPair.right) x (table.lookup x.key)) :=
    failsIn_filterMapM fun row hrow => (hright row (ht.lookup x.key row hrow)).bind fun _ _ =>
      (failsIn_keysEqual hvalues _ _).bind fun _ _ =>
        ((Row.failsIn_make harity).map _).ite (failsIn_ok _)
  unfold probeTable
  split
  · exact Scan.failsIn_ofList _
  · next cause hcause => exact heach cause hcause

theorem failsIn_mergeJoin {right : Opened} (hmark : right.kept = false → C .markUnsupported)
    (hl : (left ()).FailsIn C) (hlall : (left ()).All P) (hr : (right.scan ()).FailsIn C)
    (hrall : (right.scan ()).All Q)
    (hleft : ∀ row, P row → FailsIn C (joinKey scope row (pairs.map KeyPair.left)))
    (hright : ∀ row, Q row → FailsIn C (joinKey scope row (pairs.map KeyPair.right))) :
    (mergeJoin scope columns pairs left right).FailsIn C :=
  failsIn_mergeFrom (fun _ _ => Row.failsIn_make harity) hmark [] (hr.keyed hrall hright)
    (by simp) (hl.keyed hlall hleft)

end

/-- Neither opening the scan nor reading it fails for another cause. -/
structure Logged.OpensIn (C : QueryError → Prop) (x : Logged Opened) : Prop where
  opening : FailsIn C x.result
  reading : ∀ o, x.result = .ok o → (o.scan ()).FailsIn C

namespace Logged

variable {x : Logged Opened} {o : Opened}

theorem opensIn_pure (h : (o.scan ()).FailsIn C) : OpensIn C (pure o) where
  opening := failsIn_ok o
  reading := by rintro _ ⟨⟩; exact h

theorem OpensIn.bind (hx : x.OpensIn C) {k : Opened → Logged Opened}
    (hk : ∀ o, x.result = .ok o → (o.scan ()).FailsIn C → (k o).OpensIn C) :
    (x >>= k).OpensIn C where
  opening := by
    rw [result_bind]
    exact hx.opening.bind fun o ho => (hk o ho (hx.reading o ho)).opening
  reading o' ho' := by
    obtain ⟨o, ho, ho'⟩ := result_bind_eq_ok.1 ho'
    exact (hk o ho (hx.reading o ho)).reading o' ho'

end Logged

theorem Opened.failsIn_filter {o : Opened} {f : Filter} (h : (o.scan ()).FailsIn C)
    (hall : (o.scan ()).All P) (hf : ∀ row, P row → ∀ e ∈ f, FailsIn C (e.holds scope row)) :
    ((o.filter scope f).scan ()).FailsIn C := by
  cases f with
  | none => exact h
  | some e => exact h.filter hall fun row hrow => hf row hrow e rfl

end RelPlan

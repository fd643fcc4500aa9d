import RelPlan.Proofs.ScannerMarks

/-!
# Plans as scanners

The scan of a plan is the one that its scanner starts (`Plan.scan_eq_scanner`), so a cursor over the
scan gives the answers of the scanner (`Plan.answers_scanner`).  If the plan says that it keeps its
rows then its scanner takes marks, also below a filter (`Plan.rewinds_scanner`).
-/

namespace RelPlan

instance : LawfulMonad Logged :=
  LawfulMonad.mk' Logged
    (fun x => by
      obtain ⟨notes, r⟩ := x
      show Logged.bind _ _ = _
      cases r <;> simp [Logged.bind])
    (fun a f => by
      show Logged.bind ⟨[], .ok a⟩ f = f a
      simp [Logged.bind])
    fun x f g => by
      obtain ⟨notes, r⟩ := x
      show (Logged.bind ⟨notes, r⟩ f).bind g = Logged.bind ⟨notes, r⟩ fun a => (f a).bind g
      cases r with
      | error cause => rfl
      | ok a => cases h : (f a).result <;> simp [Logged.bind, h]

theorem Logged.result_map_eq_ok {α β : Type} {f : α → β} {x : Logged α} {b : β} :
    (f <$> x).result = .ok b ↔ ∃ a, x.result = .ok a ∧ f a = b := by
  rw [map_eq_pure_bind, Logged.result_bind, Result.bind_eq_ok]
  simp

namespace Plan

variable {p input left right : Plan} {phase : Phase} {scope : Scope} {s : Scanner} {o : Opened}

theorem stream_of_once {x : Logged Opened} (h : ∀ o, x.result = .ok o → o.kept = false) :
    x = Scanner.opened <$> (fun o => Scanner.stream o.scan) <$> x := by
  obtain ⟨notes, r⟩ := x
  show _ = Logged.bind (Logged.bind _ _) _
  cases r with
  | error cause => rfl
  | ok o =>
    obtain ⟨scan, kept⟩ := o
    obtain rfl : kept = false := h _ rfl
    simp [Logged.bind, Scanner.opened, Scanner.rest, Scanner.keepsRows]

theorem kept_of_table {r : TableRead}
    (h : ((source phase (.table r)).scan scope).result = .ok o) : o.kept = false := by
  rw [scan] at h
  obtain ⟨-, -, h⟩ := Logged.result_bind_eq_ok.1 h
  have h : (Source.table r).scan scope = .ok o := h
  unfold Source.scan at h
  dsimp only at h
  split at h
  · obtain ⟨s, -, rfl⟩ := Result.map_eq_ok.1 h
    rfl
  · cases h

theorem kept_of_cut {c : Cut} {pushed : Filter} {wanted : Option SortOrder}
    (h : ((stage phase (.cut c pushed wanted) input).scan scope).result = .ok o) :
    o.kept = false := by
  rw [scan] at h
  obtain ⟨-, -, h⟩ := Logged.result_bind_eq_ok.1 h
  obtain ⟨o', -, h⟩ := Logged.result_bind_eq_ok.1 h
  cases h
  rfl

theorem kept_of_pair {s : Pairing} (h : ((pair phase s left right).scan scope).result = .ok o) :
    o.kept = false := by
  cases s with
  | join j =>
    rw [scan] at h
    obtain ⟨-, -, h⟩ := Logged.result_bind_eq_ok.1 h
    obtain ⟨l, -, h⟩ := Logged.result_bind_eq_ok.1 h
    split at h
    · cases h
    · cases h
      rfl
    all_goals
      obtain ⟨r, -, h⟩ := Logged.result_bind_eq_ok.1 h
      cases h
      rfl
  | union u =>
    rw [scan] at h
    obtain ⟨-, -, h⟩ := Logged.result_bind_eq_ok.1 h
    obtain ⟨l, -, h⟩ := Logged.result_bind_eq_ok.1 h
    obtain ⟨r, -, h⟩ := Logged.result_bind_eq_ok.1 h
    dsimp only at h
    split at h <;>
    · cases h
      rfl

theorem opened_wrap (scope : Scope) (f : Filter) (s : Scanner) :
    (s.wrap scope f).opened = s.opened.filter scope f := by
  cases f <;> rfl

/-- The scan of a plan is what its scanner starts. -/
theorem scan_eq_scanner (p : Plan) (scope : Scope) :
    p.scan scope = Scanner.opened <$> p.scanner scope := by
  induction p with
  | source phase s =>
    cases s with
    | table r => exact stream_of_once fun o => kept_of_table
    | rows r =>
      rw [scan, scanner]
      simp only [map_eq_pure_bind, bind_assoc]
      congr 1
      funext _
      rw [Source.scan]
      cases r.pushed with
      | none => rfl
      | some e =>
        dsimp only
        cases r.rows.filterM fun row => e.holds scope row <;> rfl
  | stage phase s input ih =>
    cases s with
    | filter predicate pushed =>
      rw [scan, scanner, ih]
      simp only [map_eq_pure_bind, bind_assoc, pure_bind, scanStage, opened_wrap]
    | sort order buffered wanted =>
      rw [scan, scanner, ih]
      simp only [map_eq_pure_bind, bind_assoc, pure_bind, scanStage, scanSorted, scannerSorted]
      congr 1
      funext _
      congr 1
      funext s
      split
      · rw [pure_bind]
      · simp only [bind_assoc, pure_bind]
        rfl
    | project outputs pushed wanted kept =>
      rw [scan, scanner, ih]
      simp only [map_eq_pure_bind, bind_assoc, pure_bind, scanStage]
      congr 1
      funext _
      congr 1
      funext s
      rw [← opened_wrap]
      rfl
    | cut => exact stream_of_once fun o => kept_of_cut
    | rename =>
      rw [scan, scanner, ih]
      simp only [map_eq_pure_bind, bind_assoc, pure_bind, scanStage]
      rfl
  | pair phase s left right => exact stream_of_once fun o => kept_of_pair

/-! ### Marks -/

theorem rewound_wrap {f : Filter} (h : s.rewound = s) :
    (s.wrap scope f).rewound = s.wrap scope f := by
  cases f with
  | none => exact h
  | some e => exact congrArg (Scanner.filtered scope e) h

theorem keepsRows_wrap (scope : Scope) (f : Filter) (s : Scanner) :
    (s.wrap scope f).keepsRows = s.keepsRows := by
  cases f <;> rfl

/-- A scanner starts without a mark, and its rows are in memory where the plan says so. -/
structure Starts (p : Plan) (s : Scanner) : Prop where
  rewound : s.rewound = s
  keeps : p.keepsRows → s.keepsRows

theorem starts_stream {x : Logged Opened} (hp : p.keepsRows = false)
    (h : ((fun o => Scanner.stream o.scan) <$> x).result = .ok s) : p.Starts s := by
  obtain ⟨o, -, rfl⟩ := Logged.result_map_eq_ok.1 h
  exact ⟨rfl, by simp [hp]⟩

theorem starts_ofRows (rows : List Row) : p.Starts (.ofRows rows) := ⟨rfl, fun _ => rfl⟩

theorem starts_scannerSorted {order : SortOrder} {buffered : Bool} {wanted : Option SortOrder}
    {s' : Scanner} (hs' : input.Starts s')
    (h : (scannerSorted phase order buffered input scope s').result = .ok s) :
    (stage phase (.sort order buffered wanted) input).Starts s := by
  unfold scannerSorted at h
  dsimp only at h
  split at h
  · next hpass =>
    cases h
    refine ⟨hs'.rewound, fun hp => hs'.keeps ?_⟩
    rw [keepsRows] at hp
    cases hneeds : needsSort phase order input <;> cases buffered <;> simp_all
  · obtain ⟨rows, -, h⟩ := Logged.result_bind_eq_ok.1 h
    cases h
    exact starts_ofRows _

theorem starts_scanner (h : (p.scanner scope).result = .ok s) : p.Starts s := by
  induction p generalizing s with
  | source phase source =>
    cases source with
    | table r => exact starts_stream rfl h
    | rows r =>
      rw [scanner] at h
      obtain ⟨-, -, h⟩ := Logged.result_bind_eq_ok.1 h
      split at h
      · cases h
        exact starts_ofRows _
      · obtain ⟨rows, -, rfl⟩ := Logged.result_map_eq_ok.1 h
        exact starts_ofRows _
  | stage phase stage input ih =>
    cases stage with
    | filter predicate pushed =>
      rw [scanner] at h
      obtain ⟨-, -, h⟩ := Logged.result_bind_eq_ok.1 h
      obtain ⟨s', hs', h⟩ := Logged.result_bind_eq_ok.1 h
      cases h
      exact ⟨rewound_wrap (ih hs').rewound, fun hp => by
        rw [keepsRows_wrap]
        exact (ih hs').keeps hp⟩
    | sort order buffered wanted =>
      rw [scanner] at h
      obtain ⟨-, -, h⟩ := Logged.result_bind_eq_ok.1 h
      obtain ⟨s', hs', h⟩ := Logged.result_bind_eq_ok.1 h
      exact starts_scannerSorted (ih hs') h
    | project outputs pushed wanted kept =>
      rw [scanner] at h
      obtain ⟨-, -, h⟩ := Logged.result_bind_eq_ok.1 h
      obtain ⟨s', hs', h⟩ := Logged.result_bind_eq_ok.1 h
      cases h
      exact ⟨congrArg (Scanner.mapped _) (rewound_wrap (ih hs').rewound), fun hp => by
        rw [Scanner.keepsRows, keepsRows_wrap]
        exact (ih hs').keeps hp⟩
    | cut c pushed wanted => exact starts_stream rfl h
    | rename name kept residual unmet =>
      rw [scanner] at h
      obtain ⟨-, -, h⟩ := Logged.result_bind_eq_ok.1 h
      obtain ⟨s', hs', h⟩ := Logged.result_bind_eq_ok.1 h
      cases h
      exact ⟨congrArg (Scanner.mapped _) (ih hs').rewound, (ih hs').keeps⟩
  | pair phase pairing left right => exact starts_stream rfl h

/-- A scanner of a plan that keeps its rows takes marks, also below a filter. -/
theorem rewinds_scanner (hkeeps : p.keepsRows) (h : (p.scanner scope).result = .ok s)
    (scope' : Scope) (f : Filter) : (s.wrap scope' f).Rewinds :=
  Scanner.rewinds ((keepsRows_wrap _ _ _).trans ((starts_scanner h).keeps hkeeps))
    (rewound_wrap (starts_scanner h).rewound)

/-- A cursor over the scan gives the answers of the scanner. -/
theorem answers_scanner (h : (p.scanner scope).result = .ok s) :
    ∃ o, (p.scan scope).result = .ok o ∧
      ∀ uses, (Cursor.start o).answers uses = s.answers uses := by
  refine ⟨s.opened, ?_, (Cursor.Follows.start fun _ => (starts_scanner h).rewound).answers_eq⟩
  rw [scan_eq_scanner]
  exact Logged.result_map_eq_ok.2 ⟨s, h, rfl⟩

theorem kept_of_scan (hp : p.keepsRows) (h : (p.scan scope).result = .ok o) : o.kept = true := by
  rw [scan_eq_scanner] at h
  obtain ⟨s, hs, rfl⟩ := Logged.result_map_eq_ok.1 h
  exact (starts_scanner hs).keeps hp

end Plan

end RelPlan

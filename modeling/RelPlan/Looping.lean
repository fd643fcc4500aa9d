import Mathlib.Data.PFun

/-!
# Loops within loops

A loop takes turns until one gives a result.  A turn may contain a loop itself, so it need not end
either.
-/

namespace RelPlan

variable {σ ρ : Type}

/-- Takes turns until one gives a result. -/
def untilResult (turn : σ → Part (ρ ⊕ σ)) : σ → Part ρ := PFun.fix turn

/-- A turn without a result is followed by the turns after it. -/
theorem untilResult_eq (turn : σ → Part (ρ ⊕ σ)) (state : σ) :
    untilResult turn state = (turn state).bind (Sum.elim .some (untilResult turn)) := by
  ext result
  refine PFun.mem_fix_iff.trans (Iff.trans ?_ Part.mem_bind_iff.symm)
  constructor
  · rintro (h | ⟨state', h, hrest⟩)
    · exact ⟨.inl result, h, Part.mem_some result⟩
    · exact ⟨.inr state', h, hrest⟩
  · rintro ⟨result' | state', h, hrest⟩
    · exact .inl (Part.mem_some_iff.1 hrest ▸ h)
    · exact .inr ⟨state', h, hrest⟩

end RelPlan

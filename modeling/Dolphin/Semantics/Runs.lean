import Mathlib.Logic.Relation

/-!
# Runs of a step function

A loop as a machine: `step` gives the next point, and none where the run ends. What
holds at the start and is kept by every step holds at every point. The steps are
deterministic, so every point of a run lies on the way to its end.
-/

namespace Dolphin.Semantics

variable {σ : Type*} {step : σ → Option σ}

/-- Zero or more steps. -/
def Reaches (step : σ → Option σ) : σ → σ → Prop :=
  Relation.ReflTransGen fun before after => step before = some after

namespace Reaches

variable {start middle final : σ}

theorem refl (start : σ) : Reaches step start start := Relation.ReflTransGen.refl

theorem tail (prior : Reaches step start middle) (transition : step middle = some final) :
    Reaches step start final :=
  Relation.ReflTransGen.tail prior transition

theorem head (transition : step start = some middle) (rest : Reaches step middle final) :
    Reaches step start final :=
  Relation.ReflTransGen.head transition rest

theorem trans (first : Reaches step start middle) (rest : Reaches step middle final) :
    Reaches step start final :=
  Relation.ReflTransGen.trans first rest

/-- What every step keeps holds along the run. -/
theorem invariant {Inv : σ → Prop} (run : Reaches step start final) (initial : Inv start)
    (preserved : ∀ before after, Reaches step start before → Inv before →
      step before = some after → Inv after) : Inv final := by
  induction run with
  | refl => exact initial
  | tail prior transition ih => exact preserved _ _ prior ih transition

/-- Every point of a run lies before its end. -/
theorem to_final (ends : Reaches step start final) (terminal : step final = none)
    (run : Reaches step start middle) : Reaches step middle final := by
  have unique : Relator.RightUnique fun before after => step before = some after :=
    fun _ _ _ first second => Option.some.inj (first.symm.trans second)
  rcases Relation.ReflTransGen.total_of_right_unique unique ends run with behind | before
  · rcases Relation.ReflTransGen.cases_head behind with rfl | ⟨next, transition, -⟩
    · exact refl _
    · rw [terminal] at transition
      cases transition
  · exact before

end Reaches

end Dolphin.Semantics

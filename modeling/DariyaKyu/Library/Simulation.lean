import DariyaKyu.Library.GuardedRun

/-!
Runs of one step function told as runs of another. Each step of the first is
answered by some steps of the second, or by none, in a way that keeps a relation
between the two states; then so is every run, by one induction.
-/

namespace GuardedRun

set_option autoImplicit false

section Runs

variable {σ ι : Type} {step : ι → σ → Option σ} {allowed : σ → ι → Prop} {start middle final : σ}

theorem Reaches.trans (before : Reaches step allowed start middle)
    (behind : Reaches step allowed middle final) : Reaches step allowed start final := by
  induction behind with
  | start => exact before
  | step _ action admitted taken ih => exact .step ih action admitted taken

theorem Reaches.single (action : ι) (admitted : allowed start action)
    (taken : step action start = some final) : Reaches step allowed start final :=
  .step .start action admitted taken

end Runs

section Simulation

variable {σ τ ι κ : Type} (step : ι → σ → Option σ) (allowed : σ → ι → Prop)
  (answer : κ → τ → Option τ) (admits : τ → κ → Prop)

/-- Every allowed step from related states leads to related states again. -/
def Simulates (related : σ → τ → Prop) : Prop :=
  ∀ state other action next, related state other → allowed state action → step action state = some next →
    ∃ final, Reaches answer admits other final ∧ related next final

variable {step allowed answer admits} {related : σ → τ → Prop} {start final : σ} {other : τ}

theorem Simulates.run (simulates : Simulates step allowed answer admits related) (begins : related start other)
    (reached : Reaches step allowed start final) :
    ∃ last, Reaches answer admits other last ∧ related final last := by
  induction reached with
  | start => exact ⟨other, .start, begins⟩
  | step before action admitted taken ih =>
      rcases ih with ⟨between, reachedBetween, relatedBetween⟩
      rcases simulates _ between action _ relatedBetween admitted taken with ⟨last, onward, relatedLast⟩
      exact ⟨last, reachedBetween.trans onward, relatedLast⟩

end Simulation

end GuardedRun

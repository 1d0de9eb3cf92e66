import Mathlib.Logic.Basic

/-!
Runs of a partial step function whose steps may have to meet a condition on the
state they start from. Safety over every run is one induction, stated here; a
concrete run is found by evaluation, and refutes what it violates.
-/

namespace GuardedRun

set_option autoImplicit false

variable {σ ι : Type} (step : ι → σ → Option σ) (allowed : σ → ι → Prop)

/-- The states runs lead to when every step is allowed where it is taken. -/
inductive Reaches (start : σ) : σ → Prop where
  | start : Reaches start start
  | step {state next : σ} (before : Reaches start state) (action : ι) (admitted : allowed state action)
      (taken : step action state = some next) : Reaches start next

/-- What holds at the start and survives every allowed step holds throughout. -/
theorem Reaches.invariant (holds : σ → Prop) {start final : σ}
    (reached : Reaches step allowed start final) (initial : holds start)
    (preserved : ∀ state action next, holds state → allowed state action →
      step action state = some next → holds next) : holds final := by
  induction reached with
  | start => exact initial
  | step before action admitted taken ih => exact preserved _ _ _ ih admitted taken

theorem Reaches.mono {wide : σ → ι → Prop} {start final : σ}
    (widen : ∀ state action, allowed state action → wide state action)
    (reached : Reaches step allowed start final) : Reaches step wide start final := by
  induction reached with
  | start => exact .start
  | step before action admitted taken ih => exact .step ih action (widen _ _ admitted) taken

/-- Where every allowed step brings a measure down, a run can go on until none is left. -/
theorem Reaches.rests (holds : σ → Prop) (measure : σ → Nat)
    (preserved : ∀ state action next, holds state → allowed state action → step action state = some next → holds next)
    (falls : ∀ state action next, holds state → allowed state action → step action state = some next →
      measure next < measure state)
    {start state : σ} (before : Reaches step allowed start state) (there : holds state) :
    ∃ final, Reaches step allowed start final ∧ holds final ∧ ∀ action, allowed final action → step action final = none := by
  induction bound : measure state using Nat.strongRecOn generalizing state with
  | ind bound ih =>
      subst bound
      by_cases still : ∀ action, allowed state action → step action state = none
      · exact ⟨state, before, there, still⟩
      · rcases not_forall.mp still with ⟨action, goes⟩
        rcases Classical.not_imp.mp goes with ⟨admitted, moves⟩
        rcases Option.ne_none_iff_exists'.mp moves with ⟨next, taken⟩
        exact ih _ (falls _ _ _ there admitted taken) (.step before action admitted taken)
          (preserved _ _ _ there admitted taken) rfl

variable [∀ state action, Decidable (allowed state action)]

/-- The run of a list of actions; it is undefined where one is not allowed. -/
def runAll : List ι → σ → Option σ
  | [], state => some state
  | action :: actions, state =>
      if allowed state action then
        match step action state with
        | none => none
        | some next => runAll actions next
      else none

theorem reaches_of_run {actions : List ι} {start middle final : σ}
    (before : Reaches step allowed start middle)
    (ran : runAll step allowed actions middle = some final) : Reaches step allowed start final := by
  induction actions generalizing middle with
  | nil =>
      cases ran
      exact before
  | cons action actions ih =>
      simp only [runAll] at ran
      split at ran
      · next admitted =>
        split at ran
        · cases ran
        · next taken => exact ih (.step before action admitted taken) ran
      · cases ran

/-- A run that ends where a check passes reaches a state that passes it. -/
theorem found_by_run (start : σ) (check : σ → Bool) (actions : List ι)
    (passes : (runAll step allowed actions start).map check = some true) :
    ∃ final, Reaches step allowed start final ∧ check final = true := by
  obtain ⟨final, ran, checked⟩ := Option.map_eq_some_iff.mp passes
  exact ⟨final, reaches_of_run step allowed .start ran, checked⟩

/-- Where every step that counts brings a measure down and none brings it up, a run
holds no more of them than the measure it starts with. -/
theorem runAll_bounded (holds : σ → Prop) (measure : σ → Nat) (counts : ι → Bool)
    (preserved : ∀ state action next, holds state → step action state = some next → holds next)
    (falls : ∀ state action next, holds state → step action state = some next →
      measure next + (if counts action then 1 else 0) ≤ measure state)
    {actions : List ι} {start final : σ} (initial : holds start)
    (ran : runAll step allowed actions start = some final) :
    holds final ∧ actions.countP counts + measure final ≤ measure start := by
  induction actions generalizing start with
  | nil =>
      cases ran
      exact ⟨initial, by simp⟩
  | cons action actions ih =>
      simp only [runAll] at ran
      split at ran
      · split at ran
        · cases ran
        · next taken =>
          have fallen := falls _ _ _ initial taken
          rcases ih (preserved _ _ _ initial taken) ran with ⟨ends, bounded⟩
          refine ⟨ends, ?_⟩
          rw [List.countP_cons]
          omega
      · cases ran

end GuardedRun

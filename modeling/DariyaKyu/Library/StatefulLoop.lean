import Mathlib.Data.List.Basic

/-!
A loop that answers the items of a list one after the other, each in the state
the one before left, and that may get stuck. What holds of every answer and of
every state is one induction, stated here; the loop is stuck exactly when it
comes to an item that is.
-/

namespace StatefulLoop

set_option autoImplicit false

variable {α β σ : Type} (answer : α → σ → Option (β × σ))

def eachOf : List α → σ → Option (List β × σ)
  | [], state => some ([], state)
  | item :: rest, state => do
      let (given, state) ← answer item state
      let (others, state) ← eachOf rest state
      return (given :: others, state)

/-- The loop comes to this item in this state. -/
inductive Visits : List α → σ → α → σ → Prop where
  | here (item : α) (rest : List α) (state : σ) : Visits (item :: rest) state item state
  | later {item : α} {rest : List α} {state next : σ} {given : β} {other : α} {found : σ}
      (answered : answer item state = some (given, next)) (visits : Visits rest next other found) :
      Visits (item :: rest) state other found

section Loop

variable {answer} {items : List α} {state final : σ} {answers : List β}

theorem each_of_cons {item : α} {rest : List α}
    (done : eachOf answer (item :: rest) state = some (answers, final)) :
    ∃ given next others, answer item state = some (given, next) ∧
      eachOf answer rest next = some (others, final) ∧ answers = given :: others := by
  simp only [eachOf, Option.bind_eq_bind] at done
  obtain ⟨⟨given, next⟩, answered, done⟩ := Option.bind_eq_some_iff.mp done
  obtain ⟨⟨others, last⟩, later, done⟩ := Option.bind_eq_some_iff.mp done
  cases done
  exact ⟨given, next, others, answered, later, rfl⟩

theorem each_of_keeps {holds : σ → Prop} (initial : holds state)
    (kept : ∀ item ∈ items, ∀ state given next, holds state → answer item state = some (given, next) → holds next)
    (done : eachOf answer items state = some (answers, final)) : holds final := by
  induction items generalizing state answers with
  | nil =>
      cases done
      exact initial
  | cons item rest ih =>
      obtain ⟨given, next, others, answered, later, _⟩ := each_of_cons done
      obtain ⟨first, remaining⟩ := List.forall_mem_cons.mp kept
      exact ih (first state given next initial answered) remaining later

theorem each_of_answers {matching : α → β → Prop}
    (each : ∀ item ∈ items, ∀ state given next, answer item state = some (given, next) → matching item given)
    (done : eachOf answer items state = some (answers, final)) : List.Forall₂ matching items answers := by
  induction items generalizing state answers with
  | nil =>
      cases done
      exact .nil
  | cons item rest ih =>
      obtain ⟨given, next, others, answered, later, rfl⟩ := each_of_cons done
      obtain ⟨first, remaining⟩ := List.forall_mem_cons.mp each
      exact .cons (first state given next answered) (ih remaining later)

theorem each_of_forall {holds : β → Prop}
    (each : ∀ item ∈ items, ∀ state given next, answer item state = some (given, next) → holds given)
    (done : eachOf answer items state = some (answers, final)) : ∀ given ∈ answers, holds given := by
  induction items generalizing state answers with
  | nil =>
      cases done
      exact List.forall_mem_nil _
  | cons item rest ih =>
      obtain ⟨given, next, others, answered, later, rfl⟩ := each_of_cons done
      obtain ⟨first, remaining⟩ := List.forall_mem_cons.mp each
      exact List.forall_mem_cons.mpr ⟨first state given next answered, ih remaining later⟩

theorem each_of_append {front back : List α} {middle : σ} {first second : List β}
    (before : eachOf answer front state = some (first, middle))
    (behind : eachOf answer back middle = some (second, final)) :
    eachOf answer (front ++ back) state = some (first ++ second, final) := by
  induction front generalizing state first with
  | nil =>
      cases before
      exact behind
  | cons item rest ih =>
      obtain ⟨given, next, others, answered, later, rfl⟩ := each_of_cons before
      simp only [List.cons_append, eachOf, answered, Option.bind_eq_bind, Option.bind_some, ih later]
      rfl

theorem each_of_map {γ : Type} (place : γ → α) (items : List γ) (state : σ) :
    eachOf answer (items.map place) state = eachOf (fun item => answer (place item)) items state := by
  induction items generalizing state with
  | nil => rfl
  | cons item rest ih => simp only [List.map_cons, eachOf, ih]

theorem each_of_none_iff : eachOf answer items state = none ↔
    ∃ item found, Visits answer items state item found ∧ answer item found = none := by
  induction items generalizing state with
  | nil =>
      simp only [eachOf, reduceCtorEq, false_iff, not_exists, not_and]
      intro item found visits
      cases visits
  | cons item rest ih =>
      cases answered : answer item state with
      | none =>
          simp only [eachOf, answered, Option.bind_eq_bind, Option.bind_none, true_iff]
          exact ⟨item, state, .here item rest state, answered⟩
      | some given =>
          obtain ⟨given, next⟩ := given
          have behind : eachOf answer (item :: rest) state = none ↔ eachOf answer rest next = none := by
            simp only [eachOf, answered, Option.bind_eq_bind, Option.bind_some]
            cases eachOf answer rest next <;> simp
          rw [behind, ih]
          constructor
          · rintro ⟨other, found, visits, stuck⟩
            exact ⟨other, found, .later answered visits, stuck⟩
          · rintro ⟨other, found, visits, stuck⟩
            cases visits with
            | here => rw [answered] at stuck; cases stuck
            | later taken visits =>
                rw [answered] at taken
                cases taken
                exact ⟨other, found, visits, stuck⟩

end Loop

end StatefulLoop

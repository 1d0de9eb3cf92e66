import Mathlib.Algebra.BigOperators.Group.List.Basic
import Mathlib.Data.Int.Basic
import Mathlib.Tactic.Linarith

/-!
Numbers that rise from a start: where they leave some out, how many that are, and
that nothing is left out when there are as many as there is room for.
-/

namespace Gaps

set_option autoImplicit false

/-- Behind the last number, or the start when there is none. -/
def endOf : Int → List Int → Int
  | start, [] => start
  | _, number :: numbers => endOf (number + 1) numbers

def Rising : Int → List Int → Prop
  | _, [] => True
  | start, number :: numbers => start ≤ number ∧ Rising (number + 1) numbers

/-- How many numbers are left out, each time that some are. -/
def gaps : Int → List Int → List Int
  | _, [] => []
  | start, number :: numbers => (if number ≠ start then [number - start] else []) ++ gaps (number + 1) numbers

theorem end_append (start : Int) (first second : List Int) :
    endOf start (first ++ second) = endOf (endOf start first) second := by
  induction first generalizing start with
  | nil => rfl
  | cons number first ih => exact ih _

theorem gaps_append (start : Int) (first second : List Int) :
    gaps start (first ++ second) = gaps start first ++ gaps (endOf start first) second := by
  induction first generalizing start with
  | nil => rfl
  | cons number first ih => simp only [List.cons_append, gaps, endOf, ih, List.append_assoc]

theorem rising_append {start : Int} {first second : List Int} :
    Rising start (first ++ second) ↔ Rising start first ∧ Rising (endOf start first) second := by
  induction first generalizing start with
  | nil => simp [Rising, endOf]
  | cons number first ih => simp only [List.cons_append, Rising, endOf, ih, and_assoc]

/-- Numbers that rise from an earlier start do so from a later one below them. -/
theorem rising_mono {early late : Int} {numbers : List Int} (le : early ≤ late) (rising : Rising late numbers) :
    Rising early numbers := by
  cases numbers with
  | nil => trivial
  | cons number numbers => exact ⟨le_trans le rising.1, rising.2⟩

theorem rising_of_ordered {start : Int} {numbers : List Int} (ordered : numbers.Pairwise (· < ·))
    (lower : ∀ number ∈ numbers, start ≤ number) : Rising start numbers := by
  induction numbers generalizing start with
  | nil => trivial
  | cons number numbers ih =>
      rcases List.pairwise_cons.mp ordered with ⟨below, rest⟩
      exact ⟨lower number List.mem_cons_self, ih rest fun later member => below later member⟩

theorem end_of_last {start last : Int} {numbers : List Int} (isLast : numbers.getLast? = some last) :
    endOf start numbers = last + 1 := by
  rcases List.getLast?_eq_some_iff.mp isLast with ⟨front, rfl⟩
  rw [end_append]
  rfl

theorem gaps_sum (start : Int) (numbers : List Int) :
    (gaps start numbers).sum + numbers.length = endOf start numbers - start := by
  induction numbers generalizing start with
  | nil => simp [gaps, endOf]
  | cons number numbers ih =>
      have rest := ih (number + 1)
      simp only [gaps, endOf, List.sum_append, List.length_cons, Nat.cast_add, Nat.cast_one]
      split
      · simp only [List.sum_singleton]
        omega
      · simp only [List.sum_nil]
        omega

theorem gaps_positive {start : Int} {numbers : List Int} (rising : Rising start numbers) :
    ∀ gap ∈ gaps start numbers, 0 < gap := by
  induction numbers generalizing start with
  | nil => simp [gaps]
  | cons number numbers ih =>
      intro gap member
      rcases List.mem_append.mp member with here | later
      · split at here
        · rw [List.mem_singleton.mp here]
          have above := rising.1
          omega
        · simp at here
      · exact ih rising.2 gap later

/-- Something is left out each time, so there are no more times than numbers left out. -/
theorem length_le_sum {lefts : List Int} (positive : ∀ left ∈ lefts, 0 < left) : (lefts.length : Int) ≤ lefts.sum := by
  induction lefts with
  | nil => simp
  | cons left lefts ih =>
      have here := positive left List.mem_cons_self
      have rest := ih fun other member => positive other (List.mem_cons_of_mem _ member)
      simp only [List.length_cons, List.sum_cons, Nat.cast_add, Nat.cast_one]
      omega

theorem start_le_end {start : Int} {numbers : List Int} (rising : Rising start numbers) :
    start ≤ endOf start numbers := by
  induction numbers generalizing start with
  | nil => exact le_refl start
  | cons number numbers ih =>
      have later := ih rising.2
      have here := rising.1
      simp only [endOf]
      omega

theorem rising_above {start : Int} {numbers : List Int} (rising : Rising start numbers) :
    ∀ number ∈ numbers, start ≤ number := by
  induction numbers generalizing start with
  | nil => simp
  | cons first numbers ih =>
      intro number member
      rcases List.mem_cons.mp member with rfl | later
      · exact rising.1
      · have above := ih rising.2 number later
        have here := rising.1
        omega

theorem end_mono {early late : Int} (le : early ≤ late) (numbers : List Int) :
    endOf early numbers ≤ endOf late numbers := by
  cases numbers with
  | nil => exact le
  | cons number numbers => exact le_refl _

/-- There is no room for more of them than from the start to the limit. -/
theorem length_le {start limit : Int} {numbers : List Int} (rising : Rising start numbers)
    (ends : endOf start numbers ≤ limit) : (numbers.length : Int) ≤ limit - start := by
  induction numbers generalizing start with
  | nil =>
      simp only [endOf] at ends
      simp only [List.length_nil, Nat.cast_zero]
      omega
  | cons number numbers ih =>
      have rest := ih rising.2 ends
      have here := rising.1
      simp only [List.length_cons, Nat.cast_add, Nat.cast_one]
      omega

theorem covers_iff {start limit : Int} {numbers : List Int} (rising : Rising start numbers)
    (ends : endOf start numbers ≤ limit) :
    (numbers.length : Int) = limit - start ↔ ∀ number, start ≤ number → number < limit → number ∈ numbers := by
  induction numbers generalizing start with
  | nil =>
      simp only [endOf] at ends
      constructor
      · intro all number lower upper
        simp only [List.length_nil, Nat.cast_zero] at all
        omega
      · intro covers
        by_contra room
        simp only [List.length_nil, Nat.cast_zero] at room
        simpa using covers start (le_refl start) (by omega)
  | cons first numbers ih =>
      have rest := length_le rising.2 ends
      have here := rising.1
      have later := ih rising.2 ends
      simp only [List.length_cons, Nat.cast_add, Nat.cast_one]
      constructor
      · intro all number lower upper
        by_cases isFirst : number = first
        · exact List.mem_cons.mpr (.inl isFirst)
        · exact List.mem_cons_of_mem _ (later.mp (by omega) number (by omega) upper)
      · intro covers
        have room : first + 1 ≤ limit := le_trans (start_le_end rising.2) ends
        have same : start = first := by
          rcases List.mem_cons.mp (covers start (le_refl start) (by omega)) with same | behind
          · exact same
          · have above := rising_above rising.2 start behind
            omega
        have covered := later.mpr fun number lower upper => by
          rcases List.mem_cons.mp (covers number (by omega) upper) with isFirst | behind
          · omega
          · exact behind
        omega

end Gaps

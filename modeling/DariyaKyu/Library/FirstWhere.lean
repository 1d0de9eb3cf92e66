import Mathlib.Logic.Basic

/-!
The binary search that rounds down: where a predicate begins to hold, when it
fails on a front of the range and holds behind it.
-/

namespace FirstWhere

set_option autoImplicit false

variable (holds : Nat → Bool)

def search : Nat → Nat → Nat → Nat
  | 0, low, _ => low
  | fuel + 1, low, high =>
      if low < high then
        let mid := low + (high - low) / 2
        if holds mid then search fuel low mid else search fuel (mid + 1) high
      else low

theorem search_boundary (fuel low high boundary : Nat) (enough : high - low < fuel + 1)
    (lower : low ≤ boundary) (upper : boundary ≤ high)
    (before : ∀ index, index < boundary → holds index = false)
    (behind : ∀ index, boundary ≤ index → index < high → holds index = true) :
    search holds fuel low high = boundary := by
  induction fuel generalizing low high with
  | zero =>
      simp only [search]
      omega
  | succ fuel ih =>
      simp only [search]
      split
      · next active =>
        cases found : holds (low + (high - low) / 2) with
        | true =>
            have inFront : boundary ≤ low + (high - low) / 2 := by
              apply Nat.le_of_not_lt
              intro early
              rw [before _ early] at found
              cases found
            simp only [if_true]
            apply ih low (low + (high - low) / 2) (by omega) lower inFront
            intro index above below
            exact behind index above (by omega)
        | false =>
            have beyond : low + (high - low) / 2 < boundary := by
              apply Nat.lt_of_not_le
              intro late
              rw [behind _ late (by omega)] at found
              cases found
            simp only [Bool.false_eq_true, if_false]
            exact ih (low + (high - low) / 2 + 1) high (by omega) (by omega) upper behind
      · omega

end FirstWhere

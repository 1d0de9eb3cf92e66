import Mathlib.Logic.Basic

/-!
The binary search that rounds up: the last index in a range at which a
predicate holds, when it holds on a front of the range and nowhere behind it.
-/

namespace LastWhere

set_option autoImplicit false

variable (holds : Nat → Bool)

def search : Nat → Nat → Nat → Nat
  | 0, low, _ => low
  | fuel + 1, low, high =>
      if low < high then
        let mid := low + (high - low + 1) / 2
        if holds mid then search fuel mid high else search fuel low (mid - 1)
      else low

theorem search_within (fuel low high : Nat) (ordered : low ≤ high) :
    low ≤ search holds fuel low high ∧ search holds fuel low high ≤ high := by
  induction fuel generalizing low high with
  | zero => exact ⟨Nat.le_refl low, ordered⟩
  | succ fuel ih =>
      simp only [search]
      split
      · next active =>
        split
        · have := ih (low + (high - low + 1) / 2) high (by omega)
          omega
        · have := ih low (low + (high - low + 1) / 2 - 1) (by omega)
          omega
      · omega

theorem search_congr (other : Nat → Bool) (fuel low high : Nat)
    (same : ∀ index, index ≤ high → holds index = other index) :
    search holds fuel low high = search other fuel low high := by
  induction fuel generalizing low high with
  | zero => rfl
  | succ fuel ih =>
      simp only [search]
      split
      · next active =>
        rw [same (low + (high - low + 1) / 2) (by omega)]
        split
        · exact ih _ _ same
        · exact ih _ _ fun index below => same index (by omega)
      · rfl

theorem search_holds (fuel low high : Nat) (start : holds low = true) :
    holds (search holds fuel low high) = true := by
  induction fuel generalizing low high with
  | zero => exact start
  | succ fuel ih =>
      simp only [search]
      split
      · split
        · next found => exact ih _ _ found
        · exact ih _ _ start
      · exact start

/-- Behind the answer the predicate fails, up to the end of the range. -/
theorem search_last (fuel low high : Nat) (enough : high - low < fuel + 1)
    (front : ∀ earlier later, earlier ≤ later → later ≤ high → holds later = true →
      holds earlier = true)
    (index : Nat) (behind : search holds fuel low high < index) (within : index ≤ high) :
    holds index = false := by
  induction fuel generalizing low high with
  | zero =>
      simp only [search] at behind
      omega
  | succ fuel ih =>
      simp only [search] at behind
      split at behind
      · next active =>
        split at behind
        · exact ih _ _ (by omega) front behind within
        · next missed =>
          by_cases left : index ≤ low + (high - low + 1) / 2 - 1
          · exact ih _ _ (by omega)
              (fun earlier later ordered bound => front earlier later ordered (by omega)) behind left
          · cases found : holds index with
            | false => rfl
            | true => exact absurd (front _ _ (by omega) within found) missed
      · omega

end LastWhere

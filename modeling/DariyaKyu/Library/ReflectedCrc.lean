import Mathlib.Data.List.GetD
import Mathlib.Logic.Function.Iterate

/-!
A reflected cyclic redundancy check of any width: a register that takes in one
bit at a time at its low end and divides by a polynomial as it shifts. One shift
is linear over exclusive or. Where the polynomial's own low-order coefficient,
which the reflected form keeps in the top bit, is one, a shift loses nothing, so
two runs once apart stay apart, and no burst that fits the register goes unseen.
-/

namespace ReflectedCrc

set_option autoImplicit false

variable {width : Nat} (polynomial : BitVec width)

def shift (register : BitVec width) : BitVec width :=
  if register.getLsbD 0 then register >>> 1 ^^^ polynomial else register >>> 1

/-- One division step that takes a bit of the message in. -/
def feed (register : BitVec width) (bit : Bool) : BitVec width :=
  if register.getLsbD 0 ^^ bit then register >>> 1 ^^^ polynomial else register >>> 1

def run (register : BitVec width) (bits : List Bool) : BitVec width :=
  bits.foldl (feed polynomial) register

def loaded (width : Nat) (bits : List Bool) : BitVec width :=
  (BitVec.ofBoolListLE bits).setWidth width

theorem loaded_bit (bits : List Bool) (index : Nat) (inside : index < width) :
    (loaded width bits).getLsbD index = bits.getD index false := by
  simp [loaded, inside]

theorem loaded_nil : loaded width [] = 0#(width) := by
  apply BitVec.eq_of_getLsbD_eq
  intro index inside
  rw [loaded_bit _ _ inside]
  simp

theorem loaded_cons (bit : Bool) (bits : List Bool) :
    loaded width (bit :: bits) = loaded width [bit] ^^^ loaded width bits <<< 1 := by
  apply BitVec.eq_of_getLsbD_eq
  intro index inside
  rw [BitVec.getLsbD_xor, BitVec.getLsbD_shiftLeft, loaded_bit _ _ inside, loaded_bit _ _ inside]
  cases index with
  | zero => simp
  | succ before =>
      have within : before < width := by omega
      simp [inside, loaded_bit _ _ within]

theorem loaded_injective {first second : List Bool} (fits : first.length ≤ width)
    (alike : first.length = second.length) (same : loaded width first = loaded width second) :
    first = second := by
  apply List.ext_getElem alike
  intro index inFirst inSecond
  have bit := congrArg (·.getLsbD index) same
  simp only [loaded_bit _ _ (show index < width by omega)] at bit
  rwa [List.getD_eq_getElem _ _ inFirst, List.getD_eq_getElem _ _ inSecond] at bit

theorem shift_xor (first second : BitVec width) :
    shift polynomial (first ^^^ second) = shift polynomial first ^^^ shift polynomial second := by
  simp only [shift, BitVec.getLsbD_xor, BitVec.ushiftRight_xor_distrib]
  apply BitVec.eq_of_getLsbD_eq
  intro index inside
  cases first.getLsbD 0 <;> cases second.getLsbD 0 <;>
    cases divided : polynomial.getLsbD index <;> simp [divided]

theorem shifts_xor (count : Nat) (first second : BitVec width) :
    (shift polynomial)^[count] (first ^^^ second) =
      (shift polynomial)^[count] first ^^^ (shift polynomial)^[count] second := by
  induction count generalizing first second with
  | zero => rfl
  | succ count ih => simp only [Function.iterate_succ_apply, shift_xor, ih]

theorem shift_clear (register : BitVec width) (clear : register.getLsbD 0 = false) :
    shift polynomial register = register >>> 1 := by
  simp [shift, clear]

theorem shifts_clear (count : Nat) (register : BitVec width)
    (clear : ∀ index < count, register.getLsbD index = false) :
    (shift polynomial)^[count] register = register >>> count := by
  induction count generalizing register with
  | zero => simp
  | succ count ih =>
      rw [Function.iterate_succ_apply, shift_clear _ _ (clear 0 (by omega)), ih]
      · rw [← BitVec.shiftRight_add, Nat.add_comm]
      · intro index below
        rw [BitVec.getLsbD_ushiftRight]
        exact clear (1 + index) (by omega)

theorem feed_eq_shift (positive : 0 < width) (register : BitVec width) (bit : Bool) :
    feed polynomial register bit = shift polynomial (register ^^^ loaded width [bit]) := by
  have low : (loaded width [bit]).getLsbD 0 = bit := by
    rw [loaded_bit _ _ positive]
    rfl
  have above : (loaded width [bit]) >>> 1 = 0#(width) := by
    apply BitVec.eq_of_getLsbD_eq
    intro index inside
    rw [BitVec.getLsbD_ushiftRight]
    by_cases within : 1 + index < width
    · rw [loaded_bit _ _ within]
      simp [Nat.add_comm 1 index]
    · simp [BitVec.getLsbD_of_ge _ _ (Nat.le_of_not_lt within)]
  rw [feed, shift, BitVec.getLsbD_xor, BitVec.ushiftRight_xor_distrib, low, above, BitVec.xor_zero]

/-- Taking in no more bits than the register holds is loading them all at once
and then shifting as often. -/
theorem run_loaded (register : BitVec width) (bits : List Bool) (fits : bits.length ≤ width) :
    run polynomial register bits = (shift polynomial)^[bits.length] (register ^^^ loaded width bits) := by
  induction bits generalizing register with
  | nil => simp [run, loaded_nil]
  | cons bit bits ih =>
      rw [List.length_cons] at fits
      have lowest : (loaded width bits <<< 1).getLsbD 0 = false := by simp
      have back : shift polynomial (loaded width bits <<< 1) = loaded width bits := by
        rw [shift_clear _ _ lowest]
        apply BitVec.eq_of_getLsbD_eq
        intro index inside
        rw [BitVec.getLsbD_ushiftRight, BitVec.getLsbD_shiftLeft]
        by_cases within : 1 + index < width
        · simp [within]
        · -- The top bit is the only one that was lost, and it was not set.
          have short : bits.length ≤ index := by omega
          rw [loaded_bit _ _ inside, List.getD_eq_default _ _ short]
          simp [within]
      calc run polynomial register (bit :: bits)
          = run polynomial (feed polynomial register bit) bits := rfl
        _ = (shift polynomial)^[bits.length] (feed polynomial register bit ^^^ loaded width bits) :=
            ih _ (by omega)
        _ = (shift polynomial)^[bits.length]
              (shift polynomial (register ^^^ loaded width (bit :: bits))) := by
            rw [loaded_cons, ← BitVec.xor_assoc, shift_xor, ← feed_eq_shift _ (by omega), back]
        _ = _ := by rw [List.length_cons, Function.iterate_succ_apply]

theorem run_append (register : BitVec width) (front rest : List Bool) :
    run polynomial register (front ++ rest) = run polynomial (run polynomial register front) rest :=
  List.foldl_append

theorem shift_injective {polynomial : BitVec width} (monic : polynomial.msb = true) :
    Function.Injective (shift polynomial) := by
  intro first second same
  -- The top bit of a shifted register tells whether the polynomial went in.
  have top : ∀ register : BitVec width, (shift polynomial register).msb = register.getLsbD 0 := by
    intro register
    unfold shift
    split
    · next set => simp [BitVec.msb_xor, BitVec.msb_ushiftRight, monic, set]
    · next clear => simp [BitVec.msb_ushiftRight, clear]
  have low : first.getLsbD 0 = second.getLsbD 0 := by rw [← top first, same, top second]
  have rest : first >>> 1 = second >>> 1 := by
    unfold shift at same
    rw [low] at same
    split at same
    · exact (BitVec.xor_left_inj polynomial).mp same
    · exact same
  apply BitVec.eq_of_getLsbD_eq
  intro index inside
  cases index with
  | zero => exact low
  | succ before =>
      have bit := congrArg (·.getLsbD before) rest
      simpa only [BitVec.getLsbD_ushiftRight, Nat.add_comm 1 before] using bit

theorem feed_injective {polynomial : BitVec width} (monic : polynomial.msb = true) (bit : Bool) :
    Function.Injective (feed polynomial · bit) := by
  intro first second same
  have positive : 0 < width := by
    by_contra none
    have empty : width = 0 := by omega
    subst empty
    simp [BitVec.of_length_zero] at monic
  simp only [feed_eq_shift _ positive] at same
  exact (BitVec.xor_left_inj _).mp (shift_injective monic same)

theorem run_injective {polynomial : BitVec width} (monic : polynomial.msb = true) (bits : List Bool) :
    Function.Injective (run polynomial · bits) := by
  induction bits with
  | nil => exact fun _ _ same => same
  | cons bit bits ih => exact fun _ _ same => feed_injective monic bit (ih same)

theorem run_distinguishes {polynomial : BitVec width} (monic : polynomial.msb = true)
    (register : BitVec width) {first second : List Bool} (fits : first.length ≤ width)
    (alike : first.length = second.length)
    (same : run polynomial register first = run polynomial register second) : first = second := by
  rw [run_loaded _ _ _ fits, run_loaded _ _ _ (alike ▸ fits), ← alike] at same
  have registers := (shift_injective monic).iterate first.length same
  exact loaded_injective fits alike ((BitVec.xor_right_inj register).mp registers)

/-- Two messages of one length that agree outside a window of this many bits. -/
def DifferWithin (window : Nat) (first second : List Bool) : Prop :=
  first.length = second.length ∧
    ∃ start, ∀ index, index < start ∨ start + window ≤ index → first[index]? = second[index]?

theorem DifferWithin.split {window : Nat} {first second : List Bool}
    (burst : DifferWithin window first second) :
    ∃ front damaged replaced rest, first = front ++ damaged ++ rest ∧ second = front ++ replaced ++ rest ∧
      damaged.length = replaced.length ∧ damaged.length ≤ window := by
  obtain ⟨alike, start, outside⟩ := burst
  have fronts : first.take start = second.take start := by
    apply List.ext_getElem?
    intro index
    rw [List.getElem?_take, List.getElem?_take]
    split
    · next before => exact outside index (.inl before)
    · rfl
  have rests : first.drop (start + window) = second.drop (start + window) := by
    apply List.ext_getElem?
    intro index
    rw [List.getElem?_drop, List.getElem?_drop]
    exact outside _ (.inr (by omega))
  have parts : ∀ bits : List Bool,
      bits = bits.take start ++ (bits.drop start).take window ++ bits.drop (start + window) := by
    intro bits
    rw [List.append_assoc, ← List.drop_drop, List.take_append_drop, List.take_append_drop]
  refine ⟨first.take start, (first.drop start).take window, (second.drop start).take window,
    first.drop (start + window), parts first, ?_, by simp [alike], ?_⟩
  · rw [fronts, rests]
    exact parts second
  · rw [List.length_take]
    exact Nat.min_le_left _ _

theorem differ_within_parts {window : Nat} (front rest : List Bool) {damaged replaced : List Bool}
    (alike : damaged.length = replaced.length) (fits : damaged.length ≤ window) :
    DifferWithin window (front ++ damaged ++ rest) (front ++ replaced ++ rest) := by
  refine ⟨by simp [alike], front.length, ?_⟩
  intro index outside
  simp only [List.append_assoc]
  rcases outside with before | behind
  · rw [List.getElem?_append_left before, List.getElem?_append_left before]
  · rw [List.getElem?_append_right (by omega), List.getElem?_append_right (by omega),
      List.getElem?_append_right (by omega), List.getElem?_append_right (by omega), alike]

theorem burst_seen {polynomial : BitVec width} (monic : polynomial.msb = true)
    (register : BitVec width) {first second : List Bool} (burst : DifferWithin width first second)
    (same : run polynomial register first = run polynomial register second) : first = second := by
  obtain ⟨front, damaged, replaced, rest, rfl, rfl, alike, fits⟩ := burst.split
  simp only [run_append] at same
  have middle := run_distinguishes monic _ fits alike (run_injective monic rest same)
  rw [middle]

end ReflectedCrc

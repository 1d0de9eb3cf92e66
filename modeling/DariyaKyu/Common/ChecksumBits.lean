import DariyaKyu.Common.Crc32c
import DariyaKyu.Library.ReflectedCrc

/-!
The checksum of `common/crc32c.cpp` bit by bit. The table turns eight division
steps into one look-up: the low octet of the register decides what those eight
divide out, and the rest of it only moves down.
-/

namespace DariyaKyu

set_option autoImplicit false

open ReflectedCrc

def makeTable : Array (BitVec 32) :=
  (Array.range 256).map fun index => (List.range 8).foldl (fun crc _ => tableBit crc) (BitVec.ofNat 32 index)

/-- The body of the source's loop, reading that table. -/
def crc32cLookup (crc : BitVec 32) (byte : UInt8) : BitVec 32 :=
  makeTable.getD ((crc ^^^ BitVec.ofNat 32 byte.toNat) &&& 0xFF#32).toNat 0#32 ^^^ crc >>> 8

def bitsOfByte (byte : UInt8) : List Bool := (List.range 8).map byte.toNat.testBit

def bitsOf (data : Bytes) : List Bool := data.flatMap bitsOfByte

def bitwiseCrc32c (data : Bytes) : BitVec 32 :=
  run 0x82F63B78#32 0xFFFFFFFF#32 (bitsOf data) ^^^ 0xFFFFFFFF#32

theorem table_bit_eq_shift : tableBit = shift kReflectedPolynomial := by
  funext crc
  have low : crc &&& 1#32 = 1#32 ↔ crc.getLsbD 0 = true := by
    rw [BitVec.and_one_eq_setWidth_ofBool_getLsbD]
    cases crc.getLsbD 0 <;> decide
  simp only [tableBit, shift, low]

theorem k_table_eq_shifts (index : BitVec 32) : kTable index = (shift kReflectedPolynomial)^[8] index := by
  rw [kTable, table_bit_eq_shift]
  rfl

theorem make_table_entry (index : BitVec 32) (bound : index.toNat < 256) :
    makeTable.getD index.toNat 0#32 = kTable index := by
  have inside : index.toNat < makeTable.size := by simpa [makeTable] using bound
  rw [Array.getD, dif_pos inside]
  simp only [makeTable, Array.getInternal_eq_getElem, Array.getElem_map, Array.getElem_range,
    BitVec.ofNat_toNat, BitVec.setWidth_eq]
  rfl

theorem masked_lt (crc : BitVec 32) : (crc &&& 0xFF#32).toNat < 256 := by
  rw [BitVec.toNat_and]
  exact Nat.and_lt_two_pow _ (show (0xFF#32).toNat < 2 ^ 8 by decide)

theorem lookup_eq_step : crc32cLookup = crc32cStep := by
  funext crc byte
  rw [crc32cLookup, make_table_entry _ (masked_lt _), crc32cStep]

theorem loaded_byte (byte : UInt8) : loaded 32 (bitsOfByte byte) = BitVec.ofNat 32 byte.toNat := by
  apply BitVec.eq_of_getLsbD_eq
  intro index inside
  rw [loaded_bit _ _ inside, BitVec.getLsbD_ofNat]
  by_cases low : index < 8
  · rw [List.getD_eq_getElem _ _ (by simpa [bitsOfByte] using low)]
    simp [bitsOfByte, inside]
  · have small : byte.toNat < 2 ^ index :=
      Nat.lt_of_lt_of_le byte.toNat_lt (Nat.pow_le_pow_right (by decide) (by omega))
    rw [List.getD_eq_default _ _ (by simpa [bitsOfByte] using low), Nat.testBit_lt_two_pow small]
    simp

/-- Eight steps from a register: those from its low octet, and the rest of it
moved down. -/
theorem shifts_eight (crc : BitVec 32) :
    (shift kReflectedPolynomial)^[8] crc = kTable (crc &&& 0xFF#32) ^^^ crc >>> 8 := by
  have mask : ∀ index, (0xFF#32).getLsbD index = decide (index < 8) := by
    intro index
    rw [BitVec.getLsbD_ofNat, show (0xFF : Nat) = 2 ^ 8 - 1 by rfl, Nat.testBit_two_pow_sub_one]
    by_cases low : index < 8
    · simp [low, show index < 32 by omega]
    · simp [low]
  have parts : crc = (crc &&& 0xFF#32) ^^^ (crc &&& ~~~0xFF#32) := by
    apply BitVec.eq_of_getLsbD_eq
    intro index inside
    rw [BitVec.getLsbD_xor, BitVec.getLsbD_and, BitVec.getLsbD_and, BitVec.getLsbD_not, mask]
    cases crc.getLsbD index <;> simp [inside]
  have high : (shift kReflectedPolynomial)^[8] (crc &&& ~~~0xFF#32) = crc >>> 8 := by
    rw [shifts_clear]
    · apply BitVec.eq_of_getLsbD_eq
      intro index _
      rw [BitVec.getLsbD_ushiftRight, BitVec.getLsbD_ushiftRight, BitVec.getLsbD_and,
        BitVec.getLsbD_not, mask]
      by_cases within : 8 + index < 32
      · simp [within]
      · simp [BitVec.getLsbD_of_ge crc _ (Nat.le_of_not_lt within)]
    · intro index below
      rw [BitVec.getLsbD_and, BitVec.getLsbD_not, mask]
      simp [below]
  calc (shift kReflectedPolynomial)^[8] crc
      = (shift kReflectedPolynomial)^[8] ((crc &&& 0xFF#32) ^^^ (crc &&& ~~~0xFF#32)) := by rw [← parts]
    _ = _ := by rw [shifts_xor, high, k_table_eq_shifts]

/-- One look-up takes the eight bits of a byte in. -/
theorem step_eq_run (crc : BitVec 32) (byte : UInt8) :
    crc32cStep crc byte = run kReflectedPolynomial crc (bitsOfByte byte) := by
  have above : BitVec.ofNat 32 byte.toNat >>> 8 = 0#32 := by
    apply BitVec.eq_of_toNat_eq
    have small := byte.toNat_lt
    rw [BitVec.toNat_ushiftRight, BitVec.toNat_ofNat, Nat.shiftRight_eq_div_pow]
    simp only [BitVec.toNat_ofNat, Nat.zero_mod]
    omega
  have eight : (bitsOfByte byte).length = 8 := by simp [bitsOfByte]
  rw [run_loaded _ _ _ (by rw [eight]; decide), eight, loaded_byte, shifts_eight,
    BitVec.ushiftRight_xor_distrib, above, BitVec.xor_zero, crc32cStep]

theorem update_eq_run (crc : BitVec 32) (data : Bytes) :
    crc32cUpdate crc data = run kReflectedPolynomial crc (bitsOf data) := by
  induction data generalizing crc with
  | nil => rfl
  | cons byte data ih =>
      rw [bitsOf, List.flatMap_cons, run_append, ← step_eq_run]
      exact ih _

theorem crc32c_eq_bitwise (data : Bytes) : crc32c data = bitwiseCrc32c data := by
  rw [crc32c, update_eq_run]
  rfl

theorem update_flatten (crc : BitVec 32) (parts : List Bytes) :
    crc32cUpdate crc parts.flatten = parts.foldl crc32cUpdate crc := by
  induction parts generalizing crc with
  | nil => rfl
  | cons part parts ih =>
      rw [List.flatten_cons, crc32cUpdate, List.foldl_append]
      exact ih _

theorem bits_of_length (data : Bytes) : (bitsOf data).length = 8 * data.length := by
  induction data with
  | nil => rfl
  | cons byte data ih =>
      rw [bitsOf, List.flatMap_cons, List.length_append]
      simp only [bitsOf] at ih
      rw [ih]
      simp only [bitsOfByte, List.length_map, List.length_range, List.length_cons]
      omega

theorem bits_of_byte_injective : Function.Injective bitsOfByte := by
  intro first second same
  have registers := congrArg (loaded 32) same
  rw [loaded_byte, loaded_byte] at registers
  have values := congrArg BitVec.toNat registers
  have firstSmall := first.toNat_lt
  have secondSmall := second.toNat_lt
  simp only [BitVec.toNat_ofNat] at values
  apply UInt8.toNat_inj.mp
  omega

theorem bits_of_injective : Function.Injective bitsOf := by
  intro first
  induction first with
  | nil =>
      intro second same
      have sizes := congrArg List.length same
      rw [bits_of_length, bits_of_length] at sizes
      exact (List.length_eq_zero_iff.mp (by simp only [List.length_nil] at sizes; omega)).symm
  | cons byte first ih =>
      intro second same
      cases second with
      | nil =>
          have sizes := congrArg List.length same
          rw [bits_of_length, bits_of_length] at sizes
          simp at sizes
      | cons other second =>
          simp only [bitsOf, List.flatMap_cons] at same
          obtain ⟨head, tail⟩ := List.append_inj same (by simp [bitsOfByte])
          rw [bits_of_byte_injective head, ih tail]

theorem bits_of_append (front rest : Bytes) : bitsOf (front ++ rest) = bitsOf front ++ bitsOf rest :=
  List.flatMap_append

theorem bytes_burst (front rest : Bytes) {damaged replaced : Bytes} (alike : damaged.length = replaced.length)
    (fits : damaged.length ≤ 4) :
    DifferWithin 32 (bitsOf (front ++ damaged ++ rest)) (bitsOf (front ++ replaced ++ rest)) := by
  simp only [bits_of_append]
  apply differ_within_parts
  · rw [bits_of_length, bits_of_length, alike]
  · rw [bits_of_length]
    omega

theorem polynomial_monic : kReflectedPolynomial.msb = true := by decide

/-- Two messages that differ in a burst of at most 32 bits have different checksums. -/
theorem crc32c_distinguishes {first second : Bytes} (burst : DifferWithin 32 (bitsOf first) (bitsOf second))
    (same : crc32c first = crc32c second) : first = second := by
  simp only [crc32c, crc32cFinish, update_eq_run] at same
  exact bits_of_injective (burst_seen polynomial_monic _ burst ((BitVec.xor_left_inj _).mp same))

end DariyaKyu

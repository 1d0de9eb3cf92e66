import DariyaKyu.Common.Buffer
import Mathlib.Data.Nat.Bitwise

/-!
`common/varint.cpp`: zigzag and base-128 encodings. The bit tricks are the
source's own, on bit vectors; the loops run over plain naturals, because the
guard on the last permitted byte means no shifted payload ever loses a bit.
The capacity of the output span and the `maxBytes` bound are both explicit.
-/

namespace DariyaKyu

set_option autoImplicit false

def kMaxVarintBytes : Nat := 5
def kMaxVarlongBytes : Nat := 10

/-- `(static_cast<Unsigned>(value) << 1) ^ static_cast<Unsigned>(value >> (bits - 1))`. -/
def zigzag {width : Nat} (value : BitVec (width + 1)) : BitVec (width + 1) :=
  value <<< 1 ^^^ value.sshiftRight width

def unzigzag {width : Nat} (encoded : BitVec (width + 1)) : BitVec (width + 1) :=
  encoded >>> 1 ^^^ (~~~(encoded &&& 1#(width + 1)) + 1#(width + 1))

def zigzag32 (value : Int) : Nat := (@zigzag 31 (BitVec.ofInt 32 value)).toNat
def zigzag64 (value : Int) : Nat := (@zigzag 63 (BitVec.ofInt 64 value)).toNat
def unzigzag32 (encoded : Nat) : Int := (@unzigzag 31 (BitVec.ofNat 32 encoded)).toInt
def unzigzag64 (encoded : Nat) : Int := (@unzigzag 63 (BitVec.ofNat 64 encoded)).toInt

def writeBase128 : Nat → Nat → Except Error Bytes
  | 0, _ => .error (.error "varint: output buffer too small")
  | capacity + 1, value =>
      if value < 0x80 then .ok [UInt8.ofNat value]
      else do
        let rest ← writeBase128 capacity (value >>> 7)
        return UInt8.ofNat (value &&& 0x7F ||| 0x80) :: rest

/-- Returns the decoded number and how many bytes it took. -/
def readBase128 (bits maxBytes : Nat) (read shift result : Nat) :
    Bytes → Except Error (Nat × Nat)
  | [] => .error (.corruptData s!"varint: input ended mid-number after {read} byte(s)")
  | byte :: rest =>
      if maxBytes ≤ read then
        .error (.corruptData s!"varint: encoding longer than {maxBytes} bytes, which the target type cannot hold")
      else
        let payload := byte.toNat &&& 0x7F
        let allowedBits := if shift < bits then bits - shift else 0
        if bits < shift + 7 ∧ 1 <<< allowedBits ≤ payload then
          .error (.corruptData s!"varint: final byte payload {payload} sets bits beyond the {bits}-bit target type")
        else
          let result := result ||| payload <<< shift
          if byte.toNat &&& 0x80 = 0 then .ok (result, read + 1)
          else readBase128 bits maxBytes (read + 1) (shift + 7) result rest

def encodeVarint (value : Int) : Except Error Bytes :=
  writeBase128 kMaxVarintBytes (zigzag32 value)

def encodeVarlong (value : Int) : Except Error Bytes :=
  writeBase128 kMaxVarlongBytes (zigzag64 value)

def decodeVarint (input : Bytes) : Except Error (Int × Nat) := do
  let (encoded, read) ← readBase128 32 kMaxVarintBytes 0 0 0 input
  return (unzigzag32 encoded, read)

def decodeVarlong (input : Bytes) : Except Error (Int × Nat) := do
  let (encoded, read) ← readBase128 64 kMaxVarlongBytes 0 0 0 input
  return (unzigzag64 encoded, read)

namespace BufferReader

def readVarint (input : BufferReader) : Except Error (Int × BufferReader) := do
  let (value, read) ← decodeVarint input.rest
  return (value, ⟨input.position + read, input.rest.drop read⟩)

def readVarlong (input : BufferReader) : Except Error (Int × BufferReader) := do
  let (value, read) ← decodeVarlong input.rest
  return (value, ⟨input.position + read, input.rest.drop read⟩)

end BufferReader

/-- The arithmetic shift by all but one bit is the all-ones or all-zeroes mask. -/
theorem sign_mask {width : Nat} (value : BitVec (width + 1)) :
    value.sshiftRight width =
      if value.msb then BitVec.allOnes (width + 1) else 0#(width + 1) := by
  ext index bound
  simp only [BitVec.getElem_sshiftRight]
  cases index with
  | zero => cases sign : value.msb <;> simp_all [BitVec.msb_eq_getLsbD_last, BitVec.getLsbD_eq_getElem]
  | succ later =>
      have outside : ¬ width + (later + 1) < width + 1 := by omega
      cases sign : value.msb <;> simp_all

theorem unzigzag_zigzag {width : Nat} (value : BitVec (width + 1)) :
    unzigzag (zigzag value) = value := by
  unfold unzigzag zigzag
  rw [sign_mask]
  cases sign : value.msb with
  | false =>
      have low : (value <<< 1 ^^^ 0#(width + 1)) &&& 1#(width + 1) = 0#(width + 1) := by
        ext index bound
        cases index <;> simp [BitVec.getElem_one]
      have mask : ~~~0#(width + 1) + 1#(width + 1) = 0#(width + 1) := by
        rw [← BitVec.neg_eq_not_add]
        simp
      simp only [Bool.false_eq_true, if_false]
      rw [low, mask]
      ext index bound
      by_cases last : index = width
      · subst last
        have top : value[index] = false := by
          simpa [BitVec.msb_eq_getLsbD_last, BitVec.getLsbD_eq_getElem] using sign
        simp [top, Nat.add_comm 1 index]
      · have inside : 1 + index < width + 1 := by omega
        simp [inside]
  | true =>
      have low : (value <<< 1 ^^^ BitVec.allOnes (width + 1)) &&& 1#(width + 1) =
          1#(width + 1) := by
        ext index bound
        cases index <;> simp [BitVec.getElem_one]
      have mask : ~~~1#(width + 1) + 1#(width + 1) = BitVec.allOnes (width + 1) := by
        rw [← BitVec.neg_eq_not_add, BitVec.neg_one_eq_allOnes]
      simp only [if_true]
      rw [low, mask]
      ext index bound
      by_cases last : index = width
      · subst last
        have top : value[index] = true := by
          simpa [BitVec.msb_eq_getLsbD_last, BitVec.getLsbD_eq_getElem] using sign
        simp [top, Nat.add_comm 1 index]
      · have inside : 1 + index < width + 1 := by omega
        simp [inside]

theorem unzigzag32_zigzag32 (value : Int) (fits : FitsSigned 32 value) :
    unzigzag32 (zigzag32 value) = value := by
  obtain ⟨lower, upper⟩ := fits
  rw [unzigzag32, zigzag32, BitVec.ofNat_toNat, BitVec.setWidth_eq, unzigzag_zigzag,
    BitVec.toInt_ofInt, Int.bmod_eq_of_le] <;> omega

theorem unzigzag64_zigzag64 (value : Int) : unzigzag64 (zigzag64 value) = wrapSigned 64 value := by
  rw [unzigzag64, zigzag64, BitVec.ofNat_toNat, BitVec.setWidth_eq, unzigzag_zigzag,
    BitVec.toInt_ofInt, wrapSigned]

theorem low_bits_or_rest (value shift : Nat) :
    (value &&& 0x7F) <<< shift ||| (value >>> 7) <<< (shift + 7) = value <<< shift := by
  apply Nat.eq_of_testBit_eq
  intro index
  simp only [Nat.testBit_or, Nat.testBit_shiftLeft, Nat.testBit_and, Nat.testBit_shiftRight]
  rw [show (0x7F : Nat) = 2 ^ 7 - 1 by norm_num, Nat.testBit_two_pow_sub_one]
  by_cases far : shift + 7 ≤ index
  · have near : shift ≤ index := by omega
    have position : 7 + (index - (shift + 7)) = index - shift := by omega
    have high : ¬ index - shift < 7 := by omega
    simp [far, near, position, high]
  · by_cases near : shift ≤ index
    · have small : index - shift < 7 := by omega
      simp [far, near, small]
    · simp [far, near]

theorem write_base128_total (capacity value : Nat) (positive : 0 < capacity)
    (bound : value < 2 ^ (7 * capacity)) :
    ∃ bytes, writeBase128 capacity value = .ok bytes ∧ bytes.length ≤ capacity ∧
      0 < bytes.length := by
  induction capacity generalizing value with
  | zero => omega
  | succ capacity ih =>
      by_cases small : value < 0x80
      · exact ⟨[UInt8.ofNat value], by simp [writeBase128, small], by simp, by simp⟩
      · have later : value >>> 7 < 2 ^ (7 * capacity) := by
          rw [Nat.shiftRight_eq_div_pow, Nat.div_lt_iff_lt_mul (by norm_num), ← pow_add]
          exact lt_of_lt_of_eq bound (by congr 1)
        have room : 0 < capacity := by
          by_contra none
          have : capacity = 0 := by omega
          subst this
          norm_num at bound
          omega
        obtain ⟨rest, written, size, _⟩ := ih (value >>> 7) room later
        refine ⟨UInt8.ofNat (value &&& 0x7F ||| 0x80) :: rest, ?_, by simpa using size, by simp⟩
        simp [writeBase128, small, written, pure, Except.pure]

/-- Reading what was written gives the number back, whatever came before it in
the accumulator and whatever follows it in the buffer. -/
theorem read_base128_write (bits maxBytes capacity value : Nat) (bytes rest : Bytes)
    (written : writeBase128 capacity value = .ok bytes)
    (read shift result : Nat) (room : read + capacity ≤ maxBytes)
    (fits : value <<< shift < 2 ^ bits) :
    readBase128 bits maxBytes read shift result (bytes ++ rest) =
      .ok (result ||| value <<< shift, read + bytes.length) := by
  induction capacity generalizing value bytes read shift result with
  | zero => simp [writeBase128] at written
  | succ capacity ih =>
      have notLong : ¬ maxBytes ≤ read := by omega
      rw [Nat.shiftLeft_eq] at fits
      by_cases small : value < 0x80
      · simp only [writeBase128, small, if_true, Except.ok.injEq] at written
        subst written
        have same : (UInt8.ofNat value).toNat = value := by
          simp only [UInt8.toNat_ofNat']
          omega
        have payload : value &&& 0x7F = value := by
          rw [show (0x7F : Nat) = 2 ^ 7 - 1 by norm_num, Nat.and_two_pow_sub_one_eq_mod]
          exact Nat.mod_eq_of_lt small
        have done : value &&& 0x80 = 0 := by
          rw [show (0x80 : Nat) = 2 ^ 7 by norm_num, Nat.and_two_pow,
            Nat.testBit_lt_two_pow small]
          simp
        have accepted : ¬ (bits < shift + 7 ∧
            1 <<< (if shift < bits then bits - shift else 0) ≤ value) := by
          rintro ⟨_, exceeds⟩
          rw [Nat.shiftLeft_eq, one_mul] at exceeds
          split at exceeds
          · next inside =>
              have scaled : 2 ^ (bits - shift) * 2 ^ shift ≤ value * 2 ^ shift :=
                Nat.mul_le_mul_right _ exceeds
              rw [← pow_add, Nat.sub_add_cancel (le_of_lt inside)] at scaled
              omega
          · next outside =>
              have power : 2 ^ bits ≤ 2 ^ shift := Nat.pow_le_pow_right (by norm_num) (by omega)
              have scaled : 1 * 2 ^ shift ≤ value * 2 ^ shift := Nat.mul_le_mul_right _ (by simpa using exceeds)
              omega
        simp [readBase128, notLong, same, payload, done, accepted]
      · simp only [writeBase128, small, if_false] at written
        obtain ⟨tail, wrote, made⟩ := except_bind_ok written
        cases Except.ok.inj made
        have high : 2 ^ (shift + 7) ≤ value * 2 ^ shift := by
          rw [pow_add, mul_comm]
          exact Nat.mul_le_mul_right _ (by omega)
        have within : ¬ bits < shift + 7 := by
          intro tight
          have power : 2 ^ bits ≤ 2 ^ (shift + 7) := Nat.pow_le_pow_right (by norm_num) (by omega)
          omega
        have lowBound : value &&& 0x7F < 128 := by
          rw [show (0x7F : Nat) = 2 ^ 7 - 1 by norm_num, Nat.and_two_pow_sub_one_eq_mod]
          exact Nat.mod_lt _ (by norm_num)
        have marked : value &&& 0x7F ||| 0x80 = (value &&& 0x7F) + 128 := by
          have := Nat.two_pow_add_eq_or_of_lt (i := 7) lowBound 1
          rw [Nat.or_comm, Nat.add_comm]
          simpa using this.symm
        have byteValue : (UInt8.ofNat (value &&& 0x7F ||| 0x80)).toNat =
            (value &&& 0x7F) + 128 := by
          rw [marked]
          simp only [UInt8.toNat_ofNat']
          omega
        have payload : ((value &&& 0x7F) + 128) &&& 0x7F = value &&& 0x7F := by
          rw [show (0x7F : Nat) = 2 ^ 7 - 1 by norm_num, Nat.and_two_pow_sub_one_eq_mod,
            Nat.and_two_pow_sub_one_eq_mod]
          omega
        have more : ¬ ((value &&& 0x7F) + 128) &&& 0x80 = 0 := by
          have flag : Nat.testBit ((value &&& 0x7F) ||| 0x80) 7 = true := by
            rw [Nat.testBit_or]
            simp [show Nat.testBit 0x80 7 = true by decide]
          rw [← marked, show ((value &&& 0x7F ||| 0x80) &&& 0x80) =
            (value &&& 0x7F ||| 0x80) &&& 2 ^ 7 by norm_num, Nat.and_two_pow, flag]
          norm_num
        have fitsTail : (value >>> 7) <<< (shift + 7) < 2 ^ bits := by
          rw [Nat.shiftLeft_eq, Nat.shiftRight_eq_div_pow, Nat.add_comm shift 7, pow_add,
            ← mul_assoc]
          exact lt_of_le_of_lt (Nat.mul_le_mul_right _ (Nat.div_mul_le_self value (2 ^ 7))) fits
        have step := ih (value >>> 7) tail wrote (read + 1) (shift + 7)
          (result ||| (value &&& 0x7F) <<< shift) (by omega) fitsTail
        simp only [List.cons_append, readBase128, notLong, if_false, byteValue, payload, within,
          false_and, more]
        rw [step, Nat.or_assoc, low_bits_or_rest]
        simp
        omega

theorem decode_varint_encode (value : Int) (fits : FitsSigned 32 value) (bytes rest : Bytes)
    (encoded : encodeVarint value = .ok bytes) :
    decodeVarint (bytes ++ rest) = .ok (value, bytes.length) := by
  have bound : zigzag32 value < 2 ^ 32 := BitVec.isLt _
  rw [decodeVarint, read_base128_write 32 kMaxVarintBytes kMaxVarintBytes (zigzag32 value) bytes
    rest encoded 0 0 0 (by simp) (by simpa using bound)]
  simp [unzigzag32_zigzag32 value fits, pure, Except.pure]

theorem decode_varlong_encode (value : Int) (bytes rest : Bytes) (encoded : encodeVarlong value = .ok bytes) :
    decodeVarlong (bytes ++ rest) = .ok (wrapSigned 64 value, bytes.length) := by
  have bound : zigzag64 value < 2 ^ 64 := BitVec.isLt _
  rw [decodeVarlong, read_base128_write 64 kMaxVarlongBytes kMaxVarlongBytes (zigzag64 value) bytes
    rest encoded 0 0 0 (by simp) (by simpa using bound)]
  simp [unzigzag64_zigzag64 value, pure, Except.pure]

theorem encode_varint_total (value : Int) :
    ∃ bytes, encodeVarint value = .ok bytes ∧ bytes.length ≤ 5 ∧ 0 < bytes.length := by
  have bound : zigzag32 value < 2 ^ 32 := BitVec.isLt _
  exact write_base128_total 5 (zigzag32 value) (by norm_num)
    (lt_of_lt_of_le bound (Nat.pow_le_pow_right (by norm_num) (by norm_num)))

theorem encode_varlong_total (value : Int) :
    ∃ bytes, encodeVarlong value = .ok bytes ∧ bytes.length ≤ 10 ∧ 0 < bytes.length := by
  have bound : zigzag64 value < 2 ^ 64 := BitVec.isLt _
  exact write_base128_total 10 (zigzag64 value) (by norm_num)
    (lt_of_lt_of_le bound (Nat.pow_le_pow_right (by norm_num) (by norm_num)))

namespace BufferReader

theorem read_varint_encode (position : Nat) (value : Int) (fits : FitsSigned 32 value)
    (bytes rest : Bytes) (encoded : encodeVarint value = .ok bytes) :
    readVarint ⟨position, bytes ++ rest⟩ = .ok (value, ⟨position + bytes.length, rest⟩) := by
  simp [readVarint, decode_varint_encode value fits bytes rest encoded, pure, Except.pure]

theorem read_varlong_encode (position : Nat) (value : Int) (bytes rest : Bytes)
    (encoded : encodeVarlong value = .ok bytes) :
    readVarlong ⟨position, bytes ++ rest⟩ =
      .ok (wrapSigned 64 value, ⟨position + bytes.length, rest⟩) := by
  simp [readVarlong, decode_varlong_encode value bytes rest encoded, pure, Except.pure]

end BufferReader

example : (encodeVarint (-3)).toOption = some [5] := by decide +kernel

end DariyaKyu

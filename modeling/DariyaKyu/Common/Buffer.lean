import DariyaKyu.Common.Errors
import Mathlib.Tactic.Ring
import Mathlib.Tactic.Positivity
import Mathlib.Tactic.NormNum
import Mathlib.Data.List.TakeDrop

/-!
`common/buffer.cpp`: big-endian integers read from and written to byte
sequences. A `BufferReader` is the unread suffix together with how many bytes
came before it, which is all that its error texts and callers ever ask of it.
A `BufferWriter` is the byte list written so far, so writing is appending.
-/

namespace DariyaKyu

set_option autoImplicit false

/-- `value = (value << 8) | byte`, from the first byte on. -/
def beNat (bytes : Bytes) : Nat :=
  bytes.foldl (fun value byte => value * 256 + byte.toNat) 0

def beBytes : Nat → Nat → Bytes
  | 0, _ => []
  | width + 1, value => UInt8.ofNat (value / 256 ^ width) :: beBytes width value

/-- Two's complement reading of a `bits`-wide register. -/
def asSigned (bits raw : Nat) : Int :=
  if raw < 2 ^ (bits - 1) then raw else (raw : Int) - 2 ^ bits

/-- `static_cast` of a signed value to the unsigned type of the same width. -/
def asUnsigned (bits : Nat) (value : Int) : Nat := (value % 2 ^ bits).toNat

def FitsSigned (bits : Nat) (value : Int) : Prop :=
  -(2 ^ (bits - 1)) ≤ value ∧ value < 2 ^ (bits - 1)

instance (bits : Nat) (value : Int) : Decidable (FitsSigned bits value) :=
  inferInstanceAs (Decidable (_ ∧ _))

/-- What arithmetic on an intN_t leaves of a value when it wraps around. -/
def wrapSigned (bits : Nat) (value : Int) : Int := value.bmod (2 ^ bits)

structure BufferReader where
  position : Nat
  rest : Bytes
  deriving DecidableEq, Repr

namespace BufferReader

def ofBytes (bytes : Bytes) : BufferReader := ⟨0, bytes⟩

def remaining (input : BufferReader) : Nat := input.rest.length

def isEmpty (input : BufferReader) : Bool := input.rest.isEmpty

def require (input : BufferReader) (count : Nat) : Except Error Unit :=
  if input.remaining < count then
    .error (.corruptData s!"buffer: wanted {count} byte(s) at position {input.position} but only {input.remaining} remain")
  else .ok ()

def readBytes (input : BufferReader) (count : Nat) : Except Error (Bytes × BufferReader) := do
  input.require count
  return (input.rest.take count, ⟨input.position + count, input.rest.drop count⟩)

def skip (input : BufferReader) (count : Nat) : Except Error BufferReader := do
  let (_, after) ← input.readBytes count
  return after

def readUint (bits : Nat) (input : BufferReader) : Except Error (Nat × BufferReader) := do
  let (bytes, after) ← input.readBytes (bits / 8)
  return (beNat bytes, after)

def readInt (bits : Nat) (input : BufferReader) : Except Error (Int × BufferReader) := do
  let (raw, after) ← input.readUint bits
  return (asSigned bits raw, after)

def readInt8 := readInt 8
def readInt16 := readInt 16
def readInt32 := readInt 32
def readUint32 := readUint 32
def readInt64 := readInt 64

def readArrayLength (input : BufferReader) : Except Error (Int × BufferReader) := do
  let (length, after) ← input.readInt32
  if length < -1 then
    .error (.corruptData s!"buffer: array length {length} at position {after.position - 4} is below the null marker")
  else .ok (length, after)

end BufferReader

def writeInt (bits : Nat) (value : Int) : Bytes := beBytes (bits / 8) (asUnsigned bits value)

def writeInt8 := writeInt 8
def writeInt16 := writeInt 16
def writeInt32 := writeInt 32
def writeUint32 (value : Nat) : Bytes := beBytes 4 value
def writeInt64 := writeInt 64

theorem be_nat_from (start : Nat) (bytes : Bytes) :
    bytes.foldl (fun value byte => value * 256 + byte.toNat) start =
      start * 256 ^ bytes.length + beNat bytes := by
  induction bytes generalizing start with
  | nil => simp [beNat]
  | cons byte rest ih =>
      simp only [beNat, List.foldl_cons, List.length_cons, pow_succ] at ih ⊢
      rw [ih (start * 256 + byte.toNat), ih (0 * 256 + byte.toNat)]
      ring

theorem be_nat_cons (byte : UInt8) (rest : Bytes) :
    beNat (byte :: rest) = byte.toNat * 256 ^ rest.length + beNat rest := by
  have step := be_nat_from byte.toNat rest
  simpa [beNat] using step

theorem be_nat_lt (bytes : Bytes) : beNat bytes < 256 ^ bytes.length := by
  induction bytes with
  | nil => simp [beNat]
  | cons byte rest ih =>
      rw [be_nat_cons, List.length_cons, pow_succ]
      have small := byte.toNat_lt
      have scaled : byte.toNat * 256 ^ rest.length ≤ 255 * 256 ^ rest.length :=
        Nat.mul_le_mul_right _ (by omega)
      omega

@[simp] theorem be_bytes_length (width value : Nat) : (beBytes width value).length = width := by
  induction width with
  | zero => rfl
  | succ width ih => simp [beBytes, ih]

theorem be_nat_be_bytes (width value : Nat) :
    beNat (beBytes width value) = value % 256 ^ width := by
  induction width with
  | zero => simp [beBytes, beNat, Nat.mod_one]
  | succ width ih =>
      rw [beBytes, be_nat_cons, ih, be_bytes_length, pow_succ, Nat.mod_mul]
      simp
      ring

theorem as_signed_as_unsigned (bits : Nat) (positive : 0 < bits) (value : Int)
    (fits : FitsSigned bits value) : asSigned bits (asUnsigned bits value) = value := by
  obtain ⟨width, rfl⟩ : ∃ width, bits = width + 1 := ⟨bits - 1, by omega⟩
  have doubled : (2 : Int) ^ (width + 1) = 2 * 2 ^ width := by rw [pow_succ]; ring
  have doubledNat : (2 : Nat) ^ (width + 1) = 2 * 2 ^ width := by rw [pow_succ]; ring
  have halfCast : ((2 ^ width : Nat) : Int) = 2 ^ width := by push_cast; rfl
  obtain ⟨lower, upper⟩ := fits
  simp only [Nat.add_sub_cancel] at lower upper
  unfold asSigned asUnsigned
  simp only [Nat.add_sub_cancel]
  rw [doubled]
  by_cases negative : value < 0
  · have wrapped : value % (2 * 2 ^ width) = value + 2 * 2 ^ width := by
      rw [← Int.add_emod_right]
      exact Int.emod_eq_of_lt (by omega) (by omega)
    rw [wrapped, if_neg (by omega)]
    omega
  · have same : value % (2 * 2 ^ width) = value := Int.emod_eq_of_lt (by omega) (by omega)
    rw [same, if_pos (by omega)]
    omega

theorem as_unsigned_lt (bits : Nat) (value : Int) : asUnsigned bits value < 2 ^ bits := by
  have positive : (0 : Int) < 2 ^ bits := by positivity
  have upper := Int.emod_lt_of_pos value positive
  have lower := Int.emod_nonneg value positive.ne'
  have castPower : ((2 ^ bits : Nat) : Int) = 2 ^ bits := by push_cast; rfl
  unfold asUnsigned
  omega

theorem as_signed_fits (bits raw : Nat) (positive : 0 < bits) (bound : raw < 2 ^ bits) :
    FitsSigned bits (asSigned bits raw) := by
  obtain ⟨width, rfl⟩ : ∃ width, bits = width + 1 := ⟨bits - 1, by omega⟩
  have doubled : (2 : Nat) ^ (width + 1) = 2 * 2 ^ width := by rw [pow_succ]; ring
  have doubledInt : (2 : Int) ^ (width + 1) = 2 * 2 ^ width := by rw [pow_succ]; ring
  have halfCast : ((2 ^ width : Nat) : Int) = 2 ^ width := by push_cast; rfl
  unfold FitsSigned asSigned
  simp only [Nat.add_sub_cancel]
  rw [doubledInt]
  split <;> constructor <;> omega

theorem wrap_signed_fits (value : Int) : FitsSigned 64 (wrapSigned 64 value) :=
  ⟨Int.le_bmod (by norm_num), Int.bmod_lt (by norm_num)⟩

theorem wrap_signed_of_fits {value : Int} (fits : FitsSigned 64 value) : wrapSigned 64 value = value := by
  obtain ⟨lower, upper⟩ := fits
  apply Int.bmod_eq_of_le <;> omega

theorem wrap_signed_add_sub {value : Int} (fits : FitsSigned 64 value) (first : Int) :
    wrapSigned 64 (first + wrapSigned 64 (value - first)) = value := by
  rw [wrapSigned, wrapSigned, Int.add_bmod_bmod, add_sub_cancel]
  exact wrap_signed_of_fits fits

namespace BufferReader

theorem read_bytes_append (position : Nat) (taken rest : Bytes) :
    readBytes ⟨position, taken ++ rest⟩ taken.length =
      .ok (taken, ⟨position + taken.length, rest⟩) := by
  simp [readBytes, require, remaining, pure, Except.pure]

theorem read_bytes_of_le (input : BufferReader) (count : Nat) (enough : count ≤ input.rest.length) :
    input.readBytes count =
      .ok (input.rest.take count, ⟨input.position + count, input.rest.drop count⟩) := by
  have notShort : ¬ input.remaining < count := by simpa [remaining] using enough
  simp [readBytes, require, notShort, pure, Except.pure]

theorem read_bytes_ok {input after : BufferReader} {count : Nat} {bytes : Bytes}
    (succeeded : input.readBytes count = .ok (bytes, after)) :
    input.rest = bytes ++ after.rest ∧ bytes.length = count ∧
      after.position = input.position + count := by
  have enough : count ≤ input.rest.length := by
    by_contra short
    have isShort : input.remaining < count := by simp only [remaining]; omega
    simp [readBytes, require, isShort] at succeeded
  rw [read_bytes_of_le input count enough] at succeeded
  obtain ⟨rfl, rfl⟩ := Prod.mk.inj (Except.ok.inj succeeded)
  exact ⟨(List.take_append_drop _ _).symm, by simp [enough], rfl⟩

theorem read_uint_of_le (bits : Nat) (input : BufferReader) (enough : bits / 8 ≤ input.rest.length) :
    input.readUint bits =
      .ok (beNat (input.rest.take (bits / 8)),
        ⟨input.position + bits / 8, input.rest.drop (bits / 8)⟩) := by
  rw [readUint, read_bytes_of_le input _ enough]
  rfl

theorem read_int_of_le (bits : Nat) (input : BufferReader) (enough : bits / 8 ≤ input.rest.length) :
    input.readInt bits =
      .ok (asSigned bits (beNat (input.rest.take (bits / 8))),
        ⟨input.position + bits / 8, input.rest.drop (bits / 8)⟩) := by
  rw [readInt, read_uint_of_le bits input enough]
  rfl

theorem read_int_written (bits position : Nat) (whole : 8 ∣ bits) (value : Int) (rest : Bytes) :
    readInt bits ⟨position, writeInt bits value ++ rest⟩ =
      .ok (asSigned bits (asUnsigned bits value), ⟨position + bits / 8, rest⟩) := by
  have size : (writeInt bits value).length = bits / 8 := by simp [writeInt]
  have power : 256 ^ (bits / 8) = 2 ^ bits := by
    rw [show (256 : Nat) = 2 ^ 8 by norm_num, ← pow_mul, Nat.mul_div_cancel' whole]
  rw [read_int_of_le bits _ (by simp [size])]
  simp only [← size, List.take_left', List.drop_left']
  rw [writeInt, be_nat_be_bytes, power, Nat.mod_eq_of_lt (as_unsigned_lt bits value)]

theorem read_int_write_int (bits position : Nat) (whole : 8 ∣ bits) (positive : 0 < bits)
    (value : Int) (fits : FitsSigned bits value) (rest : Bytes) :
    readInt bits ⟨position, writeInt bits value ++ rest⟩ =
      .ok (value, ⟨position + bits / 8, rest⟩) := by
  rw [read_int_written bits position whole, as_signed_as_unsigned bits positive value fits]

end BufferReader

end DariyaKyu

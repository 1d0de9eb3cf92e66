import DariyaKyu.Common.Varint
import Mathlib.Data.FinEnum

/-!
What `common/varint.cpp` reads off its bytes. The decoder works on words of the
target type, where a payload shifted too far would lose bits; its check on the
last permitted byte means none ever is, so the words hold the number that the
seven-bit groups spell.
-/

namespace DariyaKyu

set_option autoImplicit false

def base128Size (value : Nat) : Nat :=
  if value < 0x80 then 1 else base128Size (value >>> 7) + 1
termination_by value
decreasing_by
  rw [Nat.shiftRight_eq_div_pow]
  omega

def varintSize (value : Int) : Nat := base128Size (zigzag32 value)
def varlongSize (value : Int) : Nat := base128Size (zigzag64 value)

/-- `readBase128` over the words of the target type; bits shifted out of a word are lost. -/
def readBase128Word (width maxBytes : Nat) (read shift : Nat) (result : BitVec width) :
    Bytes → Except Error (BitVec width × Nat)
  | [] => .error (.corruptData s!"varint: input ended mid-number after {read} byte(s)")
  | byte :: rest =>
      if maxBytes ≤ read then
        .error (.corruptData s!"varint: encoding longer than {maxBytes} bytes, which the target type cannot hold")
      else
        let payload := byte &&& 0x7F
        let allowedBits := if shift < width then width - shift else 0
        if width < shift + 7 ∧ 1 <<< allowedBits ≤ payload.toNat then
          .error (.corruptData s!"varint: final byte payload {payload.toNat} sets bits beyond the {width}-bit target type")
        else
          let result := result ||| BitVec.ofNat width payload.toNat <<< shift
          if byte &&& 0x80 = 0 then .ok (result, read + 1)
          else readBase128Word width maxBytes (read + 1) (shift + 7) result rest

def decodeWord (top maxBytes : Nat) (input : Bytes) : Except Error (Int × Nat) := do
  let (encoded, read) ← readBase128Word (top + 1) maxBytes 0 0 0#(top + 1) input
  return ((unzigzag encoded).toInt, read)

/-- The number that the seven-bit groups of these bytes spell, the lowest first. -/
def groupsValue : Bytes → Nat
  | [] => 0
  | byte :: rest => byte.toNat % 128 + 128 * groupsValue rest

/-- Every byte but the last says that another one follows. -/
def OneNumber (bytes : Bytes) : Prop :=
  ∃ front last, bytes = front ++ [last] ∧ (∀ byte ∈ front, 0x80 ≤ byte.toNat) ∧ last.toNat < 0x80

theorem and_payload (value : Nat) : value &&& 0x7F = value % 128 :=
  Nat.and_two_pow_sub_one_eq_mod value 7

theorem flag_clear_iff {value : Nat} (small : value < 256) : value &&& 0x80 = 0 ↔ value < 0x80 := by
  constructor
  · intro clear
    by_contra set
    have bit : Nat.testBit value 7 = true := by
      rw [Nat.testBit_eq_decide_div_mod_eq, decide_eq_true_eq]
      omega
    have both := congrArg (Nat.testBit · 7) clear
    simp only [Nat.testBit_and, bit, Bool.true_and, Nat.zero_testBit] at both
    exact absurd both (by decide)
  · intro low
    rw [show (0x80 : Nat) = 2 ^ 7 by norm_num, Nat.and_two_pow, Nat.testBit_lt_two_pow low]
    simp

theorem read_word_eq (width maxBytes read shift result : Nat) (input : Bytes) :
    readBase128Word width maxBytes read shift (BitVec.ofNat width result) input =
      (readBase128 width maxBytes read shift result input).map fun decoded =>
        (BitVec.ofNat width decoded.1, decoded.2) := by
  induction input generalizing read shift result with
  | nil => rfl
  | cons byte rest ih =>
      have payload : (byte &&& 0x7F).toNat = byte.toNat &&& 0x7F := by simp
      have flag : byte &&& 0x80 = 0 ↔ byte.toNat &&& 0x80 = 0 := by
        rw [← UInt8.toNat_inj]
        simp
      have words : BitVec.ofNat width result ||| BitVec.ofNat width (byte.toNat &&& 0x7F) <<< shift =
          BitVec.ofNat width (result ||| (byte.toNat &&& 0x7F) <<< shift) := by
        apply BitVec.eq_of_getLsbD_eq
        intro index inside
        simp only [BitVec.getLsbD_or, BitVec.getLsbD_shiftLeft, BitVec.getLsbD_ofNat,
          Nat.testBit_or, Nat.testBit_shiftLeft, inside, decide_true, Bool.true_and]
        by_cases above : shift ≤ index
        · simp [above, show index - shift < width by omega, show ¬ index < shift by omega]
        · simp [above, show index < shift by omega]
      simp only [readBase128Word, readBase128, payload, flag, words]
      generalize (if shift < width then width - shift else 0) = allowedBits
      split
      · rfl
      split
      · rfl
      split
      · rfl
      · exact ih _ _ _

theorem decode_varint_word (input : Bytes) : decodeVarint input = decodeWord 31 kMaxVarintBytes input := by
  rw [decodeVarint, decodeWord, show 0#(31 + 1) = BitVec.ofNat 32 0 from rfl, read_word_eq]
  cases readBase128 32 kMaxVarintBytes 0 0 0 input <;> rfl

theorem decode_varlong_word (input : Bytes) : decodeVarlong input = decodeWord 63 kMaxVarlongBytes input := by
  rw [decodeVarlong, decodeWord, show 0#(63 + 1) = BitVec.ofNat 64 0 from rfl, read_word_eq]
  cases readBase128 64 kMaxVarlongBytes 0 0 0 input <;> rfl

theorem OneNumber.cons {byte : UInt8} {bytes : Bytes} (goesOn : 0x80 ≤ byte.toNat) (number : OneNumber bytes) :
    OneNumber (byte :: bytes) := by
  obtain ⟨front, last, rfl, marked, ends⟩ := number
  refine ⟨byte :: front, last, rfl, ?_, ends⟩
  intro other member
  rcases List.mem_cons.mp member with rfl | later
  · exact goesOn
  · exact marked other later

theorem payload_fits {bits shift payload result : Nat} (low : result < 2 ^ shift) (fits : result < 2 ^ bits)
    (small : payload < 128)
    (checked : ¬ (bits < shift + 7 ∧ 1 <<< (if shift < bits then bits - shift else 0) ≤ payload)) :
    result + payload * 2 ^ shift < 2 ^ (shift + 7) ∧ result + payload * 2 ^ shift < 2 ^ bits := by
  have inGroup : result + payload * 2 ^ shift < 2 ^ (shift + 7) := by
    have scaled : (payload + 1) * 2 ^ shift ≤ 128 * 2 ^ shift := Nat.mul_le_mul_right _ (by omega)
    rw [Nat.add_mul, Nat.one_mul] at scaled
    rw [Nat.pow_add]
    omega
  refine ⟨inGroup, ?_⟩
  by_cases whole : shift + 7 ≤ bits
  · exact Nat.lt_of_lt_of_le inGroup (Nat.pow_le_pow_right (by decide) whole)
  have allowed : payload < 1 <<< (if shift < bits then bits - shift else 0) := by
    by_contra large
    exact checked ⟨by omega, Nat.le_of_not_lt large⟩
  rw [Nat.shiftLeft_eq, Nat.one_mul] at allowed
  by_cases inside : shift < bits
  · rw [if_pos inside] at allowed
    have scaled : (payload + 1) * 2 ^ shift ≤ 2 ^ (bits - shift) * 2 ^ shift := Nat.mul_le_mul_right _ allowed
    rw [← Nat.pow_add, Nat.sub_add_cancel inside.le, Nat.add_mul, Nat.one_mul] at scaled
    omega
  · rw [if_neg inside] at allowed
    have none : payload = 0 := by omega
    rw [none, Nat.zero_mul]
    exact fits

theorem read_base128_groups {bits maxBytes read shift result value total : Nat} {input : Bytes}
    (decoded : readBase128 bits maxBytes read shift result input = .ok (value, total))
    (low : result < 2 ^ shift) (fits : result < 2 ^ bits) :
    ∃ consumed rest, input = consumed ++ rest ∧ total = read + consumed.length ∧ OneNumber consumed ∧
      value = result + groupsValue consumed * 2 ^ shift ∧ value < 2 ^ bits := by
  induction input generalizing read shift result with
  | nil => cases decoded
  | cons byte rest ih =>
      rw [readBase128] at decoded
      split at decoded
      · cases decoded
      simp only at decoded
      generalize isAllowed : (if shift < bits then bits - shift else 0) = allowedBits at decoded
      split at decoded
      · cases decoded
      · next checked =>
        subst isAllowed
        rw [and_payload] at checked decoded
        have payloadBound : byte.toNat % 128 < 128 := Nat.mod_lt _ (by decide)
        obtain ⟨lowNext, fitsNext⟩ := payload_fits low fits payloadBound checked
        have joined : result ||| (byte.toNat % 128) <<< shift = result + byte.toNat % 128 * 2 ^ shift := by
          rw [Nat.shiftLeft_eq, Nat.or_comm, Nat.mul_comm, ← Nat.two_pow_add_eq_or_of_lt low, Nat.add_comm]
        rw [joined] at decoded
        split at decoded
        · next ends =>
          cases decoded
          have last := (flag_clear_iff byte.toNat_lt).mp ends
          refine ⟨[byte], rest, rfl, rfl, ⟨[], byte, rfl, by simp, last⟩, ?_, fitsNext⟩
          simp [groupsValue]
        · next goesOn =>
          obtain ⟨consumed, after, rfl, stopped, number, spelled, bound⟩ := ih decoded lowNext fitsNext
          have marked : 0x80 ≤ byte.toNat := by
            by_contra small
            exact goesOn ((flag_clear_iff byte.toNat_lt).mpr (by omega))
          refine ⟨byte :: consumed, after, rfl, ?_, number.cons marked, ?_, bound⟩
          · rw [stopped, List.length_cons]
            omega
          · rw [spelled, groupsValue, Nat.pow_add]
            ring

/-- Undoing the sign first loses nothing either: the words are finitely many. -/
theorem zigzag_unzigzag {width : Nat} (encoded : BitVec (width + 1)) : zigzag (unzigzag encoded) = encoded := by
  have undone : Function.LeftInverse (@unzigzag width) zigzag := unzigzag_zigzag
  have onto : Function.Surjective (@zigzag width) := Finite.injective_iff_surjective.mp undone.injective
  exact undone.rightInverse_of_surjective onto encoded

theorem zigzag32_unzigzag32 {encoded : Nat} (bound : encoded < 2 ^ 32) : zigzag32 (unzigzag32 encoded) = encoded := by
  rw [zigzag32, unzigzag32, BitVec.ofInt_toInt, zigzag_unzigzag, BitVec.toNat_ofNat, Nat.mod_eq_of_lt bound]

theorem zigzag64_unzigzag64 {encoded : Nat} (bound : encoded < 2 ^ 64) : zigzag64 (unzigzag64 encoded) = encoded := by
  rw [zigzag64, unzigzag64, BitVec.ofInt_toInt, zigzag_unzigzag, BitVec.toNat_ofNat, Nat.mod_eq_of_lt bound]

/-- The order of the encoded words: zero, minus one, one, minus two and so on. -/
theorem zigzag_image {width : Nat} (value : BitVec (width + 1)) :
    ((zigzag value).toNat : Int) = if 0 ≤ value.toInt then 2 * value.toInt else -2 * value.toInt - 1 := by
  have bound := value.isLt
  have powers : 2 ^ (width + 1) = 2 * 2 ^ width := by rw [Nat.pow_succ, Nat.mul_comm]
  have signed := BitVec.toInt_eq_toNat_cond value
  rw [zigzag, sign_mask, BitVec.msb_eq_decide]
  simp only [Nat.add_sub_cancel, decide_eq_true_eq]
  by_cases negative : 2 ^ width ≤ value.toNat
  · rw [if_neg (by omega)] at signed
    have wrapped : value.toNat * 2 % 2 ^ (width + 1) = 2 * value.toNat - 2 ^ (width + 1) := by
      rw [Nat.mod_eq_sub_mod (by omega), Nat.mod_eq_of_lt (by omega), Nat.mul_comm]
    rw [if_pos negative, BitVec.xor_allOnes, BitVec.toNat_not, BitVec.toNat_shiftLeft, Nat.shiftLeft_eq,
      Nat.pow_one, wrapped, signed, if_neg (by omega)]
    omega
  · rw [if_pos (by omega)] at signed
    rw [if_neg negative, BitVec.xor_zero, BitVec.toNat_shiftLeft, Nat.shiftLeft_eq, Nat.pow_one,
      Nat.mod_eq_of_lt (by omega), signed, if_pos (by omega)]
    omega

theorem write_base128_size {capacity value : Nat} {bytes : Bytes} (written : writeBase128 capacity value = .ok bytes) :
    bytes.length = base128Size value := by
  induction capacity generalizing value bytes with
  | zero => cases written
  | succ capacity ih =>
      rw [writeBase128] at written
      rw [base128Size]
      split at written
      · next small =>
        cases written
        rw [if_pos small, List.length_singleton]
      · next large =>
        obtain ⟨rest, wrote, made⟩ := except_bind_ok written
        cases made
        rw [if_neg large, List.length_cons, ih wrote]

/-- The decoder stops inside the input and behind where it began. -/
theorem read_base128_ok {bits maxBytes read shift result value total : Nat} {input : Bytes}
    (decoded : readBase128 bits maxBytes read shift result input = .ok (value, total)) :
    read < total ∧ total ≤ read + input.length := by
  induction input generalizing read shift result with
  | nil => cases decoded
  | cons byte rest ih =>
      rw [readBase128] at decoded
      split at decoded
      · cases decoded
      · simp only at decoded
        generalize (if shift < bits then bits - shift else 0) = allowedBits at decoded
        split at decoded
        · cases decoded
        · split at decoded
          · cases decoded
            simp
          · have later := ih decoded
            simp only [List.length_cons]
            omega

theorem read_base128_local {bits maxBytes read shift result value total : Nat} {input : Bytes}
    (decoded : readBase128 bits maxBytes read shift result input = .ok (value, total)) (rest : Bytes) :
    readBase128 bits maxBytes read shift result (input.take (total - read) ++ rest) = .ok (value, total) := by
  induction input generalizing read shift result with
  | nil => cases decoded
  | cons byte tail ih =>
      obtain ⟨further, _⟩ := read_base128_ok decoded
      obtain ⟨length, isLength⟩ : ∃ length, total - read = length + 1 := ⟨total - read - 1, by omega⟩
      rw [isLength, List.take_succ_cons, List.cons_append]
      rw [readBase128] at decoded ⊢
      split at decoded
      · cases decoded
      · next inside =>
        rw [if_neg inside]
        simp only at decoded ⊢
        generalize (if shift < bits then bits - shift else 0) = allowedBits at decoded ⊢
        split at decoded
        · cases decoded
        · next fits =>
          rw [if_neg fits]
          split at decoded
          · next last =>
            rw [if_pos last]
            exact decoded
          · next goesOn =>
            rw [if_neg goesOn]
            have later := ih decoded
            have remains : total - (read + 1) = length := by omega
            rwa [remains] at later

theorem read_base128_refuses {bits maxBytes read shift result : Nat} {input : Bytes} {failure : Error}
    (refused : readBase128 bits maxBytes read shift result input = .error failure) : ∃ what, failure = .corruptData what := by
  induction input generalizing read shift result with
  | nil =>
      cases refused
      exact ⟨_, rfl⟩
  | cons byte tail ih =>
      rw [readBase128] at refused
      split at refused
      · cases refused
        exact ⟨_, rfl⟩
      · simp only at refused
        generalize (if shift < bits then bits - shift else 0) = allowedBits at refused
        split at refused
        · cases refused
          exact ⟨_, rfl⟩
        · split at refused
          · cases refused
          · exact ih refused

theorem read_base128_cut {bits maxBytes capacity value : Nat} {front tail : Bytes}
    (written : writeBase128 capacity value = .ok (front ++ tail)) (room : capacity ≤ maxBytes)
    (fits : value < 2 ^ bits) (short : tail ≠ []) :
    ∃ what, readBase128 bits maxBytes 0 0 0 front = .error (.corruptData what) := by
  cases decoded : readBase128 bits maxBytes 0 0 0 front with
  | error failure =>
      obtain ⟨what, rfl⟩ := read_base128_refuses decoded
      exact ⟨what, rfl⟩
  | ok given =>
      obtain ⟨_, within⟩ := read_base128_ok decoded
      have whole := read_base128_write bits maxBytes capacity value (front ++ tail) [] written 0 0 0
        (by omega) (by simpa using fits)
      have again := read_base128_local decoded (front.drop (given.2 - 0) ++ tail)
      rw [← List.append_assoc, List.take_append_drop] at again
      rw [List.append_nil, again] at whole
      have stops := congrArg Prod.snd (Except.ok.inj whole)
      have more := List.length_pos_of_ne_nil short
      simp only [List.length_append] at stops
      omega

/-- What a signed type of this many bits and its codec owe each other. The image of
a value is what its groups spell; no bit of what is consumed is left out of it. -/
structure ExactVarint (bits maxBytes : Nat) (image : Int → Nat) (size : Int → Nat)
    (encode : Int → Except Error Bytes) (decode : Bytes → Except Error (Int × Nat)) : Prop where
  zigzags : ∀ value, FitsSigned bits value →
    (image value : Int) = if 0 ≤ value then 2 * value else -2 * value - 1
  reads_back : ∀ value, FitsSigned bits value → ∃ bytes, encode value = .ok bytes ∧
    bytes.length = size value ∧ size value ≤ maxBytes ∧
    ∀ rest, decode (bytes ++ rest) = .ok (value, size value)
  refuses_cut : ∀ value front tail, FitsSigned bits value → encode value = .ok (front ++ tail) → tail ≠ [] →
    ∃ what, decode front = .error (.corruptData what)
  consumes : ∀ input, (∃ what, decode input = .error (.corruptData what)) ∨
    ∃ value consumed rest, input = consumed ++ rest ∧ decode input = .ok (value, consumed.length) ∧
      FitsSigned bits value ∧ OneNumber consumed ∧ groupsValue consumed = image value

/-- One argument for both types: a sign map that is undone both ways, on words of
the type, behind the base-128 loops. -/
theorem exact_varint {bits maxBytes : Nat} {image : Int → Nat} {undo : Nat → Int} {size : Int → Nat}
    (zigzags : ∀ value, FitsSigned bits value →
      (image value : Int) = if 0 ≤ value then 2 * value else -2 * value - 1)
    (bound : ∀ value, image value < 2 ^ bits) (signed : ∀ encoded, FitsSigned bits (undo encoded))
    (undone : ∀ value, FitsSigned bits value → undo (image value) = value)
    (redone : ∀ encoded, encoded < 2 ^ bits → image (undo encoded) = encoded)
    (sizes : ∀ value, size value = base128Size (image value))
    (room : bits ≤ 7 * maxBytes) (positive : 0 < maxBytes) :
    ExactVarint bits maxBytes image size (fun value => writeBase128 maxBytes (image value))
      (fun input => do
        let (encoded, read) ← readBase128 bits maxBytes 0 0 0 input
        return (undo encoded, read)) where
  zigzags := zigzags
  reads_back := by
    intro value fits
    obtain ⟨bytes, written, short, _⟩ := write_base128_total maxBytes (image value) positive
      (Nat.lt_of_lt_of_le (bound value) (Nat.pow_le_pow_right (by decide) room))
    have length := write_base128_size written
    refine ⟨bytes, written, by rw [length, sizes], by rw [sizes, ← length]; exact short, ?_⟩
    intro rest
    have read := read_base128_write bits maxBytes maxBytes (image value) bytes rest written 0 0 0
      (by omega) (by simpa using bound value)
    rw [read, except_ok_bind]
    simp [undone value fits, length, sizes, pure, Except.pure]
  refuses_cut := by
    intro value front tail _ written short
    obtain ⟨what, refused⟩ := read_base128_cut written (Nat.le_refl maxBytes) (bound value) short
    exact ⟨what, by rw [refused]; rfl⟩
  consumes := by
    intro input
    cases decoded : readBase128 bits maxBytes 0 0 0 input with
    | error failure =>
        obtain ⟨what, rfl⟩ := read_base128_refuses decoded
        exact .inl ⟨what, rfl⟩
    | ok given =>
        obtain ⟨consumed, rest, split, stopped, number, spelled, small⟩ :=
          read_base128_groups decoded (by simp) (Nat.two_pow_pos bits)
        rw [Nat.zero_add] at stopped spelled
        rw [Nat.pow_zero, Nat.mul_one] at spelled
        refine .inr ⟨undo given.1, consumed, rest, split, ?_, signed _, number, ?_⟩
        · rw [← stopped]
          rfl
        · rw [redone _ small, spelled]

/-- Both codecs are exact, on words of their types as on plain numbers. -/
theorem varints_exact :
    ExactVarint 32 5 zigzag32 varintSize encodeVarint decodeVarint ∧
      ExactVarint 64 10 zigzag64 varlongSize encodeVarlong decodeVarlong ∧
      decodeVarint = decodeWord 31 5 ∧ decodeVarlong = decodeWord 63 10 := by
  refine ⟨?_, ?_, funext decode_varint_word, funext decode_varlong_word⟩
  · apply exact_varint
    · intro value fits
      have word := zigzag_image (BitVec.ofInt (31 + 1) value)
      rwa [BitVec.toInt_ofInt, Int.bmod_eq_of_le (by have := fits.1; omega) (by have := fits.2; omega)] at word
    · exact fun value => BitVec.isLt _
    · exact fun encoded => ⟨BitVec.le_toInt _, BitVec.toInt_lt⟩
    · exact unzigzag32_zigzag32
    · exact fun encoded => zigzag32_unzigzag32
    · exact fun value => rfl
    · decide
    · decide
  · apply exact_varint
    · intro value fits
      have word := zigzag_image (BitVec.ofInt (63 + 1) value)
      rwa [BitVec.toInt_ofInt, Int.bmod_eq_of_le (by have := fits.1; omega) (by have := fits.2; omega)] at word
    · exact fun value => BitVec.isLt _
    · exact fun encoded => ⟨BitVec.le_toInt _, BitVec.toInt_lt⟩
    · exact fun value fits => (unzigzag64_zigzag64 value).trans (wrap_signed_of_fits fits)
    · exact fun encoded => zigzag64_unzigzag64
    · exact fun value => rfl
    · decide
    · decide

end DariyaKyu

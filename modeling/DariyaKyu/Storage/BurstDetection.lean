import DariyaKyu.Common.ChecksumBits
import DariyaKyu.Storage.BatchCodec

/-!
What the checksum of a stored batch is good for. It covers everything from the
attributes on, and the fields in front of it say where it lies and how far it
reaches. A burst inside what it covers leaves those fields alone, so the check
compares with the old checksum, and the new one is another.
-/

namespace DariyaKyu.Storage

set_option autoImplicit false

open ReflectedCrc

def coveredBytes (total : Nat) (bytes : Bytes) : Bytes :=
  (bytes.drop kCrcCoverageStart).take (total - kCrcCoverageStart)

/-- The covered bytes have changed, in a window of at most 32 bits. -/
structure CoveredBurst (total : Nat) (stored damaged : Bytes) : Prop where
  front : damaged.take kCrcCoverageStart = stored.take kCrcCoverageStart
  burst : DifferWithin 32 (bitsOf (coveredBytes total stored)) (bitsOf (coveredBytes total damaged))
  changed : coveredBytes total stored ≠ coveredBytes total damaged

theorem field_nat_front {bits position count : Nat} {first second : Bytes}
    (same : first.take count = second.take count) (within : position + bits / 8 ≤ count) :
    fieldNat bits position first = fieldNat bits position second := by
  have cut : ∀ bytes : Bytes,
      (bytes.drop position).take (bits / 8) = ((bytes.take count).drop position).take (bits / 8) := by
    intro bytes
    rw [List.drop_take, List.take_take, Nat.min_eq_left (by omega)]
  rw [fieldNat, fieldNat, cut first, cut second, same]

theorem compute_crc_ok {bytes : Bytes} {computed : Nat} (ran : computeCrc bytes = .ok computed) :
    ∃ total, totalSizeOf bytes = .ok total ∧ total ≤ bytes.length ∧
      computed = (crc32c (coveredBytes total bytes)).toNat := by
  obtain ⟨total, sized, ran⟩ := except_bind_ok ran
  obtain ⟨_, whole, ran⟩ := except_bind_ok ran
  cases ran
  exact ⟨total, sized, require_at_least_ok whole, rfl⟩

theorem compute_crc_eq {bytes : Bytes} {total : Nat} (sized : totalSizeOf bytes = .ok total)
    (whole : total ≤ bytes.length) : computeCrc bytes = .ok (crc32c (coveredBytes total bytes)).toNat := by
  have enough : ¬ bytes.length < total := by omega
  simp only [computeCrc, sized, requireAtLeast, enough, if_false, except_ok_bind]
  rfl

namespace CoveredBurst

theorem of_byte (total : Nat) (stored : Bytes) (place : Nat) (byte : UInt8)
    (behind : kCrcCoverageStart ≤ place) (before : place < total) (within : place < stored.length)
    (other : stored[place]? ≠ some byte) :
    CoveredBurst total stored (stored.set place byte) := by
  have covered : coveredBytes total (stored.set place byte) =
      (coveredBytes total stored).set (place - kCrcCoverageStart) byte := by
    rw [coveredBytes, coveredBytes, List.drop_set, if_neg (by omega), List.take_set]
  have inside : place - kCrcCoverageStart < (coveredBytes total stored).length := by
    simp only [coveredBytes, List.length_take, List.length_drop]
    omega
  have here : (coveredBytes total stored)[place - kCrcCoverageStart]? = stored[place]? := by
    rw [coveredBytes, List.getElem?_take_of_lt (by omega), List.getElem?_drop]
    congr 1
    omega
  refine ⟨?_, ?_, ?_⟩
  · rw [List.take_set, List.set_eq_of_length_le (by simp; omega)]
  · have parts := @bytes_burst ((coveredBytes total stored).take (place - kCrcCoverageStart))
      ((coveredBytes total stored).drop (place - kCrcCoverageStart + 1))
      [(coveredBytes total stored)[place - kCrcCoverageStart]] [byte] rfl (by simp)
    rw [covered, List.set_eq_take_append_cons_drop, if_pos inside]
    simpa using parts
  · intro same
    have changed := congrArg (·[place - kCrcCoverageStart]?) same
    simp only [covered, List.getElem?_set_self inside, here] at changed
    exact other changed

variable {total : Nat} {stored damaged : Bytes}

theorem whole (damage : CoveredBurst total stored damaged) (header : kBatchHeaderSize ≤ total)
    (whole : total ≤ stored.length) : total ≤ damaged.length := by
  have alike := damage.burst.1
  rw [bits_of_length, bits_of_length] at alike
  simp only [coveredBytes, List.length_take, List.length_drop] at alike
  unfold kBatchHeaderSize at header
  unfold kCrcCoverageStart at alike
  omega

/-- The check refuses the damaged batch: by its checksum, or even before that
where the burst has made the record count a negative number. -/
theorem verify_crc (damage : CoveredBurst total stored damaged) (sized : totalSizeOf stored = .ok total)
    (checked : verifyCrc stored = .ok true) :
    verifyCrc damaged =
      if (headerOf damaged).recordCount < 0 then
        .error (.corruptData s!"record batch: negative record count {(headerOf damaged).recordCount}")
      else .ok false := by
  obtain ⟨header, parsed, checked⟩ := except_bind_ok checked
  obtain ⟨computed, ran, checked⟩ := except_bind_ok checked
  obtain ⟨_, same, magic, _, declared⟩ := parse_header_ok parsed
  subst same
  obtain ⟨size, again, whole, rfl⟩ := compute_crc_ok ran
  obtain rfl : size = total := Except.ok.inj (again.symm.trans sized)
  obtain ⟨_, covers, _⟩ := total_size_of_ok sized
  have wholeDamaged := damage.whole covers whole
  have ahead : ∀ bits position, position + bits / 8 ≤ kCrcCoverageStart →
      fieldNat bits position damaged = fieldNat bits position stored := fun bits position within =>
    field_nat_front damage.front within
  have sameMagic : (headerOf damaged).magic = (headerOf stored).magic := by
    simp only [headerOf, fieldInt, ahead 8 16 (by decide)]
  have sameLength : (headerOf damaged).batchLength = (headerOf stored).batchLength := by
    simp only [headerOf, fieldInt, ahead 32 8 (by decide)]
  have sameCrc : (headerOf damaged).crc = (headerOf stored).crc := ahead 32 17 (by decide)
  have reparsed : parseHeader damaged =
      if (headerOf damaged).recordCount < 0 then
        .error (.corruptData s!"record batch: negative record count {(headerOf damaged).recordCount}")
      else .ok (headerOf damaged) := by
    rw [parse_header_eq _ (Nat.le_trans covers wholeDamaged), sameMagic, sameLength,
      if_neg (by simpa using magic)]
    rw [if_neg (show ¬ (headerOf stored).batchLength < 0 by omega)]
  have resized : totalSizeOf damaged = .ok size := by
    have short : kBytesBeforeBatchLengthCounted ≤ size := Nat.le_trans (by decide) covers
    rw [total_size_of_eq _ (Nat.le_trans short wholeDamaged), sameLength,
      ← total_size_of_eq _ (Nat.le_trans short whole), sized]
  have other : crc32c (coveredBytes size damaged) ≠ crc32c (coveredBytes size stored) := fun equal =>
    damage.changed (crc32c_distinguishes damage.burst equal.symm)
  have matched : (crc32c (coveredBytes size stored)).toNat = (headerOf stored).crc := by
    simpa [pure, Except.pure] using checked
  have unmatched : ((crc32c (coveredBytes size damaged)).toNat == (headerOf damaged).crc) = false := by
    rw [beq_eq_false_iff_ne, sameCrc, ← matched]
    exact fun equal => other (BitVec.eq_of_toNat_eq equal)
  rw [verifyCrc, reparsed]
  split
  · rfl
  · rw [except_ok_bind, compute_crc_eq resized wholeDamaged, except_ok_bind, unmatched]
    rfl

end CoveredBurst

/-- The checksum is the bitwise one and is the same in parts, and no burst that
fits its register goes unseen, in a message or in a stored batch. -/
theorem checksum_exact :
    (∀ data : Bytes, crc32cFinish (data.foldl crc32cLookup crc32cInit) = bitwiseCrc32c data ∧
      crc32c data = bitwiseCrc32c data) ∧
    (∀ (crc : BitVec 32) (front rest : Bytes) (parts : List Bytes),
      crc32cUpdate crc (front ++ rest) = crc32cUpdate (crc32cUpdate crc front) rest ∧
        crc32cUpdate crc parts.flatten = parts.foldl crc32cUpdate crc) ∧
    (∀ first second : Bytes, first ≠ second → DifferWithin 32 (bitsOf first) (bitsOf second) →
      crc32c first ≠ crc32c second) ∧
    ∀ (stored damaged : Bytes) (total : Nat), totalSizeOf stored = .ok total →
      verifyCrc stored = .ok true → CoveredBurst total stored damaged →
      verifyCrc damaged =
        if (headerOf damaged).recordCount < 0 then
          .error (.corruptData s!"record batch: negative record count {(headerOf damaged).recordCount}")
        else .ok false := by
  refine ⟨?_, ?_, ?_, ?_⟩
  · intro data
    refine ⟨?_, crc32c_eq_bitwise data⟩
    rw [lookup_eq_step]
    exact crc32c_eq_bitwise data
  · intro crc front rest parts
    exact ⟨List.foldl_append, update_flatten crc parts⟩
  · intro first second differ burst same
    exact differ (crc32c_distinguishes burst same)
  · intro stored damaged total sized checked damage
    exact damage.verify_crc sized checked

def keyedBatch : Bytes := recordBatchOf 9 (some [1]) (some [2])

/-- A byte of the value, or the top byte of the record count. -/
theorem checksum_exact_replaced :
    verifyCrc keyedBatch = .ok true ∧ verifyCrc (keyedBatch.set 68 7) = .ok false ∧
      verifyCrc (keyedBatch.set 57 0x80) =
        .error (.corruptData "record batch: negative record count -2147483647") := by
  have sized : totalSizeOf keyedBatch = .ok 70 := ok_of_to_option (by decide +kernel)
  have checked : verifyCrc keyedBatch = .ok true := ok_of_to_option (by decide +kernel)
  have inValue := CoveredBurst.of_byte 70 keyedBatch 68 7 (by decide) (by decide) (by decide +kernel)
    (by decide +kernel)
  have inCount := CoveredBurst.of_byte 70 keyedBatch 57 0x80 (by decide) (by decide) (by decide +kernel)
    (by decide +kernel)
  have detected := checksum_exact.2.2.2 keyedBatch
  refine ⟨checked, (detected _ 70 sized checked inValue).trans ?_, (detected _ 70 sized checked inCount).trans ?_⟩
  · exact if_neg (by decide +kernel)
  · exact (if_pos (by decide +kernel)).trans (congrArg Except.error (by decide +kernel))

end DariyaKyu.Storage

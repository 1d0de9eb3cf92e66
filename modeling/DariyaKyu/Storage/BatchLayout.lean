import DariyaKyu.Storage.RecordBatch

/-!
Where each header field of a batch lies, and what depends on which bytes. A
header parse looks at the first 61 bytes only, the length at bytes eight to
eleven, and the checksum at nothing before byte 17: this is what lets the
broker stamp a base offset into a batch it has already verified.
-/

namespace DariyaKyu.Storage

set_option autoImplicit false

open BufferReader

def fieldNat (bits position : Nat) (bytes : Bytes) : Nat :=
  beNat ((bytes.drop position).take (bits / 8))

def fieldInt (bits position : Nat) (bytes : Bytes) : Int := asSigned bits (fieldNat bits position bytes)

theorem field_int_fits (bits position : Nat) (bytes : Bytes) (whole : bits = 8 * (bits / 8))
    (positive : 0 < bits) : FitsSigned bits (fieldInt bits position bytes) := by
  apply as_signed_fits bits _ positive
  have shorter : ((bytes.drop position).take (bits / 8)).length ≤ bits / 8 := by simp
  calc fieldNat bits position bytes < 256 ^ ((bytes.drop position).take (bits / 8)).length := be_nat_lt _
    _ ≤ 256 ^ (bits / 8) := Nat.pow_le_pow_right (by norm_num) shorter
    _ = 2 ^ bits := by
        conv_rhs => rw [whole]
        rw [pow_mul]
        norm_num

def headerOf (bytes : Bytes) : BatchHeader where
  baseOffset := fieldInt 64 0 bytes
  batchLength := fieldInt 32 8 bytes
  partitionLeaderEpoch := fieldInt 32 12 bytes
  magic := fieldInt 8 16 bytes
  crc := fieldNat 32 17 bytes
  attributes := fieldInt 16 21 bytes
  lastOffsetDelta := fieldInt 32 23 bytes
  firstTimestamp := fieldInt 64 27 bytes
  maxTimestamp := fieldInt 64 35 bytes
  producerId := fieldInt 64 43 bytes
  producerEpoch := fieldInt 16 51 bytes
  baseSequence := fieldInt 32 53 bytes
  recordCount := fieldInt 32 57 bytes

theorem read_field_int (bits position : Nat) (bytes : Bytes)
    (enough : position + bits / 8 ≤ bytes.length) :
    readInt bits ⟨position, bytes.drop position⟩ =
      .ok (fieldInt bits position bytes, ⟨position + bits / 8, bytes.drop (position + bits / 8)⟩) := by
  rw [read_int_of_le bits _ (by simp; omega)]
  simp [fieldInt, fieldNat, List.drop_drop]

theorem read_field_nat (bits position : Nat) (bytes : Bytes)
    (enough : position + bits / 8 ≤ bytes.length) :
    readUint bits ⟨position, bytes.drop position⟩ =
      .ok (fieldNat bits position bytes, ⟨position + bits / 8, bytes.drop (position + bits / 8)⟩) := by
  rw [read_uint_of_le bits _ (by simp; omega)]
  simp [fieldNat, List.drop_drop]

theorem parse_header_eq (bytes : Bytes) (enough : kBatchHeaderSize ≤ bytes.length) :
    parseHeader bytes =
      if (headerOf bytes).magic ≠ kMagicV2 then
        .error (.corruptData s!"record batch: magic byte {(headerOf bytes).magic}, expected {kMagicV2}")
      else if (headerOf bytes).recordCount < 0 then
        .error (.corruptData s!"record batch: negative record count {(headerOf bytes).recordCount}")
      else if (headerOf bytes).batchLength < 0 then
        .error (.corruptData s!"record batch: negative batch length {(headerOf bytes).batchLength}")
      else .ok (headerOf bytes) := by
  unfold kBatchHeaderSize at enough
  have notShort : ¬ bytes.length < kBatchHeaderSize := by unfold kBatchHeaderSize; omega
  have start : BufferReader.ofBytes bytes = ⟨0, bytes.drop 0⟩ := rfl
  simp only [parseHeader, requireAtLeast, notShort, if_false, except_ok_bind, start, readInt64,
    readInt32, readInt8, readInt16, readUint32]
  simp (disch := omega) only [read_field_int, read_field_nat, except_ok_bind, Nat.reduceDiv,
    Nat.reduceAdd, Nat.zero_add]
  rfl

theorem total_size_of_eq (bytes : Bytes) (enough : kBytesBeforeBatchLengthCounted ≤ bytes.length) :
    totalSizeOf bytes =
      if (headerOf bytes).batchLength < kMinBatchLength then
        .error (.corruptData s!"record batch: batch length {(headerOf bytes).batchLength} is below the minimum of {kMinBatchLength}")
      else .ok ((headerOf bytes).batchLength.toNat + kBytesBeforeBatchLengthCounted) := by
  unfold kBytesBeforeBatchLengthCounted at enough
  have notShort : ¬ bytes.length < kBytesBeforeBatchLengthCounted := by
    unfold kBytesBeforeBatchLengthCounted; omega
  have skipped : (BufferReader.ofBytes bytes).skip 8 = .ok ⟨8, bytes.drop 8⟩ := by
    rw [skip, read_bytes_of_le _ _ (by simp [BufferReader.ofBytes]; omega)]
    simp [BufferReader.ofBytes, pure, Except.pure]
  simp only [totalSizeOf, requireAtLeast, notShort, if_false, except_ok_bind, skipped, readInt32]
  rw [read_field_int 32 8 bytes (by omega)]
  rfl

theorem total_size_of_declared {bytes : Bytes} {total : Nat}
    (enough : kBytesBeforeBatchLengthCounted ≤ bytes.length) (header : kBatchHeaderSize ≤ total)
    (declared : (headerOf bytes).batchLength = (total : Int) - kBytesBeforeBatchLengthCounted) :
    totalSizeOf bytes = .ok total := by
  have long : ¬ (headerOf bytes).batchLength < kMinBatchLength := by
    rw [declared, kMinBatchLength]
    omega
  rw [total_size_of_eq bytes enough, if_neg long, declared]
  simp only [kBatchHeaderSize, kBytesBeforeBatchLengthCounted] at header ⊢
  congr 1
  omega

theorem require_at_least_ok {bytes : Bytes} {needed : Nat} {what : String}
    (succeeded : requireAtLeast bytes needed what = .ok ()) : needed ≤ bytes.length := by
  unfold requireAtLeast at succeeded
  split at succeeded
  · cases succeeded
  · omega

theorem parse_header_ok {bytes : Bytes} {header : BatchHeader}
    (parsed : parseHeader bytes = .ok header) :
    kBatchHeaderSize ≤ bytes.length ∧ header = headerOf bytes ∧ header.magic = kMagicV2 ∧
      0 ≤ header.recordCount ∧ 0 ≤ header.batchLength := by
  have enough : kBatchHeaderSize ≤ bytes.length := by
    obtain ⟨_, required, _⟩ := except_bind_ok parsed
    exact require_at_least_ok required
  rw [parse_header_eq bytes enough] at parsed
  split at parsed
  · cases parsed
  · next magic =>
    split at parsed
    · cases parsed
    · next count =>
      split at parsed
      · cases parsed
      · next length =>
        cases parsed
        exact ⟨enough, rfl, by simpa using magic, by omega, by omega⟩

theorem total_size_of_ok {bytes : Bytes} {total : Nat} (sized : totalSizeOf bytes = .ok total) :
    kBytesBeforeBatchLengthCounted ≤ bytes.length ∧ kBatchHeaderSize ≤ total ∧
      (total : Int) = (headerOf bytes).batchLength + kBytesBeforeBatchLengthCounted := by
  have enough : kBytesBeforeBatchLengthCounted ≤ bytes.length := by
    obtain ⟨_, required, _⟩ := except_bind_ok sized
    exact require_at_least_ok required
  rw [total_size_of_eq bytes enough] at sized
  split at sized
  · cases sized
  · next long =>
    cases sized
    simp only [kMinBatchLength, kBatchHeaderSize, kBytesBeforeBatchLengthCounted] at long enough ⊢
    omega

theorem field_nat_append (bits position : Nat) (front rest : Bytes)
    (enough : position + bits / 8 ≤ front.length) :
    fieldNat bits position (front ++ rest) = fieldNat bits position front := by
  unfold fieldNat
  rw [List.drop_append_of_le_length (by omega), List.take_append_of_le_length (by simp; omega)]

theorem field_int_append (bits position : Nat) (front rest : Bytes)
    (enough : position + bits / 8 ≤ front.length) :
    fieldInt bits position (front ++ rest) = fieldInt bits position front := by
  rw [fieldInt, field_nat_append bits position front rest enough, fieldInt]

theorem header_of_append (front rest : Bytes) (enough : kBatchHeaderSize ≤ front.length) :
    headerOf (front ++ rest) = headerOf front := by
  unfold kBatchHeaderSize at enough
  simp (disch := omega) only [headerOf, field_nat_append, field_int_append]

theorem header_of_take (bytes : Bytes) (count : Nat) (enough : kBatchHeaderSize ≤ count)
    (long : kBatchHeaderSize ≤ bytes.length) : headerOf (bytes.take count) = headerOf bytes := by
  have front := header_of_append (bytes.take count) (bytes.drop count) (by simp; omega)
  rw [List.take_append_drop] at front
  exact front.symm

theorem parse_header_append (front rest : Bytes) (enough : kBatchHeaderSize ≤ front.length) :
    parseHeader (front ++ rest) = parseHeader front := by
  rw [parse_header_eq _ (by simp; omega), parse_header_eq _ enough, header_of_append front rest enough]

theorem total_size_of_append (front rest : Bytes)
    (enough : kBytesBeforeBatchLengthCounted ≤ front.length) :
    totalSizeOf (front ++ rest) = totalSizeOf front := by
  have same : (headerOf (front ++ rest)).batchLength = (headerOf front).batchLength :=
    field_int_append 32 8 front rest enough
  rw [total_size_of_eq _ (by simp; omega), total_size_of_eq _ enough, same]

theorem parse_header_take (bytes : Bytes) (long : kBatchHeaderSize ≤ bytes.length) :
    parseHeader (bytes.take kBatchHeaderSize) = parseHeader bytes := by
  rw [← parse_header_append (bytes.take kBatchHeaderSize) (bytes.drop kBatchHeaderSize)
    (by simp; omega), List.take_append_drop]

theorem total_size_of_take (bytes : Bytes) (long : kBatchHeaderSize ≤ bytes.length) :
    totalSizeOf (bytes.take kBatchHeaderSize) = totalSizeOf bytes := by
  have short : kBytesBeforeBatchLengthCounted ≤ (bytes.take kBatchHeaderSize).length := by
    rw [List.length_take_of_le long]
    decide
  rw [← total_size_of_append _ (bytes.drop kBatchHeaderSize) short, List.take_append_drop]

/-- The stamped bytes: eight new ones in front, the rest untouched. -/
def stamped (bytes : Bytes) (baseOffset : Int) : Bytes := writeInt64 baseOffset ++ bytes.drop 8

theorem stamp_base_offset_eq (bytes : Bytes) (baseOffset : Int)
    (long : kBatchHeaderSize ≤ bytes.length) :
    stampBaseOffset bytes baseOffset = .ok (stamped bytes baseOffset) := by
  have notShort : ¬ bytes.length < kBatchHeaderSize := by omega
  simp [stampBaseOffset, requireAtLeast, notShort, stamped, pure, Except.pure]

@[simp] theorem write_int64_length (value : Int) : (writeInt64 value).length = 8 := by
  simp [writeInt64, writeInt]

theorem stamped_length (bytes : Bytes) (baseOffset : Int)
    (long : kBatchHeaderSize ≤ bytes.length) : (stamped bytes baseOffset).length = bytes.length := by
  unfold kBatchHeaderSize at long
  simp [stamped]
  omega

theorem stamped_drop (bytes : Bytes) (baseOffset : Int) (position : Nat) (behind : 8 ≤ position) :
    (stamped bytes baseOffset).drop position = bytes.drop position := by
  rw [stamped, List.drop_append, List.drop_of_length_le (by simpa using behind), write_int64_length,
    List.drop_drop, List.nil_append]
  congr 1
  omega

theorem field_nat_stamped (bits position : Nat) (bytes : Bytes) (baseOffset : Int)
    (behind : 8 ≤ position) :
    fieldNat bits position (stamped bytes baseOffset) = fieldNat bits position bytes := by
  rw [fieldNat, stamped_drop bytes baseOffset position behind, fieldNat]

theorem field_int_stamped (bits position : Nat) (bytes : Bytes) (baseOffset : Int)
    (behind : 8 ≤ position) :
    fieldInt bits position (stamped bytes baseOffset) = fieldInt bits position bytes := by
  rw [fieldInt, field_nat_stamped bits position bytes baseOffset behind, fieldInt]

theorem header_of_stamped (bytes : Bytes) (baseOffset : Int) :
    headerOf (stamped bytes baseOffset) =
      { headerOf bytes with baseOffset := asSigned 64 (asUnsigned 64 baseOffset) } := by
  have base : fieldInt 64 0 (stamped bytes baseOffset) = asSigned 64 (asUnsigned 64 baseOffset) := by
    have written : ((stamped bytes baseOffset).drop 0).take (64 / 8) = writeInt64 baseOffset := by
      simp [stamped]
    have small := as_unsigned_lt 64 baseOffset
    rw [fieldInt, fieldNat, written, writeInt64, writeInt, be_nat_be_bytes]
    congr 1
    omega
  simp (disch := omega) only [headerOf, field_int_stamped, field_nat_stamped, base]

theorem header_of_stamped_in_range (bytes : Bytes) (baseOffset : Int)
    (fits : FitsSigned 64 baseOffset) :
    headerOf (stamped bytes baseOffset) = { headerOf bytes with baseOffset := baseOffset } := by
  rw [header_of_stamped, as_signed_as_unsigned 64 (by norm_num) baseOffset fits]

theorem parse_header_stamped {bytes : Bytes} {header : BatchHeader} (baseOffset : Int)
    (parsed : parseHeader bytes = .ok header) :
    parseHeader (stamped bytes baseOffset) = .ok (headerOf (stamped bytes baseOffset)) := by
  obtain ⟨long, same, magic, count, length⟩ := parse_header_ok parsed
  subst same
  rw [parse_header_eq _ (by rw [stamped_length _ _ long]; exact long), header_of_stamped]
  have notNegative : ¬ (headerOf bytes).recordCount < 0 := by omega
  have notNegativeLength : ¬ (headerOf bytes).batchLength < 0 := by omega
  simp [magic, notNegative, notNegativeLength]

theorem total_size_of_stamped (bytes : Bytes) (baseOffset : Int)
    (long : kBatchHeaderSize ≤ bytes.length) :
    totalSizeOf (stamped bytes baseOffset) = totalSizeOf bytes := by
  have short : kBytesBeforeBatchLengthCounted ≤ bytes.length := by
    unfold kBatchHeaderSize at long
    unfold kBytesBeforeBatchLengthCounted
    omega
  rw [total_size_of_eq _ (by rw [stamped_length _ _ long]; exact short), total_size_of_eq _ short,
    header_of_stamped]

theorem compute_crc_stamped (bytes : Bytes) (baseOffset : Int)
    (long : kBatchHeaderSize ≤ bytes.length) :
    computeCrc (stamped bytes baseOffset) = computeCrc bytes := by
  simp only [computeCrc, total_size_of_stamped bytes baseOffset long, requireAtLeast,
    stamped_length bytes baseOffset long, stamped_drop bytes baseOffset kCrcCoverageStart (by decide)]

theorem verify_crc_stamped {bytes : Bytes} {header : BatchHeader} (baseOffset : Int)
    (parsed : parseHeader bytes = .ok header) :
    verifyCrc (stamped bytes baseOffset) = verifyCrc bytes := by
  obtain ⟨long, same, _⟩ := parse_header_ok parsed
  subst same
  simp only [verifyCrc, parse_header_stamped baseOffset parsed, parsed, except_ok_bind,
    compute_crc_stamped bytes baseOffset long, header_of_stamped]

theorem decode_records_stamped {bytes : Bytes} {header : BatchHeader} (baseOffset : Int)
    (parsed : parseHeader bytes = .ok header) :
    decodeRecords (stamped bytes baseOffset) = decodeRecords bytes := by
  obtain ⟨long, same, _⟩ := parse_header_ok parsed
  subst same
  simp only [decodeRecords, parse_header_stamped baseOffset parsed, parsed, except_ok_bind,
    total_size_of_stamped bytes baseOffset long, header_of_stamped, BatchHeader.compression,
    requireAtLeast, stamped_length bytes baseOffset long,
    stamped_drop bytes baseOffset kBatchHeaderSize (by decide)]
  rfl

theorem parse_header_error {bytes : Bytes} {failure : Error}
    (failed : parseHeader bytes = .error failure) : ∃ what, failure = .corruptData what := by
  by_cases long : kBatchHeaderSize ≤ bytes.length
  · rw [parse_header_eq bytes long] at failed
    split at failed
    · cases failed
      exact ⟨_, rfl⟩
    split at failed
    · cases failed
      exact ⟨_, rfl⟩
    split at failed
    · cases failed
      exact ⟨_, rfl⟩
    · cases failed
  · have short : bytes.length < kBatchHeaderSize := by omega
    simp only [parseHeader, requireAtLeast, short, if_true, except_error_bind] at failed
    cases failed
    exact ⟨_, rfl⟩

theorem total_size_of_error {bytes : Bytes} {failure : Error}
    (failed : totalSizeOf bytes = .error failure) : ∃ what, failure = .corruptData what := by
  by_cases long : kBytesBeforeBatchLengthCounted ≤ bytes.length
  · rw [total_size_of_eq bytes long] at failed
    split at failed
    · cases failed
      exact ⟨_, rfl⟩
    · cases failed
  · have short : bytes.length < kBytesBeforeBatchLengthCounted := by omega
    simp only [totalSizeOf, requireAtLeast, short, if_true, except_error_bind] at failed
    cases failed
    exact ⟨_, rfl⟩

theorem require_at_least_error {bytes : Bytes} {needed : Nat} {what : String} {failure : Error}
    (failed : requireAtLeast bytes needed what = .error failure) :
    ∃ what, failure = .corruptData what := by
  unfold requireAtLeast at failed
  split at failed
  · cases failed
    exact ⟨_, rfl⟩
  · cases failed

theorem verify_crc_error {bytes : Bytes} {failure : Error}
    (failed : verifyCrc bytes = .error failure) : ∃ what, failure = .corruptData what := by
  rcases except_bind_error failed with unparsed | ⟨header, _, failed⟩
  · exact parse_header_error unparsed
  rcases except_bind_error failed with uncomputed | ⟨computed, _, failed⟩
  · rcases except_bind_error uncomputed with unsized | ⟨total, _, failed⟩
    · exact total_size_of_error unsized
    · rcases except_bind_error failed with short | ⟨_, _, failed⟩
      · exact require_at_least_error short
      · cases failed
  · cases failed

/-- A complete v2 batch and nothing else: the declared length is the byte count,
and the checksum matches. -/
structure CheckedBatch (bytes : Bytes) : Prop where
  sized : totalSizeOf bytes = .ok bytes.length
  checked : verifyCrc bytes = .ok true

namespace CheckedBatch

variable {bytes : Bytes}

theorem parsed (complete : CheckedBatch bytes) : parseHeader bytes = .ok (headerOf bytes) := by
  obtain ⟨header, parsed, _⟩ := except_bind_ok complete.checked
  rw [parsed, (parse_header_ok parsed).2.1]

theorem long (complete : CheckedBatch bytes) : kBatchHeaderSize ≤ bytes.length :=
  (parse_header_ok complete.parsed).1

theorem positive (complete : CheckedBatch bytes) : 0 < bytes.length := by
  have := complete.long
  unfold kBatchHeaderSize at this
  omega

end CheckedBatch

theorem checked_front_unique {first second restFirst restSecond : Bytes}
    (firstComplete : CheckedBatch first) (secondComplete : CheckedBatch second)
    (same : first ++ restFirst = second ++ restSecond) :
    first = second ∧ restFirst = restSecond := by
  have firstSize := total_size_of_append first restFirst (Nat.le_trans (by decide) firstComplete.long)
  have secondSize := total_size_of_append second restSecond (Nat.le_trans (by decide) secondComplete.long)
  rw [same, secondSize, secondComplete.sized, firstComplete.sized] at firstSize
  exact List.append_inj same (Except.ok.inj firstSize).symm

/-- A complete v2 batch and nothing else: the declared length is the byte
count, the checksum matches, and the batch spans at least its own base offset. -/
structure IntactBatch (bytes : Bytes) : Prop where
  sized : totalSizeOf bytes = .ok bytes.length
  checked : verifyCrc bytes = .ok true
  spans : 0 ≤ (headerOf bytes).lastOffsetDelta

/-- A batch as far as its header tells, whatever its checksum says. -/
structure ShapedBatch (bytes : Bytes) : Prop where
  sized : totalSizeOf bytes = .ok bytes.length
  parsed : parseHeader bytes = .ok (headerOf bytes)
  spans : 0 ≤ (headerOf bytes).lastOffsetDelta

namespace IntactBatch

variable {bytes : Bytes}

theorem complete (intact : IntactBatch bytes) : CheckedBatch bytes := ⟨intact.sized, intact.checked⟩

theorem parsed (intact : IntactBatch bytes) : parseHeader bytes = .ok (headerOf bytes) :=
  intact.complete.parsed

theorem shaped (intact : IntactBatch bytes) : ShapedBatch bytes := ⟨intact.sized, intact.parsed, intact.spans⟩

theorem long (intact : IntactBatch bytes) : kBatchHeaderSize ≤ bytes.length := intact.complete.long

theorem positive (intact : IntactBatch bytes) : 0 < bytes.length := intact.complete.positive

theorem stamped (intact : IntactBatch bytes) (baseOffset : Int) :
    IntactBatch (Storage.stamped bytes baseOffset) where
  sized := by
    rw [total_size_of_stamped bytes baseOffset intact.long, intact.sized,
      stamped_length bytes baseOffset intact.long]
  checked := by rw [verify_crc_stamped baseOffset intact.parsed, intact.checked]
  spans := by
    rw [header_of_stamped]
    exact intact.spans

end IntactBatch

end DariyaKyu.Storage

import DariyaKyu.Common.VarintGroups
import DariyaKyu.Storage.BatchCodec

/-!
What a decoded record was read from. Every field takes at least a byte and its
contents, so records that decode out of a frame-sized batch can be written anew
with room to spare, whatever lengths the writer of the batch chose for its varints.
-/

namespace DariyaKyu

set_option autoImplicit false

namespace BufferReader

variable {input after : BufferReader}

theorem read_varint_ok {value : Int} (succeeded : input.readVarint = .ok (value, after)) :
    after.rest.length < input.rest.length ∧ FitsSigned 32 value := by
  obtain ⟨⟨number, read⟩, decoded, made⟩ := except_bind_ok succeeded
  obtain ⟨⟨encoded, total⟩, scanned, shown⟩ := except_bind_ok decoded
  obtain ⟨positive, within⟩ := read_base128_ok scanned
  cases shown
  cases made
  simp only [List.length_drop]
  refine ⟨by omega, ?_⟩
  have lower := BitVec.le_toInt (@unzigzag 31 (BitVec.ofNat 32 encoded))
  have upper := @BitVec.toInt_lt 32 (@unzigzag 31 (BitVec.ofNat 32 encoded))
  exact ⟨lower, upper⟩

theorem read_varlong_ok {value : Int} (succeeded : input.readVarlong = .ok (value, after)) :
    after.rest.length < input.rest.length := by
  obtain ⟨⟨number, read⟩, decoded, made⟩ := except_bind_ok succeeded
  obtain ⟨⟨encoded, total⟩, scanned, shown⟩ := except_bind_ok decoded
  obtain ⟨positive, within⟩ := read_base128_ok scanned
  cases shown
  cases made
  simp only [List.length_drop]
  omega

theorem read_int8_ok {value : Int} (succeeded : input.readInt8 = .ok (value, after)) :
    after.rest.length < input.rest.length := by
  obtain ⟨⟨number, reader⟩, decoded, made⟩ := except_bind_ok succeeded
  obtain ⟨⟨bytes, next⟩, taken, shown⟩ := except_bind_ok decoded
  cases shown
  cases made
  obtain ⟨split, width, _⟩ := read_bytes_ok taken
  rw [split, List.length_append, width]
  omega

end BufferReader

namespace Storage

variable {input after : BufferReader}

theorem read_nullable_ok {value : Option Bytes} (succeeded : readNullableBytes input = .ok (value, after)) :
    (value.getD []).length + after.rest.length < input.rest.length := by
  obtain ⟨⟨length, middle⟩, isLength, succeeded⟩ := except_bind_ok succeeded
  obtain ⟨shorter, _⟩ := BufferReader.read_varint_ok isLength
  simp only at succeeded
  split at succeeded
  · cases succeeded
    simpa using shorter
  · split at succeeded
    · cases succeeded
    · obtain ⟨⟨bytes, next⟩, taken, made⟩ := except_bind_ok succeeded
      cases made
      obtain ⟨split, _, _⟩ := BufferReader.read_bytes_ok taken
      rw [split, List.length_append] at shorter
      simpa using shorter

theorem decode_record_header_ok {header : RecordHeader}
    (succeeded : decodeRecordHeader input = .ok (header, after)) :
    headerBound header + 5 * after.rest.length ≤ 5 * input.rest.length := by
  obtain ⟨⟨length, middle⟩, isLength, succeeded⟩ := except_bind_ok succeeded
  obtain ⟨shorter, _⟩ := BufferReader.read_varint_ok isLength
  simp only at succeeded
  split at succeeded
  · cases succeeded
  · obtain ⟨⟨key, behindKey⟩, taken, succeeded⟩ := except_bind_ok succeeded
    obtain ⟨⟨value, behindValue⟩, isValue, made⟩ := except_bind_ok succeeded
    cases made
    obtain ⟨split, _, _⟩ := BufferReader.read_bytes_ok taken
    have valueTakes := read_nullable_ok isValue
    simp only at valueTakes
    rw [split, List.length_append] at shorter
    simp only [headerBound]
    omega

theorem decode_record_headers_ok {count : Nat} {headers : List RecordHeader}
    (succeeded : decodeRecordHeaders count input = .ok (headers, after)) :
    (headers.map headerBound).sum + 5 * after.rest.length ≤ 5 * input.rest.length := by
  induction count generalizing input headers with
  | zero =>
      cases succeeded
      simp
  | succ count ih =>
      obtain ⟨⟨header, middle⟩, isHeader, succeeded⟩ := except_bind_ok succeeded
      obtain ⟨⟨others, behind⟩, areOthers, made⟩ := except_bind_ok succeeded
      cases made
      have first := decode_record_header_ok isHeader
      have later := ih areOthers
      simp only [List.map_cons, List.sum_cons]
      omega

/-- A record took at least a sixth of what it may need when it is written again. -/
theorem decode_record_ok {index : Nat} {record : Record}
    (succeeded : decodeRecord index input = .ok (record, after)) :
    FitsSigned 32 record.offsetDelta ∧ ∀ header : BatchHeader,
      recordBound (record.resolve header) + 6 * after.rest.length ≤ 6 * input.rest.length := by
  obtain ⟨⟨length, behindLength⟩, isLength, succeeded⟩ := except_bind_ok succeeded
  simp only at succeeded
  split at succeeded
  · cases succeeded
  obtain ⟨⟨attributes, behindAttributes⟩, areAttributes, succeeded⟩ := except_bind_ok succeeded
  obtain ⟨⟨timestampDelta, behindTimestamp⟩, isTimestamp, succeeded⟩ := except_bind_ok succeeded
  obtain ⟨⟨offsetDelta, behindOffset⟩, isOffset, succeeded⟩ := except_bind_ok succeeded
  obtain ⟨⟨key, behindKey⟩, isKey, succeeded⟩ := except_bind_ok succeeded
  obtain ⟨⟨value, behindValue⟩, isValue, succeeded⟩ := except_bind_ok succeeded
  obtain ⟨⟨count, behindCount⟩, isCount, succeeded⟩ := except_bind_ok succeeded
  simp only at succeeded
  split at succeeded
  · cases succeeded
  obtain ⟨⟨headers, behindHeaders⟩, areHeaders, succeeded⟩ := except_bind_ok succeeded
  simp only at succeeded
  split at succeeded
  · cases succeeded
  cases succeeded
  obtain ⟨offsetTakes, offsetFits⟩ := BufferReader.read_varint_ok isOffset
  refine ⟨offsetFits, fun header => ?_⟩
  have lengthTakes := (BufferReader.read_varint_ok isLength).1
  have attributesTake := BufferReader.read_int8_ok areAttributes
  have timestampTakes := BufferReader.read_varlong_ok isTimestamp
  have keyTakes := read_nullable_ok isKey
  have valueTakes := read_nullable_ok isValue
  have countTakes := (BufferReader.read_varint_ok isCount).1
  have headersTake := decode_record_headers_ok areHeaders
  simp only [recordBound, Record.resolve] at *
  omega

theorem decode_records_from_ok {count index : Nat} {records : List Record}
    (succeeded : decodeRecordsFrom count index input = .ok records) :
    (∀ record ∈ records, FitsSigned 32 record.offsetDelta) ∧ ∀ header : BatchHeader,
      ((records.map (·.resolve header)).map recordBound).sum ≤ 6 * input.rest.length := by
  induction count generalizing index input records with
  | zero =>
      cases succeeded
      simp
  | succ count ih =>
      obtain ⟨⟨record, behind⟩, isRecord, succeeded⟩ := except_bind_ok succeeded
      obtain ⟨others, areOthers, made⟩ := except_bind_ok succeeded
      cases made
      obtain ⟨fits, takes⟩ := decode_record_ok isRecord
      obtain ⟨othersFit, othersTake⟩ := ih areOthers
      refine ⟨List.forall_mem_cons.mpr ⟨fits, othersFit⟩, fun header => ?_⟩
      have first := takes header
      have later := othersTake header
      simp only [List.map_cons, List.sum_cons]
      omega

theorem decode_records_ok {bytes : Bytes} {records : List Record}
    (succeeded : decodeRecords bytes = .ok records) :
    (∀ record ∈ records, FitsSigned 32 record.offsetDelta) ∧ ∀ header : BatchHeader,
      ((records.map (·.resolve header)).map recordBound).sum ≤ 6 * (bytes.length - kBatchHeaderSize) := by
  obtain ⟨header, _, succeeded⟩ := except_bind_ok succeeded
  split at succeeded
  · cases succeeded
  obtain ⟨total, _, succeeded⟩ := except_bind_ok succeeded
  obtain ⟨_, _, succeeded⟩ := except_bind_ok succeeded
  obtain ⟨fits, takes⟩ := decode_records_from_ok succeeded
  refine ⟨fits, fun header => (takes header).trans ?_⟩
  simp only [BufferReader.ofBytes, List.length_take, List.length_drop]
  omega

end Storage

end DariyaKyu

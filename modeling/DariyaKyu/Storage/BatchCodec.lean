import DariyaKyu.Storage.BatchLayout

/-!
The record codec round trip. What `appendAt` and `build` write, `parseHeader`,
`totalSizeOf`, `verifyCrc` and `decodeRecords` read back. The statements are
about records with absolute offsets and timestamps, because those are what a
rewrite of a batch has to preserve; the deltas are relative to the new batch.
-/

namespace DariyaKyu.Storage

set_option autoImplicit false

open BufferReader

/-- A record with its two deltas resolved against the header of its batch. -/
structure LogRecord where
  offset : Int
  timestamp : Int
  key : Option Bytes
  value : Option Bytes
  headers : List RecordHeader
  deriving DecidableEq, Repr

def Record.resolve (record : Record) (header : BatchHeader) : LogRecord where
  offset := record.offsetFrom header.baseOffset
  timestamp := record.timestampFrom header.firstTimestamp
  key := record.key
  value := record.value
  headers := record.headers

def logRecordsOf (bytes : Bytes) : Except Error (List LogRecord) := do
  let header ← parseHeader bytes
  let records ← decodeRecords bytes
  return records.map (·.resolve header)

def headerBound (header : RecordHeader) : Nat :=
  10 + header.key.length + (header.value.getD []).length

def recordBound (record : LogRecord) : Nat :=
  36 + (record.key.getD []).length + (record.value.getD []).length +
    (record.headers.map headerBound).sum

/-- Records one batch based at `base` can hold without any of the source's
32-bit lengths and offset deltas overflowing. A timestamp delta may: it wraps,
and so does the sum that brings the timestamp back. -/
structure RecordsFit (base : Int) (records : List LogRecord) : Prop where
  ordered : records.Pairwise fun earlier later => earlier.offset < later.offset
  lower : ∀ record ∈ records, base ≤ record.offset
  upper : ∀ record ∈ records, record.offset - base < 2 ^ 31
  timestamps : ∀ record ∈ records, FitsSigned 64 record.timestamp
  small : kBatchHeaderSize + (records.map recordBound).sum < 2 ^ 31

/-- The same without the bound on the bytes: what the types of `appendAt`'s
arguments and of the deltas it writes ask for. -/
structure RecordsSpaced (base : Int) (records : List LogRecord) : Prop where
  ordered : records.Pairwise fun earlier later => earlier.offset < later.offset
  lower : ∀ record ∈ records, base ≤ record.offset
  upper : ∀ record ∈ records, record.offset - base < 2 ^ 31
  timestamps : ∀ record ∈ records, FitsSigned 64 record.timestamp

theorem RecordsSpaced.sublist {base : Int} {records kept : List LogRecord}
    (spaced : RecordsSpaced base records) (sub : kept.Sublist records) : RecordsSpaced base kept where
  ordered := spaced.ordered.sublist sub
  lower := fun record member => spaced.lower record (sub.subset member)
  upper := fun record member => spaced.upper record (sub.subset member)
  timestamps := fun record member => spaced.timestamps record (sub.subset member)

theorem RecordsFit.spaced {base : Int} {records : List LogRecord} (fit : RecordsFit base records) :
    RecordsSpaced base records := ⟨fit.ordered, fit.lower, fit.upper, fit.timestamps⟩

theorem encode_nat_total (length : Nat) :
    ∃ bytes, encodeVarint length = .ok bytes ∧ bytes.length ≤ 5 :=
  let ⟨bytes, encoded, size, _⟩ := encode_varint_total length
  ⟨bytes, encoded, size⟩

theorem fits_nat {length : Nat} (small : length < 2 ^ 31) : FitsSigned 32 (length : Int) := by
  unfold FitsSigned
  omega

theorem write_nullable_total (value : Option Bytes) :
    ∃ bytes, writeNullableBytes value = .ok bytes ∧ bytes.length ≤ 5 + (value.getD []).length := by
  cases value with
  | none =>
      obtain ⟨bytes, encoded, size, _⟩ := encode_varint_total kNullLength
      exact ⟨bytes, encoded, by omega⟩
  | some value =>
      obtain ⟨length, encoded, size⟩ := encode_nat_total value.length
      refine ⟨length ++ value, by simp [writeNullableBytes, encoded, pure, Except.pure], ?_⟩
      simp
      omega

theorem write_nullable_size {value : Option Bytes} {bytes : Bytes}
    (written : writeNullableBytes value = .ok bytes) : (value.getD []).length < bytes.length := by
  cases value with
  | none =>
      obtain ⟨same, encoded, _, positive⟩ := encode_varint_total kNullLength
      rw [writeNullableBytes, encoded] at written
      cases written
      exact positive
  | some value =>
      obtain ⟨length, encoded, _, positive⟩ := encode_varint_total value.length
      simp only [writeNullableBytes, encoded, except_ok_bind] at written
      cases written
      simp [positive]

theorem read_nullable_write (position : Nat) (value : Option Bytes) (bytes rest : Bytes)
    (small : (value.getD []).length < 2 ^ 31) (written : writeNullableBytes value = .ok bytes) :
    readNullableBytes ⟨position, bytes ++ rest⟩ =
      .ok (value, ⟨position + bytes.length, rest⟩) := by
  cases value with
  | none =>
      have null : FitsSigned 32 kNullLength := by decide
      simp [readNullableBytes, read_varint_encode position kNullLength null bytes rest written]
  | some value =>
      obtain ⟨length, encoded, made⟩ := except_bind_ok written
      cases Except.ok.inj made
      have notNull : ¬ (value.length : Int) = kNullLength := by
        unfold kNullLength
        omega
      have notNegative : ¬ (value.length : Int) < 0 := by omega
      simp [readNullableBytes, List.append_assoc,
        read_varint_encode position value.length (fits_nat (by simpa using small)) length _ encoded,
        notNull, notNegative, read_bytes_append, pure, Except.pure, Nat.add_assoc]

theorem encode_record_header_total (header : RecordHeader) :
    ∃ bytes, encodeRecordHeader header = .ok bytes ∧ bytes.length ≤ headerBound header := by
  obtain ⟨keyLength, encoded, keySize⟩ := encode_nat_total header.key.length
  obtain ⟨value, written, valueSize⟩ := write_nullable_total header.value
  refine ⟨keyLength ++ header.key ++ value,
    by simp [encodeRecordHeader, encoded, written, pure, Except.pure], ?_⟩
  simp [headerBound]
  omega

theorem decode_record_header_encode (position : Nat) (header : RecordHeader) (bytes rest : Bytes)
    (small : bytes.length < 2 ^ 31) (written : encodeRecordHeader header = .ok bytes) :
    decodeRecordHeader ⟨position, bytes ++ rest⟩ =
      .ok (header, ⟨position + bytes.length, rest⟩) := by
  obtain ⟨keyLength, encoded, written⟩ := except_bind_ok written
  obtain ⟨value, wrote, made⟩ := except_bind_ok written
  cases Except.ok.inj made
  have valueSize := write_nullable_size wrote
  simp only [List.length_append] at small
  have notNegative : ¬ (header.key.length : Int) < 0 := by omega
  simp [decodeRecordHeader, List.append_assoc,
    read_varint_encode position header.key.length (fits_nat (by omega)) keyLength _ encoded,
    notNegative, read_bytes_append, read_nullable_write _ header.value value rest (by omega) wrote,
    pure, Except.pure, Nat.add_assoc]

theorem encode_record_headers_total (headers : List RecordHeader) :
    ∃ bytes, encodeRecordHeaders headers = .ok bytes ∧
      bytes.length ≤ (headers.map headerBound).sum := by
  induction headers with
  | nil => exact ⟨[], rfl, by simp⟩
  | cons header headers ih =>
      obtain ⟨first, encoded, firstSize⟩ := encode_record_header_total header
      obtain ⟨rest, written, restSize⟩ := ih
      refine ⟨first ++ rest, by simp [encodeRecordHeaders, encoded, written, pure, Except.pure], ?_⟩
      simp
      omega

theorem encode_record_headers_size {headers : List RecordHeader} {bytes : Bytes}
    (written : encodeRecordHeaders headers = .ok bytes) : headers.length ≤ bytes.length := by
  induction headers generalizing bytes with
  | nil => simp
  | cons header headers ih =>
      obtain ⟨first, encoded, written⟩ := except_bind_ok written
      obtain ⟨later, wrote, made⟩ := except_bind_ok written
      cases Except.ok.inj made
      obtain ⟨keyLength, _, encoded⟩ := except_bind_ok encoded
      obtain ⟨value, isValue, made⟩ := except_bind_ok encoded
      cases Except.ok.inj made
      have valueSize := write_nullable_size isValue
      have rest := ih wrote
      simp only [List.length_cons, List.length_append]
      omega

theorem decode_record_headers_encode (position : Nat) (headers : List RecordHeader)
    (bytes rest : Bytes) (small : bytes.length < 2 ^ 31)
    (written : encodeRecordHeaders headers = .ok bytes) :
    decodeRecordHeaders headers.length ⟨position, bytes ++ rest⟩ =
      .ok (headers, ⟨position + bytes.length, rest⟩) := by
  induction headers generalizing position bytes with
  | nil =>
      cases Except.ok.inj written
      simp [decodeRecordHeaders]
  | cons header headers ih =>
      obtain ⟨first, encoded, written⟩ := except_bind_ok written
      obtain ⟨later, wrote, made⟩ := except_bind_ok written
      cases Except.ok.inj made
      simp only [List.length_append] at small
      simp [decodeRecordHeaders, List.append_assoc,
        decode_record_header_encode position header first _ (by omega) encoded,
        ih (position + first.length) later (by omega) wrote, pure, Except.pure, Nat.add_assoc]

theorem encode_record_fields_total (record : LogRecord) (offsetDelta timestampDelta : Int) :
    ∃ bytes, encodeRecordFields offsetDelta timestampDelta record.key record.value record.headers =
        .ok bytes ∧ bytes.length + 5 ≤ recordBound record := by
  obtain ⟨timestampBytes, timestampEncoded, timestampSize, _⟩ := encode_varlong_total timestampDelta
  obtain ⟨offsetBytes, offsetEncoded, offsetSize, _⟩ := encode_varint_total offsetDelta
  obtain ⟨keyBytes, keyWritten, keySize⟩ := write_nullable_total record.key
  obtain ⟨valueBytes, valueWritten, valueSize⟩ := write_nullable_total record.value
  obtain ⟨countBytes, countEncoded, countSize⟩ := encode_nat_total record.headers.length
  obtain ⟨headerBytes, headersEncoded, headersSize⟩ := encode_record_headers_total record.headers
  refine ⟨_, by
    simp only [encodeRecordFields, timestampEncoded, offsetEncoded, keyWritten, valueWritten,
      countEncoded, headersEncoded, except_ok_bind]
    rfl, ?_⟩
  simp [recordBound, writeInt8, writeInt]
  omega

theorem decode_record_encode (index position : Nat) (record : LogRecord)
    (offsetDelta timestampDelta : Int) (offsetFits : FitsSigned 32 offsetDelta)
    (length bytes rest : Bytes) (size : bytes.length < 2 ^ 31)
    (written : encodeRecordFields offsetDelta timestampDelta record.key record.value
      record.headers = .ok bytes)
    (prefixed : encodeVarint bytes.length = .ok length) :
    decodeRecord index ⟨position, length ++ bytes ++ rest⟩ =
      .ok (⟨offsetDelta, wrapSigned 64 timestampDelta, record.key, record.value, record.headers, 0⟩,
        ⟨position + length.length + bytes.length, rest⟩) := by
  obtain ⟨timestampBytes, timestampEncoded, written⟩ := except_bind_ok written
  obtain ⟨offsetBytes, offsetEncoded, written⟩ := except_bind_ok written
  obtain ⟨keyBytes, keyWritten, written⟩ := except_bind_ok written
  obtain ⟨valueBytes, valueWritten, written⟩ := except_bind_ok written
  obtain ⟨countBytes, countEncoded, written⟩ := except_bind_ok written
  obtain ⟨headerBytes, headersEncoded, made⟩ := except_bind_ok written
  cases Except.ok.inj made
  have keySize := write_nullable_size keyWritten
  have valueSize := write_nullable_size valueWritten
  have headerCount := encode_record_headers_size headersEncoded
  have zero : FitsSigned 8 0 := by decide
  have notNegativeCount : ¬ (record.headers.length : Int) < 0 := by omega
  simp only [decodeRecord, List.append_assoc] at size prefixed ⊢
  have parts := size
  simp only [List.length_append] at parts
  rw [read_varint_encode position _ (fits_nat size) length _ prefixed]
  simp only [except_ok_bind, readInt8, writeInt8]
  rw [read_int_write_int 8 _ (by norm_num) (by norm_num) 0 zero]
  simp only [except_ok_bind]
  rw [read_varlong_encode _ timestampDelta timestampBytes _ timestampEncoded]
  simp only [except_ok_bind]
  rw [read_varint_encode _ offsetDelta offsetFits offsetBytes _ offsetEncoded]
  simp only [except_ok_bind]
  rw [read_nullable_write _ record.key keyBytes _ (by omega) keyWritten]
  simp only [except_ok_bind]
  rw [read_nullable_write _ record.value valueBytes _ (by omega) valueWritten]
  simp only [except_ok_bind]
  rw [read_varint_encode _ record.headers.length (fits_nat (by omega)) countBytes _ countEncoded]
  simp only [except_ok_bind, notNegativeCount, if_false, Int.toNat_natCast]
  rw [decode_record_headers_encode _ record.headers headerBytes rest (by omega) headersEncoded]
  have width : (writeInt 8 0).length = 1 := rfl
  simp [width, Nat.add_assoc]
  omega

/-- The record as a batch based at `base` with first timestamp `first` stores it. -/
def LogRecord.relative (base : Int) (first : Int) (record : LogRecord) : Record where
  offsetDelta := record.offset - base
  timestampDelta := wrapSigned 64 (record.timestamp - first)
  key := record.key
  value := record.value
  headers := record.headers
  attributes := 0

def BodyDecodes (body : Bytes) (records : List Record) : Prop :=
  ∀ (more index position : Nat) (rest : Bytes),
    decodeRecordsFrom (records.length + more) index ⟨position, body ++ rest⟩ =
      (do
        let later ← decodeRecordsFrom more (index + records.length) ⟨position + body.length, rest⟩
        return records ++ later)

theorem body_decodes_nil : BodyDecodes [] [] := by
  intro more index position rest
  simp only [List.length_nil, Nat.zero_add, List.nil_append, Nat.add_zero]
  cases decodeRecordsFrom more index ⟨position, rest⟩ <;> rfl

theorem body_decodes_concat {body piece : Bytes} {records : List Record} {record : Record}
    (before : BodyDecodes body records)
    (decoded : ∀ (index position : Nat) (rest : Bytes),
      decodeRecord index ⟨position, piece ++ rest⟩ = .ok (record, ⟨position + piece.length, rest⟩)) :
    BodyDecodes (body ++ piece) (records ++ [record]) := by
  intro more index position rest
  have count : (records ++ [record]).length + more = records.length + (more + 1) := by
    simp
    omega
  rw [count, List.append_assoc, before (more + 1) index position (piece ++ rest)]
  simp only [decodeRecordsFrom, decoded, except_ok_bind, List.length_append, List.length_singleton,
    Nat.add_assoc]
  cases decodeRecordsFrom more (index + (records.length + 1))
      ⟨position + (body.length + piece.length), rest⟩ with
  | error failure => rfl
  | ok later => simp [pure, Except.pure]

structure BuilderHolds (base : Int) (builder : RecordBatchBuilder) (records : List LogRecord) :
    Prop where
  plain : builder.compression = compressionNone
  count : builder.count = records.length
  size : builder.records.length ≤ (records.map recordBound).sum
  body : BodyDecodes builder.records (records.map (·.relative base builder.firstTimestamp))
  lastDelta : ∀ record ∈ records.getLast?, builder.lastDelta = record.offset - base
  fresh : records = [] → builder.lastDelta = -1
  first : ∀ record ∈ records.head?, builder.firstTimestamp = record.timestamp
  newest : records ≠ [] → ∃ record ∈ records, builder.maxTimestamp = record.timestamp
  bound : ∀ record ∈ records, record.timestamp ≤ builder.maxTimestamp

theorem builder_holds_fresh (base : Int) : BuilderHolds base {} [] where
  plain := rfl
  count := rfl
  size := by simp
  body := body_decodes_nil
  lastDelta := by simp
  fresh := fun _ => rfl
  first := by simp
  newest := fun absurd => (absurd rfl).elim
  bound := by simp

/-- What `BuilderHolds` says, for records whose size nobody has bounded yet. -/
structure BuilderCarries (base : Int) (builder : RecordBatchBuilder) (records : List LogRecord) :
    Prop where
  plain : builder.compression = compressionNone
  count : builder.count = records.length
  body : builder.records.length < 2 ^ 31 →
    BodyDecodes builder.records (records.map (·.relative base builder.firstTimestamp))
  lastDelta : ∀ record ∈ records.getLast?, builder.lastDelta = record.offset - base
  fresh : records = [] → builder.lastDelta = -1
  first : ∀ record ∈ records.head?, builder.firstTimestamp = record.timestamp
  newest : records ≠ [] → ∃ record ∈ records, builder.maxTimestamp = record.timestamp
  bound : ∀ record ∈ records, record.timestamp ≤ builder.maxTimestamp

theorem BuilderHolds.carries {base : Int} {builder : RecordBatchBuilder} {records : List LogRecord}
    (holds : BuilderHolds base builder records) : BuilderCarries base builder records :=
  ⟨holds.plain, holds.count, fun _ => holds.body, holds.lastDelta, holds.fresh, holds.first,
    holds.newest, holds.bound⟩

/-- The largest timestamp is that of a record and bounds all of them. -/
theorem BuilderCarries.newest_max {base : Int} {builder : RecordBatchBuilder} {records : List LogRecord}
    (carries : BuilderCarries base builder records) (occupied : records ≠ []) :
    some builder.maxTimestamp = (records.map (·.timestamp)).max? := by
  obtain ⟨newest, member, isNewest⟩ := carries.newest occupied
  symm
  rw [List.max?_eq_some_iff]
  refine ⟨List.mem_map.mpr ⟨newest, member, isNewest.symm⟩, ?_⟩
  intro timestamp isOne
  obtain ⟨record, isRecord, rfl⟩ := List.mem_map.mp isOne
  exact carries.bound record isRecord

theorem RecordsSpaced.delta {base : Int} {records : List LogRecord}
    (spaced : RecordsSpaced base records) {record : LogRecord} (member : record ∈ records) :
    FitsSigned 32 (record.offset - base) ∧
      asSigned 32 (asUnsigned 32 (record.offset - base)) = record.offset - base := by
  have fits : FitsSigned 32 (record.offset - base) := by
    have lower := spaced.lower record member
    have upper := spaced.upper record member
    unfold FitsSigned
    omega
  exact ⟨fits, as_signed_as_unsigned 32 (by norm_num) _ fits⟩

/-- One `appendAt` of a record that lies above everything already in the batch. -/
theorem append_at_carries {base : Int} {builder : RecordBatchBuilder} {records : List LogRecord}
    {record : LogRecord} (carries : BuilderCarries base builder records)
    (spaced : RecordsSpaced base (records ++ [record])) :
    ∃ next, builder.appendAt (record.offset - base) record.timestamp record.key record.value
        record.headers = .ok next ∧
      builder.records.length < next.records.length ∧
      next.records.length ≤ builder.records.length + recordBound record ∧
      BuilderCarries base next (records ++ [record]) := by
  have member : record ∈ records ++ [record] := by simp
  have follows : ¬ record.offset - base ≤ builder.lastDelta := by
    rcases List.eq_nil_or_concat records with rfl | ⟨front, last, rfl⟩
    · rw [carries.fresh rfl]
      have lower := spaced.lower record member
      omega
    · rw [carries.lastDelta last (by simp)]
      have ordered := (List.pairwise_append.mp spaced.ordered).2.2 last (by simp) record (by simp)
      omega
  have firstTimestamp : ∀ first ∈ (records ++ [record]).head?,
      (if builder.count = 0 then record.timestamp else builder.firstTimestamp) = first.timestamp := by
    intro first isFirst
    cases records with
    | nil =>
        have := carries.count
        simp_all
    | cons head tail =>
        have := carries.count
        have := carries.first
        simp_all
  obtain ⟨first, isFirst⟩ : ∃ first, (records ++ [record]).head? = some first := by
    cases records <;> simp
  have firstMember : first ∈ records ++ [record] := List.mem_of_mem_head? isFirst
  have firstIs := firstTimestamp first isFirst
  have deltaFits := (spaced.delta member).1
  obtain ⟨encoded, written, size⟩ := encode_record_fields_total record (record.offset - base)
    (record.timestamp - first.timestamp)
  obtain ⟨length, prefixed, lengthSize, positive⟩ := encode_varint_total encoded.length
  have piece : encoded.length < 2 ^ 31 → ∀ (index position : Nat) (rest : Bytes),
      decodeRecord index ⟨position, (length ++ encoded) ++ rest⟩ =
        .ok (record.relative base first.timestamp,
          ⟨position + (length ++ encoded).length, rest⟩) := by
    intro small index position rest
    rw [decode_record_encode index position record _ _ deltaFits length encoded rest
      small written prefixed]
    simp [LogRecord.relative, Nat.add_assoc]
  have sameFirst : records ≠ [] → builder.firstTimestamp = first.timestamp := by
    intro occupied
    rw [← firstIs, if_neg]
    rw [carries.count]
    simpa using occupied
  have body : (builder.records ++ (length ++ encoded)).length < 2 ^ 31 →
      BodyDecodes (builder.records ++ (length ++ encoded))
        ((records ++ [record]).map (·.relative base first.timestamp)) := by
    intro small
    simp only [List.length_append] at small
    rw [List.map_append]
    apply body_decodes_concat _ (piece (by omega))
    have before := carries.body (by omega)
    rcases List.eq_nil_or_concat records with rfl | ⟨front, last, rfl⟩
    · simpa using before
    · rw [← sameFirst (by simp)]
      exact before
  refine ⟨_, by
    simp only [RecordBatchBuilder.appendAt, follows, if_false, firstIs, written, except_ok_bind,
      prefixed]
    rfl, ?_, ?_, ?_⟩
  · simp only [List.length_append]
    omega
  · simp only [List.length_append]
    omega
  constructor
  · exact carries.plain
  · simp [carries.count]
  · simpa [List.append_assoc] using body
  · intro last isLast
    simp at isLast
    subst isLast
    rfl
  · simp
  · intro head isHead
    rw [isFirst] at isHead
    cases isHead
    rfl
  · intro _
    by_cases none : records = []
    · subst none
      exact ⟨record, by simp, by simp [carries.count]⟩
    · obtain ⟨newest, newestMember, isNewest⟩ := carries.newest none
      have occupied : ¬ builder.count = 0 := by simpa [carries.count] using none
      simp only [occupied, if_false]
      split
      · exact ⟨record, by simp, rfl⟩
      · exact ⟨newest, by simp [newestMember], isNewest⟩
  · intro other otherMember
    by_cases none : records = []
    · subst none
      simp only [List.nil_append, List.mem_singleton] at otherMember
      subst otherMember
      simp [carries.count]
    · have occupied : ¬ builder.count = 0 := by simpa [carries.count] using none
      simp only [occupied, if_false]
      rcases List.mem_append.mp otherMember with earlier | same
      · have := carries.bound other earlier
        split <;> omega
      · simp only [List.mem_singleton] at same
        subst same
        split <;> omega

/-- An append above everything in the batch, through the cast of the rewriting loop. -/
theorem append_at_holds {base : Int} {builder : RecordBatchBuilder} {records : List LogRecord}
    {record : LogRecord} (holds : BuilderHolds base builder records)
    (fit : RecordsFit base (records ++ [record])) :
    ∃ next, builder.appendAt (asSigned 32 (asUnsigned 32 (record.offset - base))) record.timestamp
        record.key record.value record.headers = .ok next ∧
      BuilderHolds base next (records ++ [record]) := by
  obtain ⟨next, appended, _, grown, carries⟩ := append_at_carries holds.carries fit.spaced
  rw [(fit.spaced.delta (by simp)).2]
  have size : next.records.length ≤ ((records ++ [record]).map recordBound).sum := by
    have before := holds.size
    simp only [List.map_append, List.sum_append, List.map_cons, List.map_nil, List.sum_cons,
      List.sum_nil]
    omega
  have small := fit.small
  exact ⟨next, appended, carries.plain, carries.count, size, carries.body (by omega),
    carries.lastDelta, carries.fresh, carries.first, carries.newest, carries.bound⟩

theorem records_fit_sublist {base newBase : Int} {records kept : List LogRecord}
    (fit : RecordsFit base records) (sub : kept.Sublist records)
    (lower : ∀ record ∈ kept, newBase ≤ record.offset) (above : base ≤ newBase) :
    RecordsFit newBase kept where
  ordered := fit.ordered.sublist sub
  lower := lower
  upper := fun record member => by
    have := fit.upper record (sub.subset member)
    omega
  timestamps := fun record member => fit.timestamps record (sub.subset member)
  small := by
    have shorter : (kept.map recordBound).sum ≤ (records.map recordBound).sum :=
      (sub.map recordBound).sum_le_sum (fun _ _ => Nat.zero_le _)
    have := fit.small
    omega

def builtBytes (builder : RecordBatchBuilder) : Bytes :=
  writeInt64 0 ++
    writeInt32 ((kBatchHeaderSize + builder.records.length - kBytesBeforeBatchLengthCounted : Nat)) ++
    writeInt32 kNoEpoch ++ writeInt8 kMagicV2 ++ writeUint32 (crc32c builder.covered).toNat ++
    builder.covered

theorem build_eq (builder : RecordBatchBuilder) (occupied : builder.count ≠ 0) :
    builder.build = .ok (builtBytes builder) := by
  simp [RecordBatchBuilder.build, RecordBatchBuilder.empty, occupied, builtBytes]

theorem covered_length (builder : RecordBatchBuilder) :
    builder.covered.length = 40 + builder.records.length := by
  simp [RecordBatchBuilder.covered, writeInt16, writeInt32, writeInt64, writeInt]
  omega

theorem built_length (builder : RecordBatchBuilder) :
    (builtBytes builder).length = kBatchHeaderSize + builder.records.length := by
  simp [builtBytes, covered_length, writeInt8, writeInt32, writeInt64, writeInt, writeUint32,
    kBatchHeaderSize]
  omega

/-- The values a builder must hold for its header fields to be written whole. -/
structure HeaderFits (builder : RecordBatchBuilder) : Prop where
  plain : builder.compression = compressionNone
  size : kBatchHeaderSize + builder.records.length < 2 ^ 31
  count : (builder.count : Int) < 2 ^ 31
  lastDelta : FitsSigned 32 builder.lastDelta
  firstTimestamp : FitsSigned 64 builder.firstTimestamp
  maxTimestamp : FitsSigned 64 builder.maxTimestamp

theorem parse_header_built (builder : RecordBatchBuilder) (fits : HeaderFits builder) :
    parseHeader (builtBytes builder) =
      .ok { baseOffset := 0
            batchLength := (kBatchHeaderSize + builder.records.length -
              kBytesBeforeBatchLengthCounted : Nat)
            partitionLeaderEpoch := kNoEpoch
            magic := kMagicV2
            crc := (crc32c builder.covered).toNat
            attributes := 0
            lastOffsetDelta := builder.lastDelta
            firstTimestamp := builder.firstTimestamp
            maxTimestamp := builder.maxTimestamp
            producerId := -1
            producerEpoch := -1
            baseSequence := -1
            recordCount := builder.count } := by
  have long : ¬ (builtBytes builder).length < kBatchHeaderSize := by
    rw [built_length]
    omega
  have size := fits.size
  have count := fits.count
  have lengthFits : FitsSigned 32 ((kBatchHeaderSize + builder.records.length -
      kBytesBeforeBatchLengthCounted : Nat) : Int) := by
    unfold FitsSigned
    omega
  have countFits : FitsSigned 32 (builder.count : Int) := by
    unfold FitsSigned
    omega
  have crcRead : ∀ (crc : BitVec 32) (position : Nat) (rest : Bytes),
      readUint 32 ⟨position, writeUint32 crc.toNat ++ rest⟩ =
        .ok (crc.toNat, ⟨position + 4, rest⟩) := by
    intro crc position rest
    have width : (writeUint32 crc.toNat).length = 4 := by simp [writeUint32]
    rw [read_uint_of_le 32 _ (by simp [width])]
    simp only [show 32 / 8 = 4 by norm_num, ← width, List.take_left', List.drop_left']
    have small := crc.isLt
    rw [writeUint32, be_nat_be_bytes, Nat.mod_eq_of_lt (by omega)]
  have notNegative : ¬ (builder.count : Int) < 0 := by omega
  have notNegativeLength : ¬ ((kBatchHeaderSize + builder.records.length -
      kBytesBeforeBatchLengthCounted : Nat) : Int) < 0 := by omega
  simp only [parseHeader, requireAtLeast, long, if_false, except_ok_bind]
  unfold builtBytes
  generalize crc32c builder.covered = crc
  simp only [BufferReader.ofBytes, RecordBatchBuilder.covered, fits.plain, List.append_assoc,
    readInt64, writeInt64, readInt32, writeInt32, readInt8, writeInt8, readInt16, writeInt16,
    readUint32]
  rw [read_int_write_int 64 _ (by norm_num) (by norm_num) 0 (by decide), except_ok_bind,
    read_int_write_int 32 _ (by norm_num) (by norm_num) _ lengthFits, except_ok_bind,
    read_int_write_int 32 _ (by norm_num) (by norm_num) kNoEpoch (by decide), except_ok_bind,
    read_int_write_int 8 _ (by norm_num) (by norm_num) kMagicV2 (by decide), except_ok_bind]
  simp only [ne_eq, not_true_eq_false, if_false]
  rw [crcRead, except_ok_bind,
    read_int_write_int 16 _ (by norm_num) (by norm_num) _ (by decide), except_ok_bind,
    read_int_write_int 32 _ (by norm_num) (by norm_num) _ fits.lastDelta, except_ok_bind,
    read_int_write_int 64 _ (by norm_num) (by norm_num) _ fits.firstTimestamp, except_ok_bind,
    read_int_write_int 64 _ (by norm_num) (by norm_num) _ fits.maxTimestamp, except_ok_bind,
    read_int_write_int 64 _ (by norm_num) (by norm_num) _ (by decide), except_ok_bind,
    read_int_write_int 16 _ (by norm_num) (by norm_num) _ (by decide), except_ok_bind,
    read_int_write_int 32 _ (by norm_num) (by norm_num) _ (by decide), except_ok_bind,
    read_int_write_int 32 _ (by norm_num) (by norm_num) _ countFits, except_ok_bind]
  simp only [notNegative, notNegativeLength, if_false]
  rfl

theorem header_of_built (builder : RecordBatchBuilder) (fits : HeaderFits builder) :
    headerOf (builtBytes builder) =
      { baseOffset := 0
        batchLength := (kBatchHeaderSize + builder.records.length -
          kBytesBeforeBatchLengthCounted : Nat)
        partitionLeaderEpoch := kNoEpoch
        magic := kMagicV2
        crc := (crc32c builder.covered).toNat
        attributes := 0
        lastOffsetDelta := builder.lastDelta
        firstTimestamp := builder.firstTimestamp
        maxTimestamp := builder.maxTimestamp
        producerId := -1
        producerEpoch := -1
        baseSequence := -1
        recordCount := builder.count } :=
  (parse_header_ok (parse_header_built builder fits)).2.1.symm

theorem total_size_of_built (builder : RecordBatchBuilder) (fits : HeaderFits builder) :
    totalSizeOf (builtBytes builder) = .ok (builtBytes builder).length := by
  have length := built_length builder
  apply total_size_of_declared
  · simp only [kBatchHeaderSize, kBytesBeforeBatchLengthCounted] at length ⊢
    omega
  · omega
  · rw [header_of_built builder fits, length]
    simp only [kBatchHeaderSize, kBytesBeforeBatchLengthCounted]
    omega

def uncoveredFront (builder : RecordBatchBuilder) (crc : BitVec 32) : Bytes :=
  writeInt64 0 ++
    writeInt32 ((kBatchHeaderSize + builder.records.length - kBytesBeforeBatchLengthCounted : Nat)) ++
    writeInt32 kNoEpoch ++ writeInt8 kMagicV2 ++ writeUint32 crc.toNat

theorem uncovered_front_length (builder : RecordBatchBuilder) (crc : BitVec 32) :
    (uncoveredFront builder crc).length = kCrcCoverageStart := by
  simp [uncoveredFront, writeInt8, writeInt32, writeInt64, writeInt, writeUint32, kCrcCoverageStart]

theorem built_split (builder : RecordBatchBuilder) :
    builtBytes builder = uncoveredFront builder (crc32c builder.covered) ++ builder.covered := rfl

theorem built_drop_covered (builder : RecordBatchBuilder) :
    (builtBytes builder).drop kCrcCoverageStart = builder.covered := by
  rw [built_split, List.drop_left' (uncovered_front_length builder _)]

theorem covered_drop_records (builder : RecordBatchBuilder) :
    builder.covered.drop 40 = builder.records := by
  rw [RecordBatchBuilder.covered]
  apply List.drop_left'
  simp [writeInt16, writeInt32, writeInt64, writeInt]

theorem built_drop_records (builder : RecordBatchBuilder) :
    (builtBytes builder).drop kBatchHeaderSize = builder.records := by
  rw [← covered_drop_records builder, ← built_drop_covered builder, List.drop_drop]
  rfl

theorem verify_crc_built (builder : RecordBatchBuilder) (fits : HeaderFits builder) :
    verifyCrc (builtBytes builder) = .ok true := by
  have all : builder.covered.take ((builtBytes builder).length - kCrcCoverageStart) =
      builder.covered := by
    apply List.take_of_length_le
    rw [built_length, covered_length]
    simp only [kBatchHeaderSize, kCrcCoverageStart]
    omega
  have crc : computeCrc (builtBytes builder) = .ok (crc32c builder.covered).toNat := by
    simp [computeCrc, total_size_of_built builder fits, requireAtLeast, built_drop_covered, all,
      pure, Except.pure]
  simp [verifyCrc, parse_header_built builder fits, crc, pure, Except.pure]

theorem decode_records_built (builder : RecordBatchBuilder) (fits : HeaderFits builder)
    (records : List Record) (count : builder.count = records.length)
    (body : BodyDecodes builder.records records) :
    decodeRecords (builtBytes builder) = .ok records := by
  have all : builder.records.take ((builtBytes builder).length - kBatchHeaderSize) =
      builder.records := by
    rw [built_length]
    simp
  have decoded := body 0 0 0 []
  simp only [Nat.add_zero, List.append_nil, decodeRecordsFrom, except_ok_bind, pure, Except.pure]
    at decoded
  simp only [decodeRecords, parse_header_built builder fits, except_ok_bind, BatchHeader.compression,
    total_size_of_built builder fits, requireAtLeast, built_drop_records, all]
  simp [asUnsigned, compressionNone, BufferReader.ofBytes, count, decoded]

/-- A well-formed batch: intact, uncompressed, and its records decode to
`records`, whose offsets rise from the base offset to exactly the last offset
the header declares. This is what a `RecordBatchBuilder` produces. -/
structure WellFormedBatch (bytes : Bytes) (records : List LogRecord) : Prop
    extends IntactBatch bytes where
  decodes : logRecordsOf bytes = .ok records
  fit : RecordsFit (headerOf bytes).baseOffset records
  last : ∃ record ∈ records.getLast?, record.offset = (headerOf bytes).lastOffset

/-- A builder whose bytes stay below the format's limit writes every header field whole. -/
theorem carried_header_fits {base : Int} {builder : RecordBatchBuilder} {records : List LogRecord}
    (carries : BuilderCarries base builder records) (spaced : RecordsSpaced base records)
    (occupied : records ≠ []) (size : kBatchHeaderSize + builder.records.length < 2 ^ 31)
    (count : records.length < 2 ^ 31) : HeaderFits builder := by
  have counted := carries.count
  have lastMember : records.getLast occupied ∈ records := List.getLast_mem occupied
  have firstMember : records.head occupied ∈ records := List.head_mem occupied
  obtain ⟨newest, newestMember, isNewest⟩ := carries.newest occupied
  refine ⟨carries.plain, size, by omega, ?_, ?_, ?_⟩
  · rw [carries.lastDelta _ (List.getLast?_eq_getLast_of_ne_nil occupied)]
    exact (spaced.delta lastMember).1
  · rw [carries.first _ (List.head?_eq_some_head occupied)]
    exact spaced.timestamps _ firstMember
  · rw [isNewest]
    exact spaced.timestamps newest newestMember

theorem builder_header_fits {base : Int} {builder : RecordBatchBuilder} {records : List LogRecord}
    (holds : BuilderHolds base builder records) (fit : RecordsFit base records)
    (occupied : records ≠ []) : HeaderFits builder := by
  have size := holds.size
  have small := fit.small
  have countBound : records.length ≤ (records.map recordBound).sum := by
    rw [← List.length_map (f := recordBound)]
    apply List.length_le_sum_of_one_le
    intro bound member
    obtain ⟨record, _, rfl⟩ := List.mem_map.mp member
    unfold recordBound
    omega
  exact carried_header_fits holds.carries fit.spaced occupied (by omega) (by omega)

theorem resolve_relative {record : LogRecord} (fits : FitsSigned 64 record.timestamp) {base first : Int}
    {header : BatchHeader} (sameBase : header.baseOffset = base) (sameFirst : header.firstTimestamp = first) :
    (record.relative base first).resolve header = record := by
  subst sameBase sameFirst
  have timestamp := wrap_signed_add_sub fits header.firstTimestamp
  cases record
  simpa [LogRecord.relative, Record.resolve, Record.offsetFrom, Record.timestampFrom] using timestamp

theorem resolved_relative {records : List LogRecord}
    (fits : ∀ record ∈ records, FitsSigned 64 record.timestamp) {base first : Int} {header : BatchHeader}
    (sameBase : header.baseOffset = base) (sameFirst : header.firstTimestamp = first) :
    records.map ((·.resolve header) ∘ (·.relative base first)) = records := by
  conv_rhs => rw [← List.map_id records]
  apply List.map_congr_left
  intro record member
  exact resolve_relative (fits record member) sameBase sameFirst

/-- A batch built from records and stamped with its base is well formed, and
holds exactly those records. -/
theorem build_stamped_well_formed {base : Int} {builder : RecordBatchBuilder}
    {records : List LogRecord} (holds : BuilderHolds base builder records)
    (fit : RecordsFit base records) (occupied : records ≠ []) (range : FitsSigned 64 base) :
    WellFormedBatch (stamped (builtBytes builder) base) records := by
  have fits := builder_header_fits holds fit occupied
  have parsed := parse_header_built builder fits
  have long : kBatchHeaderSize ≤ (builtBytes builder).length := by
    rw [built_length]
    omega
  have header := header_of_stamped_in_range (builtBytes builder) base range
  rw [header_of_built builder fits] at header
  obtain ⟨last, isLast⟩ : ∃ last, records.getLast? = some last := by
    cases records with
    | nil => exact (occupied rfl).elim
    | cons head tail => exact ⟨_, List.getLast?_cons⟩
  have decoded : decodeRecords (stamped (builtBytes builder) base) =
      .ok (records.map (·.relative base builder.firstTimestamp)) := by
    rw [decode_records_stamped base parsed]
    exact decode_records_built builder fits _ (by simp [holds.count]) holds.body
  refine ⟨⟨?_, ?_, ?_⟩, ?_, ?_, ?_⟩
  · rw [total_size_of_stamped _ _ long, total_size_of_built builder fits, stamped_length _ _ long]
  · rw [verify_crc_stamped base parsed, verify_crc_built builder fits]
  · rw [header, holds.lastDelta last isLast]
    have lower := fit.lower last (List.mem_of_mem_getLast? isLast)
    simp only
    omega
  · simp only [logRecordsOf, parse_header_stamped base parsed, decoded, except_ok_bind, header,
      List.map_map]
    exact congrArg Except.ok (resolved_relative fit.timestamps rfl rfl)
  · rw [header]
    exact fit
  · refine ⟨last, isLast, ?_⟩
    rw [header, BatchHeader.lastOffset, holds.lastDelta last isLast]
    simp only
    omega

def LogRecord.shift (record : LogRecord) (distance : Int) : LogRecord :=
  { record with offset := record.offset + distance }

theorem records_fit_shift {base : Int} (distance : Int) {records : List LogRecord}
    (fit : RecordsFit base records) :
    RecordsFit (base + distance) (records.map (·.shift distance)) where
  ordered := by
    rw [List.pairwise_map]
    exact fit.ordered.imp (by intro earlier later below; simp only [LogRecord.shift]; omega)
  lower := by
    intro record member
    obtain ⟨original, originalMember, rfl⟩ := List.mem_map.mp member
    have := fit.lower original originalMember
    simp only [LogRecord.shift]
    omega
  upper := by
    intro record member
    obtain ⟨original, originalMember, rfl⟩ := List.mem_map.mp member
    have := fit.upper original originalMember
    simp only [LogRecord.shift]
    omega
  timestamps := by
    intro record member
    obtain ⟨original, originalMember, rfl⟩ := List.mem_map.mp member
    exact fit.timestamps original originalMember
  small := by
    have same : (records.map (·.shift distance)).map recordBound = records.map recordBound := by
      rw [List.map_map]
      rfl
    rw [same]
    exact fit.small

theorem WellFormedBatch.stamp {bytes : Bytes} {records : List LogRecord}
    (formed : WellFormedBatch bytes records) (base : Int) (range : FitsSigned 64 base) :
    WellFormedBatch (stamped bytes base)
      (records.map (·.shift (base - (headerOf bytes).baseOffset))) := by
  have parsed := formed.toIntactBatch.parsed
  have header := header_of_stamped_in_range bytes base range
  refine ⟨formed.toIntactBatch.stamped base, ?_, ?_, ?_⟩
  · have decodes := formed.decodes
    simp only [logRecordsOf, parsed, except_ok_bind] at decodes
    obtain ⟨raw, decoded, resolved⟩ := except_bind_ok decodes
    cases Except.ok.inj resolved
    simp only [logRecordsOf, parse_header_stamped base parsed, except_ok_bind,
      decode_records_stamped base parsed, decoded, header, List.map_map]
    refine congrArg Except.ok ?_
    apply List.map_congr_left
    intro record _
    simp [Record.resolve, Record.offsetFrom, Record.timestampFrom, LogRecord.shift]
    omega
  · have fit := records_fit_shift (base - (headerOf bytes).baseOffset) formed.fit
    rw [header]
    simpa using fit
  · obtain ⟨record, isLast, offset⟩ := formed.last
    refine ⟨record.shift (base - (headerOf bytes).baseOffset), ?_, ?_⟩
    · simp only [Option.mem_def] at isLast ⊢
      simp [isLast]
    · rw [header]
      simp only [LogRecord.shift, BatchHeader.lastOffset] at offset ⊢
      omega

def recordBatchOf (timestampMs : Int) (key value : Option Bytes) : Bytes :=
  match ({} : RecordBatchBuilder).append timestampMs key value [] with
  | .error _ => []
  | .ok builder => builtBytes builder

end DariyaKyu.Storage

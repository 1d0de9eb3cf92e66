import DariyaKyu.Protocol.WireCodec
import DariyaKyu.Storage.BatchRoundTrip
import DariyaKyu.Storage.DecodedSize

/-!
What the body of a batch is when its records are accepted: behind each other the
records, each behind the length of its fields. The decoder looks at nothing behind
the last record that was counted, and at no relation between the offsets; records
whose offsets rise can be appended to a new batch, and are read from it again.
-/

namespace DariyaKyu

set_option autoImplicit false

open PrefixCodec

namespace BufferReader

theorem read_zigzag_spells (bits maxBytes : Nat) (undo : Nat → Int) :
    Spells IsCorrupt fun input : BufferReader => do
      let (value, read) ← (do
        let (encoded, read) ← readBase128 bits maxBytes 0 0 0 input.rest
        return (undo encoded, read) : Except Error (Int × Nat))
      return (value, (⟨input.position + read, input.rest.drop read⟩ : BufferReader)) := by
  constructor
  · intro input value after decoded
    obtain ⟨⟨undone, read⟩, decoded, made⟩ := except_bind_ok decoded
    obtain ⟨⟨encoded, total⟩, scanned, isUndone⟩ := except_bind_ok decoded
    cases isUndone
    cases made
    obtain ⟨_, within⟩ := read_base128_ok scanned
    rw [Nat.zero_add] at within
    have width : (input.rest.take read).length = read := by
      rw [List.length_take, Nat.min_eq_left within]
    refine ⟨input.rest.take read, (List.take_append_drop read input.rest).symm, by rw [width]; rfl, ?_⟩
    rintro ⟨position, unread⟩ rest isUnread
    simp only [Reader.unread] at isUnread
    subst isUnread
    have local_scan := read_base128_local scanned rest
    rw [Nat.sub_zero] at local_scan
    simp only [local_scan, except_ok_bind]
    refine ⟨_, rfl, ?_⟩
    exact List.drop_left' width
  · intro input failure refused
    rcases except_bind_error refused with scanned | ⟨_, _, made⟩
    · rcases except_bind_error scanned with scanned | ⟨_, _, made⟩
      · exact read_base128_refuses scanned
      · cases made
    · cases made

theorem read_varint_spells : Spells IsCorrupt readVarint := read_zigzag_spells 32 kMaxVarintBytes unzigzag32

theorem read_varlong_spells : Spells IsCorrupt readVarlong := read_zigzag_spells 64 kMaxVarlongBytes unzigzag64

theorem read_bytes_spells (count : Nat) : Spells IsCorrupt fun input : BufferReader => input.readBytes count := by
  have reads := read_bytes_reads count
  constructor
  · intro input value after taken
    obtain ⟨split, length, position⟩ := read_bytes_ok taken
    subst length
    exact ⟨value, split, position, read_bytes_writes value⟩
  · exact reads.refuses

theorem read_int8_spells : Spells IsCorrupt readInt8 := by
  apply Spells.bind
  · apply Spells.bind (read_bytes_spells _)
    intro bytes
    exact Spells.ok _
  · intro raw
    exact Spells.ok _

end BufferReader

namespace Storage

open BufferReader

def decodeRecordFields (input : BufferReader) : Except Error (Record × BufferReader) := do
  let (attributes, input) ← input.readInt8
  let (timestampDelta, input) ← input.readVarlong
  let (offsetDelta, input) ← input.readVarint
  let (key, input) ← readNullableBytes input
  let (value, input) ← readNullableBytes input
  let (headerCount, input) ← input.readVarint
  if headerCount < 0 then
    .error (.corruptData s!"record batch: negative header count {headerCount}")
  else do
    let (headers, input) ← decodeRecordHeaders headerCount.toNat input
    return ({ offsetDelta, timestampDelta, key, value, headers, attributes }, input)

/-- A record in a body: the length of its fields and the fields. -/
def RecordPiece (record : Record) (piece : Bytes) : Prop :=
  ∃ front fields, piece = front ++ fields ∧ Writes readVarint (fields.length : Int) front ∧
    Writes decodeRecordFields record fields

section Pieces

theorem read_nullable_spells : Spells IsCorrupt readNullableBytes := by
  apply Spells.bind read_varint_spells
  intro length
  apply Spells.ite
  · exact Spells.ok _
  · apply Spells.ite
    · exact Spells.fail (corrupt_data _)
    · apply Spells.bind (read_bytes_spells _)
      intro bytes
      exact Spells.ok _

theorem decode_record_header_spells : Spells IsCorrupt decodeRecordHeader := by
  apply Spells.bind read_varint_spells
  intro keyLength
  apply Spells.ite
  · exact Spells.fail (corrupt_data _)
  · apply Spells.bind (read_bytes_spells _)
    intro key
    apply Spells.bind read_nullable_spells
    intro value
    exact Spells.ok _

theorem decode_record_headers_spells (count : Nat) : Spells IsCorrupt (decodeRecordHeaders count) := by
  induction count with
  | zero => exact Spells.ok _
  | succ count ih =>
      apply Spells.bind decode_record_header_spells
      intro header
      apply Spells.bind ih
      intro headers
      exact Spells.ok _

theorem decode_record_fields_spells : Spells IsCorrupt decodeRecordFields := by
  apply Spells.bind read_int8_spells
  intro attributes
  apply Spells.bind read_varlong_spells
  intro timestampDelta
  apply Spells.bind read_varint_spells
  intro offsetDelta
  apply Spells.bind read_nullable_spells
  intro key
  apply Spells.bind read_nullable_spells
  intro value
  apply Spells.bind read_varint_spells
  intro headerCount
  apply Spells.ite
  · exact Spells.fail (corrupt_data _)
  · apply Spells.bind (decode_record_headers_spells _)
    intro headers
    exact Spells.ok _

/-- A turn of the loop: the length, the fields, and whether they go together. -/
theorem decode_record_eq (index : Nat) (input : BufferReader) :
    decodeRecord index input = (do
      let (recordLength, between) ← input.readVarint
      if recordLength < 0 then
        .error (.corruptData s!"record batch: negative record length {recordLength}")
      else do
        let (record, after) ← decodeRecordFields between
        if after.position ≠ between.position + recordLength.toNat then
          .error (.corruptData s!"record batch: record {index} declared {recordLength} bytes but its fields consumed a different amount")
        else .ok (record, after)) := by
  simp only [decodeRecord, decodeRecordFields, bind_assoc, ite_bind]
  rfl

theorem decode_record_iff {index : Nat} {input after : BufferReader} {record : Record} :
    decodeRecord index input = .ok (record, after) ↔ ∃ piece, RecordPiece record piece ∧
      input.rest = piece ++ after.rest ∧ after.position = input.position + piece.length := by
  rw [decode_record_eq]
  constructor
  · intro decoded
    obtain ⟨⟨recordLength, between⟩, isLength, decoded⟩ := except_bind_ok decoded
    obtain ⟨front, isFront, movedFront, writesLength⟩ := read_varint_spells.spelled isLength
    simp only at decoded
    split at decoded
    · cases decoded
    · next known =>
      obtain ⟨⟨found, ends⟩, isRecord, decoded⟩ := except_bind_ok decoded
      obtain ⟨fields, isFields, movedFields, writesFields⟩ := decode_record_fields_spells.spelled isRecord
      simp only [Reader.place] at decoded movedFields
      split at decoded
      · cases decoded
      · next same =>
        cases decoded
        simp only [Reader.unread, Reader.place] at isFront isFields movedFront
        have length : recordLength = fields.length := by omega
        rw [length] at writesLength
        refine ⟨front ++ fields, ⟨front, fields, rfl, writesLength, writesFields⟩, ?_, ?_⟩
        · rw [isFront, isFields, List.append_assoc]
        · rw [List.length_append]
          omega
  · rintro ⟨_, ⟨front, fields, rfl, writesLength, writesFields⟩, isInput, moved⟩
    rw [List.append_assoc] at isInput
    obtain ⟨between, isLength, isBetween, movedFront⟩ := read_varint_spells.consumes writesLength isInput
    obtain ⟨ends, isRecord, isEnd, movedFields⟩ := decode_record_fields_spells.consumes writesFields isBetween
    simp only [Reader.place] at movedFront movedFields
    rw [List.length_append] at moved
    have isAfter : ends = after := by
      obtain ⟨position, rest⟩ := ends
      obtain ⟨afterPosition, afterRest⟩ := after
      simp only [Reader.unread] at isEnd movedFields moved ⊢
      rw [BufferReader.mk.injEq]
      exact ⟨by omega, isEnd⟩
    have known : ¬ (fields.length : Int) < 0 := by omega
    have together : ¬ after.position ≠ between.position + (fields.length : Int).toNat := by
      rw [Int.toNat_natCast]
      omega
    simp only [isLength, isRecord, isAfter, except_ok_bind, if_neg known, if_neg together]

theorem decode_record_refuses {index : Nat} {input : BufferReader} {failure : Error}
    (refused : decodeRecord index input = .error failure) : IsCorrupt failure := by
  rw [decode_record_eq] at refused
  rcases except_bind_error refused with isLength | ⟨⟨recordLength, between⟩, _, refused⟩
  · exact read_varint_spells.refuses isLength
  · simp only at refused
    split at refused
    · cases refused
      exact corrupt_data _
    · rcases except_bind_error refused with isRecord | ⟨⟨record, after⟩, _, refused⟩
      · exact decode_record_fields_spells.refuses isRecord
      · simp only at refused
        split at refused
        · cases refused
          exact corrupt_data _
        · cases refused

/-- The decoder takes as many records as were counted, and looks at nothing behind them. -/
theorem decode_records_from_iff {count index : Nat} {input : BufferReader} {records : List Record} :
    decodeRecordsFrom count index input = .ok records ↔ records.length = count ∧
      ∃ pieces rest, List.Forall₂ RecordPiece records pieces ∧ input.rest = pieces.flatten ++ rest := by
  induction count generalizing index input records with
  | zero =>
      constructor
      · intro decoded
        cases decoded
        exact ⟨rfl, [], input.rest, .nil, rfl⟩
      · rintro ⟨nothing, _⟩
        rw [List.length_eq_zero_iff.mp nothing]
        rfl
  | succ count ih =>
      constructor
      · intro decoded
        obtain ⟨⟨record, after⟩, isFirst, decoded⟩ := except_bind_ok decoded
        obtain ⟨later, isLater, made⟩ := except_bind_ok decoded
        cases made
        obtain ⟨piece, isPiece, isInput, _⟩ := decode_record_iff.mp isFirst
        obtain ⟨counted, pieces, rest, arePieces, isAfter⟩ := ih.mp isLater
        refine ⟨by rw [List.length_cons, counted], piece :: pieces, rest, .cons isPiece arePieces, ?_⟩
        rw [isInput, isAfter, List.flatten_cons, List.append_assoc]
      · rintro ⟨counted, pieces, rest, arePieces, isInput⟩
        cases arePieces with
        | nil => cases counted
        | @cons record piece later pieces isPiece arePieces =>
            rw [List.flatten_cons, List.append_assoc] at isInput
            have first : decodeRecord index input =
                .ok (record, ⟨input.position + piece.length, pieces.flatten ++ rest⟩) :=
              decode_record_iff.mpr ⟨piece, isPiece, isInput, rfl⟩
            have others := (@ih (index + 1) ⟨input.position + piece.length, pieces.flatten ++ rest⟩ later).mpr
              ⟨Nat.succ.inj counted, pieces, rest, arePieces, rfl⟩
            rw [decodeRecordsFrom, first, except_ok_bind]
            simp only [others, except_ok_bind]
            rfl

theorem decode_records_from_refuses {count index : Nat} {input : BufferReader} {failure : Error}
    (refused : decodeRecordsFrom count index input = .error failure) : IsCorrupt failure := by
  induction count generalizing index input with
  | zero => cases refused
  | succ count ih =>
      rcases except_bind_error refused with isFirst | ⟨⟨record, after⟩, _, refused⟩
      · exact decode_record_refuses isFirst
      · rcases except_bind_error refused with isLater | ⟨_, _, made⟩
        · exact ih isLater
        · cases made

end Pieces

/-- What stands between the header and the end that the header declares. -/
def bodyOf (bytes : Bytes) : Bytes :=
  (bytes.drop kBatchHeaderSize).take
    ((headerOf bytes).batchLength.toNat + kBytesBeforeBatchLengthCounted - kBatchHeaderSize)

/-- A batch without compression whose header can be read, and that is all there. -/
structure PlainBatch (bytes : Bytes) : Prop where
  parsed : parseHeader bytes = .ok (headerOf bytes)
  plain : (headerOf bytes).compression = compressionNone
  complete : ∃ total, totalSizeOf bytes = .ok total ∧ total ≤ bytes.length

/-- What comes before the first record: how many records are counted, and the body. -/
def openBody (bytes : Bytes) : Except Error (Nat × BufferReader) := do
  let header ← parseHeader bytes
  if header.compression ≠ compressionNone then
    .error (.error s!"record batch: compression codec {header.compression} is not supported yet (M1 handles the flag, not the algorithm)")
  else do
    let total ← totalSizeOf bytes
    requireAtLeast bytes total "batch body"
    return (header.recordCount.toNat,
      .ofBytes ((bytes.drop kBatchHeaderSize).take (total - kBatchHeaderSize)))

/-- A plain batch: as many records as its header counts, and what stands behind them. -/
structure BatchHolds (bytes : Bytes) (records : List Record) (rest : Bytes) : Prop extends PlainBatch bytes where
  counted : (headerOf bytes).recordCount = records.length
  body : ∃ pieces, List.Forall₂ RecordPiece records pieces ∧ bodyOf bytes = pieces.flatten ++ rest

section Batches

variable {bytes : Bytes} {records : List Record}

theorem total_size_of_declares {total : Nat} (sized : totalSizeOf bytes = .ok total) :
    total = (headerOf bytes).batchLength.toNat + kBytesBeforeBatchLengthCounted := by
  obtain ⟨_, long, isTotal⟩ := total_size_of_ok sized
  simp only [kBatchHeaderSize, kBytesBeforeBatchLengthCounted] at *
  omega

theorem decode_records_opened (bytes : Bytes) :
    decodeRecords bytes = openBody bytes >>= fun given => decodeRecordsFrom given.1 0 given.2 := by
  simp only [decodeRecords, openBody, bind_assoc, ite_bind, pure_bind]
  rfl

theorem open_body_iff {count : Nat} {input : BufferReader} : openBody bytes = .ok (count, input) ↔
    PlainBatch bytes ∧ count = (headerOf bytes).recordCount.toNat ∧ input = .ofBytes (bodyOf bytes) := by
  constructor
  · intro opened
    obtain ⟨header, parsed, opened⟩ := except_bind_ok opened
    obtain ⟨_, isHeader, _⟩ := parse_header_ok parsed
    subst isHeader
    split at opened
    · cases opened
    · next plain =>
      obtain ⟨total, sized, opened⟩ := except_bind_ok opened
      obtain ⟨_, enough, made⟩ := except_bind_ok opened
      cases made
      have declared := total_size_of_declares sized
      refine ⟨⟨parsed, not_not.mp plain, total, sized, require_at_least_ok enough⟩, rfl, ?_⟩
      rw [bodyOf, ← declared]
  · rintro ⟨⟨parsed, plain, total, sized, enough⟩, rfl, rfl⟩
    have room : requireAtLeast bytes total "batch body" = .ok () := if_neg (by omega)
    have declared := total_size_of_declares sized
    simp only [openBody, parsed, plain, sized, room, except_ok_bind, ne_eq, not_true_eq_false, if_false, bodyOf,
      ← declared]
    rfl

theorem decode_records_iff : decodeRecords bytes = .ok records ↔ ∃ rest, BatchHolds bytes records rest := by
  rw [decode_records_opened]
  constructor
  · intro decoded
    obtain ⟨⟨count, input⟩, opened, decoded⟩ := except_bind_ok decoded
    obtain ⟨plain, rfl, rfl⟩ := open_body_iff.mp opened
    obtain ⟨length, pieces, rest, arePieces, isBody⟩ := decode_records_from_iff.mp decoded
    have counted := (parse_header_ok plain.parsed).2.2.2.1
    exact ⟨rest, plain, by omega, pieces, arePieces, isBody⟩
  · rintro ⟨rest, plain, counted, pieces, arePieces, isBody⟩
    rw [open_body_iff.mpr ⟨plain, rfl, rfl⟩, except_ok_bind]
    exact decode_records_from_iff.mpr ⟨by omega, pieces, rest, arePieces, isBody⟩

/-- The bytes are to blame, or a codec that is not there yet. -/
theorem decode_records_refuses {failure : Error} (refused : decodeRecords bytes = .error failure) :
    IsCorrupt failure ∨ parseHeader bytes = .ok (headerOf bytes) ∧
      (headerOf bytes).compression ≠ compressionNone ∧ ∃ what, failure = .error what := by
  rcases except_bind_error refused with unparsed | ⟨header, parsed, refused⟩
  · exact .inl (parse_header_error unparsed)
  · obtain ⟨_, isHeader, _⟩ := parse_header_ok parsed
    subst isHeader
    split at refused
    · next compressed =>
      cases refused
      exact .inr ⟨parsed, compressed, _, rfl⟩
    · rcases except_bind_error refused with unsized | ⟨total, _, refused⟩
      · exact .inl (total_size_of_error unsized)
      · rcases except_bind_error refused with short | ⟨_, _, refused⟩
        · exact .inl (require_at_least_error short)
        · exact .inl (decode_records_from_refuses refused)

theorem compressed_refused {header : BatchHeader} (parsed : parseHeader bytes = .ok header)
    (compressed : header.compression ≠ compressionNone) : ∃ what, decodeRecords bytes = .error (.error what) :=
  ⟨_, by simp only [decodeRecords, parsed, except_ok_bind, if_pos compressed]; rfl⟩

def fromZero (bytes : Bytes) (records : List Record) : List LogRecord :=
  records.map (·.resolve { headerOf bytes with baseOffset := 0 })

/-- The offsets rise from zero or more, as the builder asks of them. -/
structure Appendable (records : List Record) : Prop where
  rising : records.Pairwise fun earlier later => earlier.offsetDelta < later.offsetDelta
  lower : ∀ record ∈ records, 0 ≤ record.offsetDelta

theorem from_zero_spaced (decoded : decodeRecords bytes = .ok records) (appendable : Appendable records) :
    RecordsSpaced 0 (fromZero bytes records) := by
  obtain ⟨fits, _⟩ := decode_records_ok decoded
  have offsets : ∀ record : Record,
      (record.resolve { headerOf bytes with baseOffset := 0 }).offset = record.offsetDelta :=
    fun record => Int.zero_add _
  constructor
  · apply List.Pairwise.map _ _ appendable.rising
    intro earlier later rises
    rw [offsets, offsets]
    exact rises
  · intro record member
    obtain ⟨original, inside, rfl⟩ := List.mem_map.mp member
    rw [offsets]
    exact appendable.lower original inside
  · intro record member
    obtain ⟨original, inside, rfl⟩ := List.mem_map.mp member
    have fit := (fits original inside).2
    rw [offsets, Int.sub_zero]
    exact fit
  · intro record member
    obtain ⟨original, _, rfl⟩ := List.mem_map.mp member
    exact wrap_signed_fits _

/-- What is accepted is a plain batch whose body begins with the records that were counted, each
behind the exact length of its fields, and a body of nothing else is accepted. If their offsets
rise, the records are written again, and read back with their offsets, timestamps, keys, values
and headers. What is refused is corrupt, or compressed. -/
theorem decoded_body (bytes : Bytes) :
    (∀ records, decodeRecords bytes = .ok records → (∃ rest, BatchHolds bytes records rest) ∧
      (records ≠ [] → Appendable records → ∃ builder rebuilt,
        appendEach {} (fromZero bytes records) = .ok builder ∧ builder.build = .ok rebuilt ∧
        rebuilt.length ≤ kBatchHeaderSize + 6 * (bytes.length - kBatchHeaderSize) ∧
        (rebuilt.length < 2 ^ 31 → logRecordsOf rebuilt = .ok (fromZero bytes records)))) ∧
      (∀ records, BatchHolds bytes records [] → decodeRecords bytes = .ok records) ∧
      ∀ failure, decodeRecords bytes = .error failure → (∃ what, failure = .corruptData what) ∨
        (headerOf bytes).compression ≠ compressionNone ∧ ∃ what, failure = .error what := by
  refine ⟨?_, ?_, ?_⟩
  · intro records decoded
    refine ⟨decode_records_iff.mp decoded, ?_⟩
    intro occupied appendable
    have some_record : fromZero bytes records ≠ [] := by simpa [fromZero] using occupied
    obtain ⟨builder, appended, built, bounded, _, reads⟩ :=
      appended_batch some_record (from_zero_spaced decoded appendable)
    have size := (decode_records_ok decoded).2 { headerOf bytes with baseOffset := 0 }
    refine ⟨builder, builtBytes builder, appended, built, ?_, fun small => (reads small).2.2⟩
    rw [built_length]
    exact Nat.add_le_add_left (bounded.trans size) _
  · intro records holds
    exact decode_records_iff.mpr ⟨[], holds⟩
  · intro failure refused
    rcases decode_records_refuses refused with corrupt | ⟨_, compressed, what⟩
    · exact .inl corrupt
    · exact .inr ⟨compressed, what⟩

/-- Attributes, a gap in the offsets, a time before the first and a header: what was decoded is built
anew and read back, without the attributes. -/
theorem decoded_body_sparse :
    let bytes := builtBytes
      { records := [14, 5, 6, 2, 1, 2, 9, 0, 20, 0, 1, 8, 2, 7, 1, 2, 2, 1, 1], count := 2, lastDelta := 4 }
    decodeRecords bytes = .ok [⟨1, 3, none, some [9], [], 5⟩, ⟨4, -1, some [7], none, [⟨[1], none⟩], 0⟩] ∧
      ∃ builder rebuilt, appendEach {} [⟨1, 3, none, some [9], []⟩, ⟨4, -1, some [7], none, [⟨[1], none⟩]⟩] =
          .ok builder ∧ builder.build = .ok rebuilt ∧
        logRecordsOf rebuilt = .ok [⟨1, 3, none, some [9], []⟩, ⟨4, -1, some [7], none, [⟨[1], none⟩]⟩] := by
  intro bytes
  have decoded : decodeRecords bytes =
      .ok [⟨1, 3, none, some [9], [], 5⟩, ⟨4, -1, some [7], none, [⟨[1], none⟩], 0⟩] :=
    ok_of_to_option (by decide +kernel)
  have isFromZero : fromZero bytes [⟨1, 3, none, some [9], [], 5⟩, ⟨4, -1, some [7], none, [⟨[1], none⟩], 0⟩] =
      [⟨1, 3, none, some [9], []⟩, ⟨4, -1, some [7], none, [⟨[1], none⟩]⟩] := by decide +kernel
  have appendable : Appendable [⟨1, 3, none, some [9], [], 5⟩, ⟨4, -1, some [7], none, [⟨[1], none⟩], 0⟩] :=
    ⟨by decide, by decide⟩
  obtain ⟨builder, rebuilt, appended, built, bounded, reads⟩ :=
    ((decoded_body bytes).1 _ decoded).2 (by decide) appendable
  rw [isFromZero] at appended reads
  refine ⟨decoded, builder, rebuilt, appended, built, reads ?_⟩
  have length : bytes.length = kBatchHeaderSize + 19 := built_length _
  rw [length] at bounded
  simp only [kBatchHeaderSize] at bounded
  omega

/-- What the decoder does not see to: a byte behind the last record; offsets that do not rise,
which no builder takes; and a codec, for which the bytes are not to blame. -/
theorem bodies_not_exact :
    (let bytes := builtBytes { records := [7], count := 0 }
      ∃ records, decodeRecords bytes = .ok records ∧ (headerOf bytes).recordCount = 0 ∧ bodyOf bytes = [7] ∧
        ¬ ∃ pieces, List.Forall₂ RecordPiece [] pieces ∧ bodyOf bytes = pieces.flatten) ∧
    (let bytes := builtBytes
        { records := [12, 0, 0, 6, 1, 1, 0, 12, 0, 0, 6, 1, 1, 0], count := 2, lastDelta := 0 }
      ∃ records, decodeRecords bytes = .ok records ∧ records.map (·.offsetDelta) = [3, 3] ∧
        (headerOf bytes).lastOffsetDelta = 0 ∧
        ∃ failure, appendEach {} (fromZero bytes records) = .error failure) ∧
    ∃ what, decodeRecords (builtBytes { compression := 1, records := [], count := 0 }) = .error (.error what) := by
  refine ⟨⟨[], ok_of_to_option (by decide +kernel), by decide +kernel, by decide +kernel, ?_⟩,
    ⟨[⟨3, 0, none, none, [], 0⟩, ⟨3, 0, none, none, [], 0⟩], ok_of_to_option (by decide +kernel), rfl,
      by decide +kernel, error_of_to_option (by decide +kernel)⟩,
    @compressed_refused _ (headerOf (builtBytes { compression := 1, records := [], count := 0 }))
      (ok_of_to_option (by decide +kernel)) (by decide +kernel)⟩
  rintro ⟨pieces, arePieces, isBody⟩
  cases arePieces
  have occupied : bodyOf (builtBytes { records := [7], count := 0 }) ≠ [] := by decide +kernel
  exact occupied isBody

end Batches

end Storage

end DariyaKyu

import DariyaKyu.Storage.DecodedBody

/-!
`RecordBatch::decodeRecords` with what it reserves: storage for as many records as
the header counts, then, record by record, for as many headers as the record
counts. Neither count is compared with what is left of the body before. So the
reservations stay within the body only where the counts in the bytes do.
-/

namespace DariyaKyu.Storage

set_option autoImplicit false

open PrefixCodec BufferReader

/-- A `reserve`: for how many elements, and how many bytes of the body are unread. -/
structure Reservation where
  count : Nat
  unread : Nat
  deriving DecidableEq, Repr

structure RecordFront where
  attributes : Int
  timestampDelta : Int
  offsetDelta : Int
  key : Option Bytes
  value : Option Bytes
  headerCount : Int

def readRecordFront (input : BufferReader) : Except Error (RecordFront × BufferReader) := do
  let (attributes, input) ← input.readInt8
  let (timestampDelta, input) ← input.readVarlong
  let (offsetDelta, input) ← input.readVarint
  let (key, input) ← readNullableBytes input
  let (value, input) ← readNullableBytes input
  let (headerCount, input) ← input.readVarint
  if headerCount < 0 then
    .error (.corruptData s!"record batch: negative header count {headerCount}")
  else return ({ attributes, timestampDelta, offsetDelta, key, value, headerCount }, input)

def decodeRecordReserving (index : Nat) (input : BufferReader) :
    List Reservation × Except Error (Record × BufferReader) :=
  match input.readVarint with
  | .error failure => ([], .error failure)
  | .ok (recordLength, input) =>
      if recordLength < 0 then
        ([], .error (.corruptData s!"record batch: negative record length {recordLength}"))
      else
        let recordEnd := input.position + recordLength.toNat
        match readRecordFront input with
        | .error failure => ([], .error failure)
        | .ok (front, input) =>
            ([⟨front.headerCount.toNat, input.remaining⟩], do
              let (headers, input) ← decodeRecordHeaders front.headerCount.toNat input
              if input.position ≠ recordEnd then
                .error (.corruptData s!"record batch: record {index} declared {recordLength} bytes but its fields consumed a different amount")
              else
                .ok (⟨front.offsetDelta, front.timestampDelta, front.key, front.value, headers,
                  front.attributes⟩, input))

def decodeRecordsFromReserving : Nat → Nat → BufferReader → List Reservation × Except Error (List Record)
  | 0, _, _ => ([], .ok [])
  | count + 1, index, input =>
      match decodeRecordReserving index input with
      | (made, .error failure) => (made, .error failure)
      | (made, .ok (record, input)) =>
          let (later, records) := decodeRecordsFromReserving count (index + 1) input
          (made ++ later, do
            let records ← records
            return record :: records)

def decodeRecordsReserving (bytes : Bytes) : List Reservation × Except Error (List Record) :=
  match openBody bytes with
  | .error failure => ([], .error failure)
  | .ok (count, input) =>
      let (later, records) := decodeRecordsFromReserving count 0 input
      (⟨count, input.remaining⟩ :: later, records)

section Outcomes

variable {index : Nat} {input : BufferReader}

theorem decode_record_reserving_outcome (index : Nat) (input : BufferReader) :
    (decodeRecordReserving index input).2 = decodeRecord index input := by
  rw [decode_record_eq]
  simp only [decodeRecordReserving]
  cases input.readVarint with
  | error failure => rfl
  | ok given =>
      obtain ⟨recordLength, between⟩ := given
      simp only [except_ok_bind]
      split
      · rfl
      · have fields : decodeRecordFields between = (do
            let (front, after) ← readRecordFront between
            let (headers, after) ← decodeRecordHeaders front.headerCount.toNat after
            return (⟨front.offsetDelta, front.timestampDelta, front.key, front.value, headers,
              front.attributes⟩, after)) := by
          simp only [decodeRecordFields, readRecordFront, bind_assoc, ite_bind, pure_bind]
          rfl
        rw [fields]
        cases readRecordFront between with
        | error failure => rfl
        | ok given => simp only [except_ok_bind, bind_assoc, pure_bind]

theorem decode_records_from_reserving_outcome (count index : Nat) (input : BufferReader) :
    (decodeRecordsFromReserving count index input).2 = decodeRecordsFrom count index input := by
  induction count generalizing index input with
  | zero => rfl
  | succ count ih =>
      have first := decode_record_reserving_outcome index input
      rw [decodeRecordsFromReserving, decodeRecordsFrom, ← first]
      cases decodeRecordReserving index input with
      | mk made outcome =>
          cases outcome with
          | error failure => rfl
          | ok given =>
              simp only [except_ok_bind]
              rw [← ih (index + 1) given.2]

theorem decode_records_reserving_outcome (bytes : Bytes) :
    (decodeRecordsReserving bytes).2 = decodeRecords bytes := by
  rw [decode_records_opened, decodeRecordsReserving]
  cases openBody bytes with
  | error failure => rfl
  | ok given => exact decode_records_from_reserving_outcome given.1 0 given.2

end Outcomes

/-- The beginning of a record: a length, and the fields as far as the count of the headers. -/
def FrontPiece (front : RecordFront) (piece : Bytes) : Prop :=
  ∃ recordLength length fields, piece = length ++ fields ∧ 0 ≤ recordLength ∧
    Writes readVarint recordLength length ∧ Writes readRecordFront front fields

/-- Fewer whole records than are counted and the beginning of one more; the rest comes
behind its header count. -/
def ReachesCount (count : Nat) (body : Bytes) (front : RecordFront) (rest : Bytes) : Prop :=
  ∃ (pieces : List Bytes) (piece : Bytes), pieces.length < count ∧
    (∀ whole ∈ pieces, ∃ record, RecordPiece record whole) ∧ FrontPiece front piece ∧
      body = pieces.flatten ++ (piece ++ rest)

section Fronts

variable {index : Nat} {input : BufferReader} {reservation : Reservation}

theorem read_record_front_spells : Spells IsCorrupt readRecordFront := by
  apply Spells.bind read_int8_spells
  intro attributes
  apply Spells.bind read_varlong_spells
  intro timestampDelta
  apply Spells.bind read_varint_spells
  intro offsetDelta
  apply Spells.bind read_nullable_spells
  intro key
  apply Spells.bind read_nullable_spells
  intro value
  apply Spells.bind read_varint_spells
  intro headerCount
  apply Spells.ite
  · exact Spells.fail (corrupt_data _)
  · exact Spells.ok _

/-- A turn reserves once it has read the count of the headers, and only then. -/
theorem mem_record_reserving : reservation ∈ (decodeRecordReserving index input).1 ↔
    ∃ front piece rest, FrontPiece front piece ∧ input.rest = piece ++ rest ∧
      reservation = ⟨front.headerCount.toNat, rest.length⟩ := by
  constructor
  · intro made
    simp only [decodeRecordReserving] at made
    cases isLength : input.readVarint with
    | error failure =>
        rw [isLength] at made
        cases made
    | ok given =>
        obtain ⟨recordLength, between⟩ := given
        rw [isLength] at made
        simp only at made
        split at made
        · cases made
        · next known =>
          cases isFront : readRecordFront between with
          | error failure =>
              rw [isFront] at made
              cases made
          | ok given =>
              obtain ⟨front, after⟩ := given
              rw [isFront] at made
              obtain ⟨length, isRest, _, writesLength⟩ := read_varint_spells.spelled isLength
              obtain ⟨fields, isBetween, _, writesFront⟩ := read_record_front_spells.spelled isFront
              simp only [Reader.unread] at isRest isBetween
              refine ⟨front, length ++ fields, after.rest,
                ⟨recordLength, length, fields, rfl, not_lt.mp known, writesLength, writesFront⟩, ?_,
                List.mem_singleton.mp made⟩
              rw [isRest, isBetween, List.append_assoc]
  · rintro ⟨front, _, rest, ⟨recordLength, length, fields, rfl, known, writesLength, writesFront⟩, isInput, rfl⟩
    rw [List.append_assoc] at isInput
    obtain ⟨between, isLength, isBetween⟩ := writesLength input _ isInput
    obtain ⟨after, isFront, isAfter⟩ := writesFront between _ isBetween
    simp only [Reader.unread] at isAfter
    simp only [decodeRecordReserving, isLength, if_neg (not_lt.mpr known), isFront, remaining, isAfter,
      List.mem_singleton]

theorem reaches_count_succ {count : Nat} {body rest : Bytes} {front : RecordFront} :
    ReachesCount (count + 1) body front rest ↔ (∃ piece, FrontPiece front piece ∧ body = piece ++ rest) ∨
      ∃ whole record later, RecordPiece record whole ∧ body = whole ++ later ∧
        ReachesCount count later front rest := by
  constructor
  · rintro ⟨pieces, piece, fewer, wholes, isFront, isBody⟩
    cases pieces with
    | nil => exact .inl ⟨piece, isFront, isBody⟩
    | cons whole pieces =>
        obtain ⟨⟨record, isRecord⟩, others⟩ := List.forall_mem_cons.mp wholes
        rw [List.flatten_cons, List.append_assoc] at isBody
        exact .inr ⟨whole, record, _, isRecord, isBody, pieces, piece, Nat.lt_of_succ_lt_succ fewer, others,
          isFront, rfl⟩
  · rintro (⟨piece, isFront, isBody⟩ | ⟨whole, record, later, isRecord, isBody, pieces, piece, fewer, others,
      isFront, isLater⟩)
    · exact ⟨[], piece, Nat.succ_pos count, List.forall_mem_nil _, isFront, isBody⟩
    · refine ⟨whole :: pieces, piece, Nat.succ_lt_succ fewer, List.forall_mem_cons.mpr ⟨⟨record, isRecord⟩, others⟩,
        isFront, ?_⟩
      rw [isBody, isLater, List.flatten_cons, List.append_assoc]

theorem mem_records_reserving_succ {count : Nat} :
    reservation ∈ (decodeRecordsFromReserving (count + 1) index input).1 ↔
      reservation ∈ (decodeRecordReserving index input).1 ∨ ∃ record after,
        decodeRecord index input = .ok (record, after) ∧
          reservation ∈ (decodeRecordsFromReserving count (index + 1) after).1 := by
  have outcome := decode_record_reserving_outcome index input
  rw [decodeRecordsFromReserving, ← outcome]
  cases decodeRecordReserving index input with
  | mk made outcome =>
      cases outcome with
      | error failure => simp
      | ok given =>
          obtain ⟨record, after⟩ := given
          simp

theorem mem_records_reserving {count : Nat} :
    reservation ∈ (decodeRecordsFromReserving count index input).1 ↔ ∃ front rest,
      ReachesCount count input.rest front rest ∧ reservation = ⟨front.headerCount.toNat, rest.length⟩ := by
  induction count generalizing index input with
  | zero =>
      constructor
      · intro made
        cases made
      · rintro ⟨_, _, ⟨_, _, fewer, _⟩, _⟩
        cases fewer
  | succ count ih =>
      simp only [mem_records_reserving_succ, mem_record_reserving, ih, reaches_count_succ]
      constructor
      · rintro (⟨front, piece, rest, isFront, isInput, isMade⟩ | ⟨record, after, decoded, front, rest, later, isMade⟩)
        · exact ⟨front, rest, .inl ⟨piece, isFront, isInput⟩, isMade⟩
        · obtain ⟨whole, isRecord, isInput, _⟩ := decode_record_iff.mp decoded
          exact ⟨front, rest, .inr ⟨whole, record, after.rest, isRecord, isInput, later⟩, isMade⟩
      · rintro ⟨front, rest, ⟨piece, isFront, isInput⟩ | ⟨whole, record, later, isRecord, isInput, reaches⟩, isMade⟩
        · exact .inl ⟨front, piece, rest, isFront, isInput, isMade⟩
        · exact .inr ⟨record, ⟨input.position + whole.length, later⟩,
            decode_record_iff.mpr ⟨whole, isRecord, isInput, rfl⟩, front, rest, reaches, isMade⟩

end Fronts

section Batches

variable {bytes : Bytes}

/-- The counts that stand in the bytes are possible: there are no more records than bytes in the
body, and wherever a count of headers is reached, no more headers than bytes behind it. -/
structure CountsPossible (bytes : Bytes) : Prop where
  records : (headerOf bytes).recordCount ≤ (bodyOf bytes).length
  headers : ∀ front rest, ReachesCount (headerOf bytes).recordCount.toNat (bodyOf bytes) front rest →
    front.headerCount ≤ rest.length

theorem mem_reserving {reservation : Reservation} : reservation ∈ (decodeRecordsReserving bytes).1 ↔
    PlainBatch bytes ∧ (reservation = ⟨(headerOf bytes).recordCount.toNat, (bodyOf bytes).length⟩ ∨
      ∃ front rest, ReachesCount (headerOf bytes).recordCount.toNat (bodyOf bytes) front rest ∧
        reservation = ⟨front.headerCount.toNat, rest.length⟩) := by
  cases isOpen : openBody bytes with
  | error failure =>
      rw [decodeRecordsReserving, isOpen]
      constructor
      · intro made
        cases made
      · rintro ⟨opened, _⟩
        rw [open_body_iff.mpr ⟨opened, rfl, rfl⟩] at isOpen
        cases isOpen
  | ok given =>
      obtain ⟨count, input⟩ := given
      obtain ⟨opened, rfl, rfl⟩ := open_body_iff.mp isOpen
      simp only [decodeRecordsReserving, isOpen, List.mem_cons, mem_records_reserving, remaining, ofBytes, opened,
        true_and]

/-- `decodeRecords` reserves nothing that the body could not hold if and only if the batch is refused
before anything is reserved, or the counts in it are possible. -/
theorem reservations_within_body (bytes : Bytes) :
    (decodeRecordsReserving bytes).2 = decodeRecords bytes ∧
      ((∀ reservation ∈ (decodeRecordsReserving bytes).1, reservation.count ≤ reservation.unread) ↔
        (PlainBatch bytes → CountsPossible bytes)) := by
  refine ⟨decode_records_reserving_outcome bytes, ?_⟩
  constructor
  · intro within opened
    constructor
    · have atMost := within _ (mem_reserving.mpr ⟨opened, .inl rfl⟩)
      simp only at atMost
      omega
    · intro front rest reaches
      have atMost := within _ (mem_reserving.mpr ⟨opened, .inr ⟨front, rest, reaches, rfl⟩⟩)
      simp only at atMost
      omega
  · intro possible reservation made
    obtain ⟨opened, rfl | ⟨front, rest, reaches, rfl⟩⟩ := mem_reserving.mp made
    · have atMost := (possible opened).records
      simp only
      omega
    · have atMost := (possible opened).headers front rest reaches
      simp only
      omega

theorem built_body (builder : RecordBatchBuilder) (fits : HeaderFits builder) :
    PlainBatch (builtBytes builder) ∧ bodyOf (builtBytes builder) = builder.records := by
  have header := header_of_built builder fits
  have sized := total_size_of_built builder fits
  have declared := total_size_of_declares sized
  constructor
  · refine ⟨by rw [header]; exact parse_header_built builder fits, ?_, _, sized, le_rfl⟩
    rw [header]
    simp [BatchHeader.compression, asUnsigned, compressionNone]
  · rw [bodyOf, ← declared, built_drop_records, built_length, Nat.add_sub_cancel_left, List.take_length]

/-- A checksum does not vouch for a count: a header that counts records of which there are none, and a
record that counts headers of which there are none. -/
theorem impossible_counts_reserved :
    (let bytes := builtBytes { records := [], count := 2 ^ 31 - 1, lastDelta := 2 ^ 31 - 2 };
      verifyCrc bytes = .ok true ∧ ⟨2 ^ 31 - 1, 0⟩ ∈ (decodeRecordsReserving bytes).1) ∧
    (let bytes := builtBytes
        { records := [20, 0, 0, 0, 1, 1, 254, 255, 255, 255, 15], count := 1, lastDelta := 0 };
      verifyCrc bytes = .ok true ∧ ⟨2 ^ 31 - 1, 0⟩ ∈ (decodeRecordsReserving bytes).1) := by
  constructor
  · have fits : HeaderFits { records := [], count := 2 ^ 31 - 1, lastDelta := 2 ^ 31 - 2 } := by
      constructor <;> decide
    obtain ⟨plain, body⟩ := built_body _ fits
    refine ⟨verify_crc_built _ fits, mem_reserving.mpr ⟨plain, .inl ?_⟩⟩
    rw [body, header_of_built _ fits]
    rfl
  · have fits : HeaderFits
        { records := [20, 0, 0, 0, 1, 1, 254, 255, 255, 255, 15], count := 1, lastDelta := 0 } := by
      constructor <;> decide
    exact ⟨verify_crc_built _ fits, by decide +kernel⟩

end Batches

end DariyaKyu.Storage

import DariyaKyu.Storage.BatchCodec

/-!
The builder against the parser, at the sizes the format itself allows. The
caller appends records with their offset deltas one by one; whatever the broker
later stamps into the header, and in whatever order, the batch still checks and
decodes to the same records.
-/

namespace DariyaKyu.Storage

set_option autoImplicit false

/-- The `appendAt` calls of a caller that has records and their offset deltas at hand. -/
def appendEach : RecordBatchBuilder → List LogRecord → Except Error RecordBatchBuilder
  | builder, [] => .ok builder
  | builder, record :: records => do
      let builder ← builder.appendAt record.offset record.timestamp record.key record.value
        record.headers
      appendEach builder records

/-- A fresh builder takes every record; each costs at least a byte, and at most its bound. -/
theorem append_each_carries {builder : RecordBatchBuilder} {before records : List LogRecord}
    (carries : BuilderCarries 0 builder before) (spaced : RecordsSpaced 0 (before ++ records)) :
    ∃ next, appendEach builder records = .ok next ∧
      builder.records.length + records.length ≤ next.records.length ∧
      next.records.length ≤ builder.records.length + (records.map recordBound).sum ∧
      BuilderCarries 0 next (before ++ records) := by
  induction records generalizing builder before with
  | nil => exact ⟨builder, rfl, by simp, by simp, by simpa using carries⟩
  | cons record records ih =>
      have rest : RecordsSpaced 0 ((before ++ [record]) ++ records) := by simpa using spaced
      obtain ⟨next, appended, grown, atMost, nextCarries⟩ :=
        append_at_carries carries (rest.sublist (List.sublist_append_left _ _))
      obtain ⟨final, finished, longer, bounded, finalCarries⟩ := ih nextCarries rest
      rw [Int.sub_zero] at appended
      refine ⟨final, by simp [appendEach, appended, finished], ?_, ?_, by simpa using finalCarries⟩
      · simp only [List.length_cons]
        omega
      · simp only [List.map_cons, List.sum_cons]
        omega

/-- What is built of records that were appended one by one reads back as these records. -/
theorem appended_batch {records : List LogRecord} (occupied : records ≠ []) (spaced : RecordsSpaced 0 records) :
    ∃ builder, appendEach {} records = .ok builder ∧ builder.build = .ok (builtBytes builder) ∧
      builder.records.length ≤ (records.map recordBound).sum ∧ BuilderCarries 0 builder records ∧
      ((builtBytes builder).length < 2 ^ 31 → HeaderFits builder ∧
        decodeRecords (builtBytes builder) = .ok (records.map (·.relative 0 builder.firstTimestamp)) ∧
        logRecordsOf (builtBytes builder) = .ok records) := by
  obtain ⟨builder, appended, room, bounded, carries⟩ :=
    @append_each_carries _ [] records (builder_holds_fresh 0).carries spaced
  simp only [List.nil_append] at carries
  have count : builder.count ≠ 0 := by
    rw [carries.count]
    simpa using occupied
  refine ⟨builder, appended, build_eq builder count, by simpa using bounded, carries, ?_⟩
  intro small
  rw [built_length] at small
  have fits := carried_header_fits carries spaced occupied small (by omega)
  have body := carries.body (by omega)
  have decoded := decode_records_built builder fits _ (by simp [carries.count]) body
  refine ⟨fits, decoded, ?_⟩
  simp only [logRecordsOf, parse_header_built builder fits, decoded, except_ok_bind, List.map_map]
  exact congrArg Except.ok (resolved_relative spaced.timestamps rfl rfl)

theorem built_well_formed {builder : RecordBatchBuilder} {records : List LogRecord}
    (holds : BuilderHolds 0 builder records) (fit : RecordsFit 0 records) (occupied : records ≠ []) :
    WellFormedBatch (builtBytes builder) records := by
  have formed := build_stamped_well_formed holds fit occupied (by decide)
  have same : stamped (builtBytes builder) 0 = builtBytes builder := by
    simp only [stamped, builtBytes, List.append_assoc]
    rw [List.drop_left' (by simp [writeInt64, writeInt])]
  rwa [same] at formed

/-- `other` is `bytes` with these two header fields and nothing else written anew. -/
structure Restamped (bytes other : Bytes) (base epoch : Int) : Prop where
  length : other.length = bytes.length
  header : headerOf other =
    { headerOf bytes with baseOffset := base, partitionLeaderEpoch := epoch }
  behind : other.drop 16 = bytes.drop 16

theorem Restamped.refl (bytes : Bytes) :
    Restamped bytes bytes (headerOf bytes).baseOffset (headerOf bytes).partitionLeaderEpoch :=
  ⟨rfl, rfl, rfl⟩

theorem Restamped.drop {bytes other : Bytes} {base epoch : Int}
    (restamped : Restamped bytes other base epoch) (position : Nat) (behind : 16 ≤ position) :
    other.drop position = bytes.drop position := by
  obtain ⟨distance, rfl⟩ := Nat.exists_eq_add_of_le behind
  rw [← List.drop_drop, restamped.behind, List.drop_drop]

/-- The two fields lie ahead of the checksum and of everything it covers. -/
theorem Restamped.reads {bytes other : Bytes} {base epoch : Int} {header : BatchHeader}
    (restamped : Restamped bytes other base epoch) (parsed : parseHeader bytes = .ok header) :
    parseHeader other = .ok { header with baseOffset := base, partitionLeaderEpoch := epoch } ∧
      totalSizeOf other = totalSizeOf bytes ∧ verifyCrc other = verifyCrc bytes ∧
      decodeRecords other = decodeRecords bytes := by
  obtain ⟨long, same, magic, count, length⟩ := parse_header_ok parsed
  subst same
  have otherLong : kBatchHeaderSize ≤ other.length := by rw [restamped.length]; exact long
  have notNegative : ¬ (headerOf bytes).recordCount < 0 := by omega
  have notNegativeLength : ¬ (headerOf bytes).batchLength < 0 := by omega
  have reparsed : parseHeader other = .ok (headerOf other) := by
    rw [parse_header_eq other otherLong, restamped.header]
    simp [magic, notNegative, notNegativeLength]
  have total : totalSizeOf other = totalSizeOf bytes := by
    unfold kBatchHeaderSize at long otherLong
    rw [total_size_of_eq other (by unfold kBytesBeforeBatchLengthCounted; omega),
      total_size_of_eq bytes (by unfold kBytesBeforeBatchLengthCounted; omega), restamped.header]
  have crc : computeCrc other = computeCrc bytes := by
    simp only [computeCrc, total, requireAtLeast, restamped.length,
      restamped.drop kCrcCoverageStart (by decide)]
  rw [restamped.header] at reparsed
  refine ⟨reparsed, total, ?_, ?_⟩
  · simp only [verifyCrc, reparsed, parsed, except_ok_bind, crc]
  · simp only [decodeRecords, reparsed, parsed, except_ok_bind, BatchHeader.compression, total,
      requireAtLeast, restamped.length, restamped.drop kBatchHeaderSize (by decide)]
    rfl

/-- The two values the broker may write into a batch it did not build. -/
inductive Stamp where
  | baseOffset (value : Int)
  | leaderEpoch (value : Int)
  deriving DecidableEq, Repr

namespace Stamp

def apply (bytes : Bytes) : Stamp → Except Error Bytes
  | .baseOffset value => stampBaseOffset bytes value
  | .leaderEpoch value => stampLeaderEpoch bytes value

def onHeader (header : BatchHeader) : Stamp → BatchHeader
  | .baseOffset value => { header with baseOffset := value }
  | .leaderEpoch value => { header with partitionLeaderEpoch := value }

def Typed : Stamp → Prop
  | .baseOffset value => FitsSigned 64 value
  | .leaderEpoch value => FitsSigned 32 value

end Stamp

/-- The fields before the epoch are those of the front, the later ones those of the back. -/
theorem header_of_epoch_stamped (bytes : Bytes) (epoch : Int) (fits : FitsSigned 32 epoch)
    (long : kBatchHeaderSize ≤ bytes.length) :
    headerOf (bytes.take 12 ++ writeInt32 epoch ++ bytes.drop 16) =
      { headerOf bytes with partitionLeaderEpoch := epoch } := by
  unfold kBatchHeaderSize at long
  have front : (bytes.take 12).length = 12 := by simp; omega
  have width : (writeInt32 epoch).length = 4 := by simp [writeInt32, writeInt]
  have middle : (bytes.take 12 ++ writeInt32 epoch).length = 16 := by simp [front, width]
  have earlier : ∀ bits position, position + bits / 8 ≤ 12 →
      fieldNat bits position (bytes.take 12 ++ writeInt32 epoch ++ bytes.drop 16) =
        fieldNat bits position bytes := by
    intro bits position within
    rw [List.append_assoc, field_nat_append bits position _ _ (by omega),
      ← field_nat_append bits position (bytes.take 12) (bytes.drop 12) (by omega),
      List.take_append_drop]
  have later : ∀ bits position, 16 ≤ position →
      fieldNat bits position (bytes.take 12 ++ writeInt32 epoch ++ bytes.drop 16) =
        fieldNat bits position bytes := by
    intro bits position behind
    obtain ⟨distance, rfl⟩ := Nat.exists_eq_add_of_le behind
    have same : (bytes.take 12 ++ writeInt32 epoch ++ bytes.drop 16).drop (16 + distance) =
        bytes.drop (16 + distance) := by
      rw [← List.drop_drop, List.drop_left' middle, List.drop_drop]
    rw [fieldNat, same, fieldNat]
  have written : fieldInt 32 12 (bytes.take 12 ++ writeInt32 epoch ++ bytes.drop 16) = epoch := by
    have slice : ((bytes.take 12 ++ writeInt32 epoch ++ bytes.drop 16).drop 12).take (32 / 8) =
        writeInt32 epoch := by
      rw [List.append_assoc, List.drop_left' front, List.take_left' (by simpa using width)]
    have small := as_unsigned_lt 32 epoch
    have whole : (256 : Nat) ^ (32 / 8) = 2 ^ 32 := by norm_num
    rw [fieldInt, fieldNat, slice, writeInt32, writeInt, be_nat_be_bytes, whole,
      Nat.mod_eq_of_lt small]
    exact as_signed_as_unsigned 32 (by norm_num) epoch fits
  simp only [headerOf, written]
  simp (disch := omega) only [fieldInt, earlier, later]

/-- One more stamp: it is taken, and the batch still differs in the two fields only. -/
theorem stamp_restamps {bytes other : Bytes} {base epoch : Int} (long : kBatchHeaderSize ≤ bytes.length)
    (restamped : Restamped bytes other base epoch) (stamp : Stamp) (typed : stamp.Typed) :
    ∃ next newBase newEpoch, stamp.apply other = .ok next ∧
      Restamped bytes next newBase newEpoch ∧ headerOf next = stamp.onHeader (headerOf other) := by
  have otherLong : kBatchHeaderSize ≤ other.length := by rw [restamped.length]; exact long
  cases stamp with
  | baseOffset value =>
      have header := header_of_stamped_in_range other value typed
      refine ⟨stamped other value, value, epoch, stamp_base_offset_eq other value otherLong, ?_, header⟩
      refine ⟨by rw [stamped_length other value otherLong, restamped.length], ?_, ?_⟩
      · rw [header, restamped.header]
      · rw [stamped_drop other value 16 (by norm_num), restamped.behind]
  | leaderEpoch value =>
      have header := header_of_epoch_stamped other value typed otherLong
      have notShort : ¬ other.length < kBatchHeaderSize := by omega
      have width : (writeInt32 value).length = 4 := by simp [writeInt32, writeInt]
      unfold kBatchHeaderSize at otherLong
      have front : (other.take 12 ++ writeInt32 value).length = 16 := by simp [width]; omega
      refine ⟨other.take 12 ++ writeInt32 value ++ other.drop 16, base, value, ?_, ?_, header⟩
      · simp [Stamp.apply, stampLeaderEpoch, requireAtLeast, notShort, pure, Except.pure]
      · refine ⟨?_, ?_, ?_⟩
        · rw [List.length_append, front, List.length_drop, ← restamped.length]
          omega
        · rw [header, restamped.header]
        · rw [List.drop_left' front, restamped.behind]

theorem stamps_restamp {bytes other : Bytes} {base epoch : Int} (long : kBatchHeaderSize ≤ bytes.length)
    (restamped : Restamped bytes other base epoch) (stamps : List Stamp)
    (typed : ∀ stamp ∈ stamps, stamp.Typed) :
    ∃ next newBase newEpoch, stamps.foldlM Stamp.apply other = .ok next ∧
      Restamped bytes next newBase newEpoch ∧
      headerOf next = stamps.foldl Stamp.onHeader (headerOf other) := by
  induction stamps generalizing other base epoch with
  | nil => exact ⟨other, base, epoch, rfl, restamped, rfl⟩
  | cons stamp stamps ih =>
      obtain ⟨isFirst, isRest⟩ := List.forall_mem_cons.mp typed
      obtain ⟨middle, middleBase, middleEpoch, applied, kept, header⟩ :=
        stamp_restamps long restamped stamp isFirst
      obtain ⟨next, newBase, newEpoch, done, nextKept, nextHeader⟩ := ih kept isRest
      refine ⟨next, newBase, newEpoch, ?_, nextKept, ?_⟩
      · rw [List.foldlM_cons, applied]
        exact done
      · rw [nextHeader, header, List.foldl_cons]

/-- Appending records one by one and building gives a batch that reads back as
these records under a header that counts and spans them; the checksum and the
records stay what they are whatever is stamped afterwards. -/
theorem builder_round_trip (records : List LogRecord) (occupied : records ≠ [])
    (spaced : RecordsSpaced 0 records) :
    ∃ builder bytes, appendEach {} records = .ok builder ∧ builder.build = .ok bytes ∧
      (bytes.length < 2 ^ 31 → ∃ header, parseHeader bytes = .ok header ∧
        decodeRecords bytes = .ok (records.map (·.relative 0 header.firstTimestamp)) ∧
        logRecordsOf bytes = .ok records ∧ header.recordCount = records.length ∧
        some header.lastOffsetDelta = records.getLast?.map (·.offset) ∧
        some header.firstTimestamp = records.head?.map (·.timestamp) ∧
        some header.maxTimestamp = (records.map (·.timestamp)).max? ∧
        totalSizeOf bytes = .ok bytes.length ∧ verifyCrc bytes = .ok true ∧
        ∀ stamps : List Stamp, (∀ stamp ∈ stamps, stamp.Typed) →
          ∃ other, stamps.foldlM Stamp.apply bytes = .ok other ∧
            parseHeader other = .ok (stamps.foldl Stamp.onHeader header) ∧
            decodeRecords other = decodeRecords bytes ∧ totalSizeOf other = .ok bytes.length ∧
            verifyCrc other = .ok true) := by
  obtain ⟨builder, appended, built, _, carries, reads⟩ := appended_batch occupied spaced
  refine ⟨builder, builtBytes builder, appended, built, ?_⟩
  intro small
  obtain ⟨fits, decoded, recordsBack⟩ := reads small
  have parsed := parse_header_built builder fits
  have header := header_of_built builder fits
  have long : kBatchHeaderSize ≤ (builtBytes builder).length := by
    rw [built_length]
    omega
  refine ⟨_, parsed, decoded, recordsBack, ?_, ?_, ?_, ?_, total_size_of_built builder fits,
    verify_crc_built builder fits, ?_⟩
  · simp [carries.count]
  · have last := List.getLast?_eq_getLast_of_ne_nil occupied
    rw [last, Option.map_some, carries.lastDelta _ last, Int.sub_zero]
  · have first := List.head?_eq_some_head occupied
    rw [first, Option.map_some, carries.first _ first]
  · exact carries.newest_max occupied
  · intro stamps typed
    obtain ⟨other, base, epoch, done, restamped, isHeader⟩ :=
      stamps_restamp long (Restamped.refl _) stamps typed
    obtain ⟨reparsed, total, crc, redecoded⟩ := restamped.reads parsed
    refine ⟨other, done, ?_, redecoded, ?_, ?_⟩
    · rw [reparsed, ← header, ← isHeader, restamped.header]
    · rw [total, total_size_of_built builder fits]
    · rw [crc, verify_crc_built builder fits]

/-- A null key beside an empty value, a gap in the offsets and a clock that ran back. -/
def sparseRecords : List LogRecord :=
  [⟨0, 9, none, some [], [⟨[1], none⟩]⟩, ⟨3, 4, some [7], none, []⟩]

theorem builder_round_trip_sparse :
    ∃ builder bytes, appendEach {} sparseRecords = .ok builder ∧ builder.build = .ok bytes ∧
      decodeRecords bytes = .ok (sparseRecords.map (·.relative 0 9)) ∧
      ∃ other, [Stamp.leaderEpoch 7, .baseOffset 40].foldlM Stamp.apply bytes = .ok other ∧
        verifyCrc other = .ok true := by
  have spaced : RecordsSpaced 0 sparseRecords :=
    ⟨by decide, by decide, by decide, by decide⟩
  obtain ⟨builder, bytes, appended, built, reads⟩ :=
    builder_round_trip sparseRecords (by decide) spaced
  have size : (appendEach {} sparseRecords >>= (·.build)).toOption.map List.length = some 79 := by
    decide +kernel
  simp only [appended, except_ok_bind, built, Except.toOption, Option.map_some,
    Option.some.injEq] at size
  obtain ⟨header, _, decoded, _, _, _, first, _, _, _, stamps⟩ := reads (by omega)
  simp only [sparseRecords, List.head?_cons, Option.map_some, Option.some.injEq] at first
  rw [first] at decoded
  obtain ⟨other, done, _, _, _, checked⟩ := stamps [.leaderEpoch 7, .baseOffset 40] (by
    intro stamp member
    simp only [List.mem_cons, List.not_mem_nil, or_false] at member
    rcases member with rfl | rfl
    · exact (by decide : FitsSigned 32 7)
    · exact (by decide : FitsSigned 64 40))
  exact ⟨builder, bytes, appended, built, decoded, other, done, checked⟩

end DariyaKyu.Storage

import DariyaKyu.Protocol.WireCodec
import DariyaKyu.Storage.PartitionMeta

/-!
`partition.meta` read the other way: a file that is accepted holds what would be
written for what was read from it, so that writing it again changes nothing. A
file of version 1 holds the same fields but the last two, which are the defaults.
-/

namespace DariyaKyu.Storage

set_option autoImplicit false

open PrefixCodec BufferReader

def metaFields (written : PartitionMeta) : Bytes :=
  writeInt16 (asSigned 16 (written.tp.topic.length % 2 ^ 16)) ++ written.tp.topic ++
    writeInt32 written.tp.partition ++
    writeInt64 (asInt64 written.config.roll.maxSegmentBytes) ++
    writeInt64 written.config.roll.maxSegmentAgeMs ++
    writeInt64 (asInt64 written.config.roll.indexIntervalBytes) ++
    writeInt64 (asInt64 written.config.roll.maxIndexBytes) ++
    writeInt64 written.config.retention.retentionMs ++
    writeInt64 (limitToField written.config.retention.retentionBytes) ++
    writeInt64 written.config.retention.segmentDeleteDelayMs

theorem encode_partition_meta_fields (written : PartitionMeta) :
    encodePartitionMeta written = writeUint32 kMetaMagic ++ writeInt16 kMetaVersion ++ metaFields written ++
      writeInt8 written.config.cleanup.code ++ writeInt64 written.config.compaction.deleteRetentionMs := by
  simp only [encodePartitionMeta, metaFields, List.append_assoc]

def readCleanup (version : Int) (input : BufferReader) :
    Except Error ((CleanupPolicy × CompactionPolicy) × BufferReader) :=
  if version < 2 then .ok ((.delete, {}), input)
  else do
    let (cleanup, input) ← input.readInt8
    if cleanup ≠ 0 ∧ cleanup ≠ 1 then
      .error (.corruptData s!"partition.meta: cleanup policy {cleanup}")
    else do
      let (deleteRetentionMs, input) ← input.readInt64
      return ((if cleanup = 0 then .delete else .compact, { deleteRetentionMs }), input)

/-- `decodePartitionMeta` up to the bytes behind the last field. -/
def readMetaFields (input : BufferReader) : Except Error (PartitionMeta × BufferReader) := do
  let (magic, input) ← input.readUint32
  if magic ≠ kMetaMagic then
    .error (.corruptData s!"partition.meta: magic {magic}, expected {kMetaMagic} — this is not a partition.meta")
  else do
    let (version, input) ← input.readInt16
    if kMetaVersion < version ∨ version < kOldestReadable then
      .error (.corruptData s!"partition.meta: version {version}, this build understands {kOldestReadable}..{kMetaVersion}")
    else do
      let (topicLength, input) ← input.readInt16
      if topicLength ≤ 0 then
        .error (.corruptData s!"partition.meta: topic name length {topicLength}")
      else do
        let (topic, input) ← input.readBytes topicLength.toNat
        let (partition, input) ← input.readInt32
        if partition < 0 then
          .error (.corruptData s!"partition.meta: partition {partition}")
        else do
          let (maxSegmentBytes, input) ← input.readInt64
          let (maxSegmentAgeMs, input) ← input.readInt64
          let (indexIntervalBytes, input) ← input.readInt64
          let (maxIndexBytes, input) ← input.readInt64
          let (retentionMs, input) ← input.readInt64
          let (retentionBytes, input) ← input.readInt64
          let (segmentDeleteDelayMs, input) ← input.readInt64
          let (cleaned, input) ← readCleanup version input
          return (
            { tp := { topic, partition }
              config :=
                { roll :=
                    { maxSegmentBytes := asUnsigned 64 maxSegmentBytes
                      maxSegmentAgeMs
                      indexIntervalBytes := asUnsigned 64 indexIntervalBytes
                      maxIndexBytes := asUnsigned 64 maxIndexBytes }
                  retention :=
                    { retentionMs
                      retentionBytes := limitOfField retentionBytes
                      segmentDeleteDelayMs }
                  compaction := cleaned.2
                  cleanup := cleaned.1 } }, input)

def metaTrailing (input : BufferReader) : Error :=
  .corruptData s!"partition.meta: {input.remaining} unexpected trailing byte(s)"

theorem decode_cleanup_read (version : Int) (input : BufferReader) :
    decodeCleanup version input = readCleanup version input >>= fun given => .ok (given.1.1, given.1.2, given.2) := by
  simp only [decodeCleanup, readCleanup, bind_assoc, pure_bind, ite_bind, except_error_bind]
  rfl

theorem decode_partition_meta_whole (bytes : Bytes) :
    decodePartitionMeta bytes = whole readMetaFields metaTrailing (.ofBytes bytes) := by
  simp only [decodePartitionMeta, whole, readMetaFields, decode_cleanup_read, bind_assoc, pure_bind, ite_bind,
    except_error_bind, except_ok_bind]
  rfl

theorem cleanup_reads (version : Int) : Reads IsCorrupt (readCleanup version) := by
  apply Reads.ite
  · exact Reads.ok _
  · apply Reads.bind (read_int_reads 8)
    intro cleanup
    apply Reads.ite
    · exact Reads.fail (corrupt_data _)
    · apply Reads.bind (read_int_reads 64)
      intro deleteRetentionMs
      exact Reads.ok _

theorem meta_fields_reads : Reads IsCorrupt readMetaFields := by
  apply Reads.bind (read_uint_reads 32)
  intro magic
  apply Reads.ite
  · exact Reads.fail (corrupt_data _)
  apply Reads.bind (read_int_reads 16)
  intro version
  apply Reads.ite
  · exact Reads.fail (corrupt_data _)
  apply Reads.bind (read_int_reads 16)
  intro topicLength
  apply Reads.ite
  · exact Reads.fail (corrupt_data _)
  apply Reads.bind (read_bytes_reads _)
  intro topic
  apply Reads.bind (read_int_reads 32)
  intro partition
  apply Reads.ite
  · exact Reads.fail (corrupt_data _)
  apply Reads.bind (read_int_reads 64)
  intro maxSegmentBytes
  apply Reads.bind (read_int_reads 64)
  intro maxSegmentAgeMs
  apply Reads.bind (read_int_reads 64)
  intro indexIntervalBytes
  apply Reads.bind (read_int_reads 64)
  intro maxIndexBytes
  apply Reads.bind (read_int_reads 64)
  intro retentionMs
  apply Reads.bind (read_int_reads 64)
  intro retentionBytes
  apply Reads.bind (read_int_reads 64)
  intro segmentDeleteDelayMs
  apply Reads.bind (cleanup_reads _)
  intro cleaned
  exact Reads.ok _

theorem meta_taken_exactly {bytes : Bytes} {read : PartitionMeta} (decoded : decodePartitionMeta bytes = .ok read) :
    TakenExactly decodePartitionMeta bytes := by
  rw [funext decode_partition_meta_whole] at decoded ⊢
  exact accepted_taken_exactly (fun _ => corrupt_data _) meta_fields_reads decoded

/-- What stands behind the fields of both versions. -/
structure CleanupStored (version : Int) (read : PartitionMeta) (bytes : Bytes) : Prop where
  current : version = kMetaVersion →
    bytes = writeInt8 read.config.cleanup.code ++ writeInt64 read.config.compaction.deleteRetentionMs
  oldest : version = kOldestReadable → bytes = [] ∧ read.config.cleanup = .delete ∧ read.config.compaction = {}

theorem cleanup_taken {version : Int} {input after : BufferReader} {cleanup : CleanupPolicy}
    {compaction : CompactionPolicy} (known : version = kMetaVersion ∨ version = kOldestReadable)
    (read : readCleanup version input = .ok ((cleanup, compaction), after)) :
    ∃ bytes, input.rest = bytes ++ after.rest ∧
      (version = kMetaVersion → bytes = writeInt8 cleanup.code ++ writeInt64 compaction.deleteRetentionMs) ∧
      (version = kOldestReadable → bytes = [] ∧ cleanup = .delete ∧ compaction = {}) := by
  unfold readCleanup at read
  rcases known with rfl | rfl
  · rw [if_neg (by decide)] at read
    obtain ⟨⟨code, between⟩, isCode, read⟩ := except_bind_ok read
    simp only at read
    split at read
    · cases read
    next isKnown =>
    obtain ⟨⟨deleteRetentionMs, behind⟩, isRetention, read⟩ := except_bind_ok read
    cases read
    have front := read_int_taken ⟨1, rfl⟩ isCode
    have last := read_int_taken ⟨8, rfl⟩ isRetention
    refine ⟨writeInt8 code ++ writeInt64 deleteRetentionMs, ?_, ?_, fun other => absurd other (by decide)⟩
    · rw [front, last, List.append_assoc]
      rfl
    · intro _
      have kept : (if code = 0 then CleanupPolicy.delete else .compact).code = code := by
        split
        · next isZero => exact isZero.symm
        · next notZero =>
          have isOne : code = 1 := by
            by_contra notOne
            exact isKnown ⟨notZero, notOne⟩
          exact isOne.symm
      rw [kept]
  · rw [if_pos (by decide)] at read
    cases read
    exact ⟨[], rfl, fun other => absurd other (by decide), fun _ => ⟨rfl, rfl, rfl⟩⟩

theorem as_int64_as_unsigned {field : Int} (fits : FitsSigned 64 field) : asInt64 (asUnsigned 64 field) = field := by
  rw [asInt64, Nat.mod_eq_of_lt (as_unsigned_lt 64 field)]
  exact as_signed_as_unsigned 64 (by decide) field fits

theorem limit_to_field_of_field {field : Int} (fits : FitsSigned 64 field) :
    limitToField (limitOfField field) = field := by
  unfold limitOfField
  split
  · next unlimited => exact unlimited.symm
  · exact as_int64_as_unsigned fits

theorem meta_fields_taken {input after : BufferReader} {read : PartitionMeta}
    (decoded : readMetaFields input = .ok (read, after)) :
    ∃ version bytes, (version = kMetaVersion ∨ version = kOldestReadable) ∧
      input.rest = writeUint32 kMetaMagic ++ writeInt16 version ++ metaFields read ++ bytes ++ after.rest ∧
      CleanupStored version read bytes := by
  obtain ⟨⟨magic, input⟩, isMagic, decoded⟩ := except_bind_ok decoded
  simp only at decoded
  split at decoded
  · cases decoded
  next rightMagic =>
  obtain rfl := not_not.mp rightMagic
  obtain ⟨⟨version, input⟩, isVersion, decoded⟩ := except_bind_ok decoded
  simp only at decoded
  split at decoded
  · cases decoded
  next readable =>
  obtain ⟨⟨topicLength, input⟩, isLength, decoded⟩ := except_bind_ok decoded
  simp only at decoded
  split at decoded
  · cases decoded
  next named =>
  obtain ⟨⟨topic, input⟩, isTopic, decoded⟩ := except_bind_ok decoded
  obtain ⟨⟨partition, input⟩, isPartition, decoded⟩ := except_bind_ok decoded
  simp only at decoded
  split at decoded
  · cases decoded
  obtain ⟨⟨maxSegmentBytes, input⟩, isSegment, decoded⟩ := except_bind_ok decoded
  obtain ⟨⟨maxSegmentAgeMs, input⟩, isAge, decoded⟩ := except_bind_ok decoded
  obtain ⟨⟨indexIntervalBytes, input⟩, isInterval, decoded⟩ := except_bind_ok decoded
  obtain ⟨⟨maxIndexBytes, input⟩, isIndex, decoded⟩ := except_bind_ok decoded
  obtain ⟨⟨retentionMs, input⟩, isRetention, decoded⟩ := except_bind_ok decoded
  obtain ⟨⟨retentionBytes, input⟩, isLimit, decoded⟩ := except_bind_ok decoded
  obtain ⟨⟨segmentDeleteDelayMs, input⟩, isDelay, decoded⟩ := except_bind_ok decoded
  obtain ⟨⟨⟨cleanup, compaction⟩, input⟩, isCleanup, decoded⟩ := except_bind_ok decoded
  cases decoded
  have known : version = kMetaVersion ∨ version = kOldestReadable := by
    unfold kMetaVersion kOldestReadable at readable ⊢
    omega
  obtain ⟨bytes, frontCleanup, current, oldest⟩ := cleanup_taken known isCleanup
  obtain ⟨frontTopic, isLong, _⟩ := read_bytes_ok isTopic
  have short := read_int_fits ⟨2, rfl⟩ (by decide) isLength
  have fits : ∀ {value : Int} {before behind : BufferReader},
      before.readInt64 = .ok (value, behind) → FitsSigned 64 value :=
    fun isRead => read_int_fits ⟨8, rfl⟩ (by decide) isRead
  have lengthIs : asSigned 16 (topic.length % 2 ^ 16) = topicLength := by
    unfold FitsSigned at short
    unfold asSigned
    split <;> omega
  refine ⟨version, bytes, known, ?_, ⟨current, oldest⟩⟩
  simp only [metaFields, lengthIs, as_int64_as_unsigned (fits isSegment), as_int64_as_unsigned (fits isInterval),
    as_int64_as_unsigned (fits isIndex), limit_to_field_of_field (fits isLimit), List.append_assoc]
  rw [← frontCleanup, (read_uint_taken ⟨4, rfl⟩ isMagic).2, read_int_taken ⟨2, rfl⟩ isVersion,
    read_int_taken ⟨2, rfl⟩ isLength, frontTopic, read_int_taken ⟨4, rfl⟩ isPartition,
    read_int_taken ⟨8, rfl⟩ isSegment, read_int_taken ⟨8, rfl⟩ isAge, read_int_taken ⟨8, rfl⟩ isInterval,
    read_int_taken ⟨8, rfl⟩ isIndex, read_int_taken ⟨8, rfl⟩ isRetention, read_int_taken ⟨8, rfl⟩ isLimit,
    read_int_taken ⟨8, rfl⟩ isDelay]
  rfl

def metaVersion (bytes : Bytes) : Int := asSigned 16 (beNat ((bytes.drop 4).take 2))

theorem meta_version_written {version : Int} (fits : FitsSigned 16 version) (rest : Bytes) :
    metaVersion (writeUint32 kMetaMagic ++ writeInt16 version ++ rest) = version := by
  have magic : (writeUint32 kMetaMagic).length = 4 := be_bytes_length _ _
  have width : (writeInt16 version).length = 2 := be_bytes_length _ _
  rw [metaVersion, List.append_assoc, ← magic, List.drop_left, ← width, List.take_left, writeInt16, writeInt,
    be_nat_be_bytes]
  have bound := as_unsigned_lt 16 version
  rw [Nat.mod_eq_of_lt (by simpa using bound)]
  exact as_signed_as_unsigned 16 (by decide) version fits

theorem reloaded_limited {config : LogConfig} (fits : config.Storable)
    (limited : config.retention.retentionBytes ≠ some (2 ^ 64 - 1)) : config.reloaded = config := by
  have same := limit_of_field_to_field fits.retentionBytes
  rw [if_neg limited] at same
  rw [LogConfig.reloaded, same]

/-- A configuration has one file, and a file one configuration. -/
theorem partition_meta_canonical :
    (∀ written : PartitionMeta, StorableName written.tp → written.config.Storable →
      written.config.retention.retentionBytes ≠ some (2 ^ 64 - 1) →
        decodePartitionMeta (encodePartitionMeta written) = .ok written ∧
          TakenExactly decodePartitionMeta (encodePartitionMeta written)) ∧
    ∀ bytes read, decodePartitionMeta bytes = .ok read →
      (metaVersion bytes = 2 → encodePartitionMeta read = bytes) ∧
      (metaVersion bytes = 1 → bytes = writeUint32 kMetaMagic ++ writeInt16 1 ++ metaFields read ∧
        read.config.cleanup = .delete ∧ read.config.compaction = {}) := by
  constructor
  · intro written named fits limited
    have decoded := decode_partition_meta_encode written named fits
    rw [reloaded_limited fits limited] at decoded
    exact ⟨decoded, meta_taken_exactly decoded⟩
  · intro bytes read decoded
    rw [decode_partition_meta_whole] at decoded
    obtain ⟨after, taken, nothing⟩ := whole_ok_iff.mp decoded
    obtain ⟨version, behind, known, shape, stored⟩ := meta_fields_taken taken
    simp only [Reader.unread] at nothing
    rw [nothing, List.append_nil] at shape
    have isBytes : bytes = writeUint32 kMetaMagic ++ writeInt16 version ++ metaFields read ++ behind := shape
    have fitsVersion : FitsSigned 16 version := by
      rcases known with rfl | rfl
      · decide
      · decide
    have isVersion : metaVersion bytes = version := by
      rw [isBytes, List.append_assoc _ (metaFields read)]
      exact meta_version_written fitsVersion _
    rw [isVersion]
    constructor
    · rintro rfl
      rw [isBytes, stored.current rfl, encode_partition_meta_fields]
      simp only [List.append_assoc]
      rfl
    · rintro rfl
      obtain ⟨isEmpty, isDelete, isDefault⟩ := stored.oldest rfl
      rw [isEmpty, List.append_nil] at isBytes
      exact ⟨isBytes, isDelete, isDefault⟩

/-- A partition with all defaults, kept in the file of either version. -/
theorem partition_meta_canonical_default :
    let written : PartitionMeta := ⟨⟨[116], 0⟩, {}⟩
    decodePartitionMeta (encodePartitionMeta written) = .ok written ∧
      TakenExactly decodePartitionMeta (encodePartitionMeta written) :=
  partition_meta_canonical.1 _ ⟨by decide, by decide, by decide, by decide⟩
    ⟨by decide, by decide, by decide, by decide, by decide, by simp, by decide, by decide⟩ (by decide)

end DariyaKyu.Storage

import DariyaKyu.Common.Buffer
import DariyaKyu.Storage.Segment

/-!
The rules a partition runs with (`storage/log.hpp`) and the file that keeps
them across a restart (`storage/partition_meta.cpp`). The unsigned sizes go
through the signed 64-bit fields of the file by a cast in each direction.
-/

namespace DariyaKyu.Storage

set_option autoImplicit false

open BufferReader

structure RetentionPolicy where
  retentionMs : Int := 7 * 24 * 60 * 60 * 1000
  retentionBytes : Option Nat := none
  segmentDeleteDelayMs : Int := 60000
  deriving DecidableEq, Repr

inductive CleanupPolicy where
  | delete
  | compact
  deriving DecidableEq, Repr

structure CompactionPolicy where
  deleteRetentionMs : Int := 24 * 60 * 60 * 1000
  deriving DecidableEq, Repr

structure LogConfig where
  roll : RollPolicy := {}
  retention : RetentionPolicy := {}
  compaction : CompactionPolicy := {}
  cleanup : CleanupPolicy := .delete
  deriving DecidableEq, Repr

def LogConfig.compacted (config : LogConfig) : Bool := config.cleanup == .compact

structure PartitionMeta where
  tp : TopicPartition
  config : LogConfig
  deriving DecidableEq, Repr

def kUnlimitedBytes : Int := -1
def kMetaVersion : Int := 2
def kOldestReadable : Int := 1
def kMetaMagic : Nat := 0x444B504D

def CleanupPolicy.code : CleanupPolicy → Int
  | .delete => 0
  | .compact => 1

def asInt64 (value : Nat) : Int := asSigned 64 (value % 2 ^ 64)

/-- The one place the optional becomes a sentinel, and its mirror. -/
def limitToField : Option Nat → Int
  | some limit => asInt64 limit
  | none => kUnlimitedBytes

def limitOfField (field : Int) : Option Nat :=
  if field = kUnlimitedBytes then none else some (asUnsigned 64 field)

def encodePartitionMeta (written : PartitionMeta) : Bytes :=
  writeUint32 kMetaMagic ++ writeInt16 kMetaVersion ++
    writeInt16 (asSigned 16 (written.tp.topic.length % 2 ^ 16)) ++ written.tp.topic ++
    writeInt32 written.tp.partition ++
    writeInt64 (asInt64 written.config.roll.maxSegmentBytes) ++
    writeInt64 written.config.roll.maxSegmentAgeMs ++
    writeInt64 (asInt64 written.config.roll.indexIntervalBytes) ++
    writeInt64 (asInt64 written.config.roll.maxIndexBytes) ++
    writeInt64 written.config.retention.retentionMs ++
    writeInt64 (limitToField written.config.retention.retentionBytes) ++
    writeInt64 written.config.retention.segmentDeleteDelayMs ++
    writeInt8 written.config.cleanup.code ++
    writeInt64 written.config.compaction.deleteRetentionMs

/-- The two fields a version 1 file does not have. -/
def decodeCleanup (version : Int) (input : BufferReader) :
    Except Error (CleanupPolicy × CompactionPolicy × BufferReader) :=
  if version < 2 then .ok (.delete, {}, input)
  else do
    let (cleanup, input) ← input.readInt8
    if cleanup ≠ 0 ∧ cleanup ≠ 1 then
      .error (.corruptData s!"partition.meta: cleanup policy {cleanup}")
    else do
      let (deleteRetentionMs, input) ← input.readInt64
      return (if cleanup = 0 then .delete else .compact, { deleteRetentionMs }, input)

def decodePartitionMeta (bytes : Bytes) : Except Error PartitionMeta := do
  let (magic, input) ← (BufferReader.ofBytes bytes).readUint32
  if magic ≠ kMetaMagic then
    .error (.corruptData s!"partition.meta: magic {magic}, expected {kMetaMagic} — this is not a partition.meta")
  else do
    let (version, input) ← input.readInt16
    if kMetaVersion < version ∨ version < kOldestReadable then
      .error (.corruptData s!"partition.meta: version {version}, this build understands {kOldestReadable}..{kMetaVersion}")
    else do
      let (topicLength, input) ← input.readInt16
      if topicLength ≤ 0 then
        .error (.corruptData s!"partition.meta: topic name length {topicLength}")
      else do
        let (topic, input) ← input.readBytes topicLength.toNat
        let (partition, input) ← input.readInt32
        if partition < 0 then
          .error (.corruptData s!"partition.meta: partition {partition}")
        else do
          let (maxSegmentBytes, input) ← input.readInt64
          let (maxSegmentAgeMs, input) ← input.readInt64
          let (indexIntervalBytes, input) ← input.readInt64
          let (maxIndexBytes, input) ← input.readInt64
          let (retentionMs, input) ← input.readInt64
          let (retentionBytes, input) ← input.readInt64
          let (segmentDeleteDelayMs, input) ← input.readInt64
          let (cleanup, compaction, input) ← decodeCleanup version input
          if input.isEmpty then
            .ok
              { tp := { topic, partition }
                config :=
                  { roll :=
                      { maxSegmentBytes := asUnsigned 64 maxSegmentBytes
                        maxSegmentAgeMs
                        indexIntervalBytes := asUnsigned 64 indexIntervalBytes
                        maxIndexBytes := asUnsigned 64 maxIndexBytes }
                    retention :=
                      { retentionMs
                        retentionBytes := limitOfField retentionBytes
                        segmentDeleteDelayMs }
                    compaction, cleanup } }
          else
            .error (.corruptData s!"partition.meta: {input.remaining} unexpected trailing byte(s)")

/-- Values the fields of `LogConfig` can hold. -/
structure LogConfig.Storable (config : LogConfig) : Prop where
  maxSegmentBytes : config.roll.maxSegmentBytes < 2 ^ 64
  maxSegmentAgeMs : FitsSigned 64 config.roll.maxSegmentAgeMs
  indexIntervalBytes : config.roll.indexIntervalBytes < 2 ^ 64
  maxIndexBytes : config.roll.maxIndexBytes < 2 ^ 64
  retentionMs : FitsSigned 64 config.retention.retentionMs
  retentionBytes : ∀ limit ∈ config.retention.retentionBytes, limit < 2 ^ 64
  segmentDeleteDelayMs : FitsSigned 64 config.retention.segmentDeleteDelayMs
  deleteRetentionMs : FitsSigned 64 config.compaction.deleteRetentionMs

/-- The configuration a reopened partition runs with: the same one, except that
the largest byte limit is written as the sentinel and comes back as no limit. -/
def LogConfig.reloaded (config : LogConfig) : LogConfig :=
  { config with
    retention := { config.retention with
      retentionBytes := limitOfField (limitToField config.retention.retentionBytes) } }

/-- A partition whose name fits the file: not empty, at most an int16 of bytes,
and not negative. `LogManager` admits no other. -/
structure StorableName (tp : TopicPartition) : Prop where
  named : 0 < tp.topic.length
  short : tp.topic.length < 2 ^ 15
  numbered : 0 ≤ tp.partition
  bounded : tp.partition < 2 ^ 31

theorem as_int64_fits (value : Nat) : FitsSigned 64 (asInt64 value) :=
  as_signed_fits 64 _ (by norm_num) (Nat.mod_lt _ (by norm_num))

theorem as_unsigned_as_int64 {value : Nat} (small : value < 2 ^ 64) :
    asUnsigned 64 (asInt64 value) = value := by
  unfold asUnsigned asInt64 asSigned
  split <;> omega

theorem limit_to_field_fits (limit : Option Nat) : FitsSigned 64 (limitToField limit) := by
  cases limit with
  | none => decide
  | some limit => exact as_int64_fits limit

theorem limit_of_field_to_field {limit : Option Nat} (small : ∀ bytes ∈ limit, bytes < 2 ^ 64) :
    limitOfField (limitToField limit) = if limit = some (2 ^ 64 - 1) then none else limit := by
  cases limit with
  | none => rfl
  | some bytes =>
      have bound := small bytes rfl
      rw [limitToField, limitOfField, as_unsigned_as_int64 bound]
      by_cases sentinel : bytes = 2 ^ 64 - 1
      · subst sentinel
        decide
      · have notSentinel : asInt64 bytes ≠ kUnlimitedBytes := by
          unfold asInt64 asSigned kUnlimitedBytes
          split <;> omega
        rw [if_neg notSentinel, if_neg (by simpa using sentinel)]

theorem reloaded_reloaded {config : LogConfig} (fits : config.Storable) :
    config.reloaded.reloaded = config.reloaded := by
  have once := limit_of_field_to_field fits.retentionBytes
  unfold LogConfig.reloaded
  simp only [once]
  split
  · rfl
  · next limited =>
    rw [once, if_neg limited]

theorem decode_partition_meta_encode (written : PartitionMeta) (named : StorableName written.tp)
    (fits : written.config.Storable) :
    decodePartitionMeta (encodePartitionMeta written) =
      .ok { written with config := written.config.reloaded } := by
  obtain ⟨⟨topic, partition⟩, ⟨⟨maxSegmentBytes, maxSegmentAgeMs, indexIntervalBytes, maxIndexBytes⟩,
    ⟨retentionMs, retentionBytes, segmentDeleteDelayMs⟩, ⟨deleteRetentionMs⟩, cleanup⟩⟩ := written
  obtain ⟨occupied, short, numbered, bounded⟩ := named
  simp only at occupied short numbered bounded
  have lengthIs : asSigned 16 (topic.length % 2 ^ 16) = topic.length := by
    unfold asSigned
    rw [if_pos] <;> omega
  have lengthFits : FitsSigned 16 (topic.length : Int) := by
    unfold FitsSigned
    omega
  have partitionFits : FitsSigned 32 partition := by
    unfold FitsSigned
    omega
  have magicRead : ∀ rest : Bytes, BufferReader.readUint 32 ⟨0, writeUint32 kMetaMagic ++ rest⟩ =
      .ok (kMetaMagic, ⟨4, rest⟩) := by
    intro rest
    rw [BufferReader.read_uint_of_le 32 _ (by simp [writeUint32])]
    simp [writeUint32, be_nat_be_bytes, kMetaMagic]
  have cleanupFits : FitsSigned 8 cleanup.code := by cases cleanup <;> decide
  have known : ¬ (kMetaVersion < kMetaVersion ∨ kMetaVersion < kOldestReadable) := by decide
  have current : ¬ kMetaVersion < 2 := by decide
  have codeKnown : ¬ (cleanup.code ≠ 0 ∧ cleanup.code ≠ 1) := by cases cleanup <;> decide
  have notEmpty : ¬ (topic.length : Int) ≤ 0 := by omega
  have notNegative : ¬ partition < 0 := by omega
  simp only [decodePartitionMeta, encodePartitionMeta, BufferReader.ofBytes, List.append_assoc,
    BufferReader.readUint32, BufferReader.readInt8, BufferReader.readInt16, BufferReader.readInt32,
    BufferReader.readInt64, decodeCleanup, writeInt8, writeInt16, writeInt32, writeInt64, lengthIs]
  rw [magicRead, except_ok_bind, if_neg (by simp),
    read_int_write_int 16 _ (by norm_num) (by norm_num) kMetaVersion (by decide), except_ok_bind]
  simp only [known, if_false]
  rw [read_int_write_int 16 _ (by norm_num) (by norm_num) _ lengthFits, except_ok_bind]
  simp only [notEmpty, if_false, Int.toNat_natCast]
  rw [read_bytes_append, except_ok_bind,
    read_int_write_int 32 _ (by norm_num) (by norm_num) _ partitionFits, except_ok_bind]
  simp only [notNegative, if_false]
  rw [read_int_write_int 64 _ (by norm_num) (by norm_num) _ (as_int64_fits _), except_ok_bind,
    read_int_write_int 64 _ (by norm_num) (by norm_num) _ fits.maxSegmentAgeMs, except_ok_bind,
    read_int_write_int 64 _ (by norm_num) (by norm_num) _ (as_int64_fits _), except_ok_bind,
    read_int_write_int 64 _ (by norm_num) (by norm_num) _ (as_int64_fits _), except_ok_bind,
    read_int_write_int 64 _ (by norm_num) (by norm_num) _ fits.retentionMs, except_ok_bind,
    read_int_write_int 64 _ (by norm_num) (by norm_num) _ (limit_to_field_fits _), except_ok_bind,
    read_int_write_int 64 _ (by norm_num) (by norm_num) _ fits.segmentDeleteDelayMs, except_ok_bind]
  simp only [current, if_false]
  rw [read_int_write_int 8 _ (by norm_num) (by norm_num) _ cleanupFits, except_ok_bind]
  simp only [codeKnown, if_false]
  rw [← List.append_nil (writeInt 64 deleteRetentionMs),
    read_int_write_int 64 _ (by norm_num) (by norm_num) _ fits.deleteRetentionMs]
  simp only [except_ok_bind, pure, Except.pure, BufferReader.isEmpty, List.isEmpty_nil, if_true,
    LogConfig.reloaded, as_unsigned_as_int64 fits.maxSegmentBytes,
    as_unsigned_as_int64 fits.indexIntervalBytes, as_unsigned_as_int64 fits.maxIndexBytes]
  cases cleanup <;> rfl

end DariyaKyu.Storage

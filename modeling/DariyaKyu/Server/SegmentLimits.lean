import DariyaKyu.Server.TopicCreation
import DariyaKyu.Storage.IndexLimits

/-!
What the segment size a client may ask for does to the index. Every positive
size is accepted as it is; a segment that may grow past 4 GiB is one whose index
cannot say where its batches are, and the append that finds out throws.
-/

namespace DariyaKyu.Server

set_option autoImplicit false

open Storage

section Filler

structure FillerBatch (bytes : Bytes) : Prop where
  built : ∃ records, BuiltFrom records bytes
  size : bytes.length = 2 ^ 20
  parsed : parseHeader bytes = .ok (headerOf bytes)
  single : (headerOf bytes).lastOffsetDelta = 0

theorem filler_batch_of {value : Bytes} (size : value.length = 1048504) :
    ∃ bytes, FillerBatch bytes := by
  have valueLength : encodeVarint (1048504 : Nat) = .ok [240, 254, 127] := by decide +kernel
  have recordLength : encodeVarint (1048512 : Nat) = .ok [128, 255, 127] := by decide +kernel
  have timestamp : encodeVarlong 0 = .ok [0] := by decide +kernel
  have zero : encodeVarint 0 = .ok [0] := by decide +kernel
  have null : encodeVarint kNullLength = .ok [1] := by decide +kernel
  have fields : encodeRecordFields 0 0 none (some value) [] =
      .ok (writeInt8 0 ++ [0] ++ [0] ++ [1] ++ ([240, 254, 127] ++ value) ++ [0] ++ []) := by
    simp only [encodeRecordFields, writeNullableBytes, timestamp, zero, null, size, valueLength,
      encodeRecordHeaders, except_ok_bind, List.length_nil, Nat.cast_zero]
    rfl
  have width : (writeInt8 0 ++ [0] ++ [0] ++ [1] ++ ([240, 254, 127] ++ value) ++ [0] ++ []).length = 1048512 := by
    simp [writeInt8, writeInt, size]
  generalize writeInt8 0 ++ [0] ++ [0] ++ [1] ++ ([240, 254, 127] ++ value) ++ [0] ++ [] = encoded at fields width
  let builder : RecordBatchBuilder := { records := [128, 255, 127] ++ encoded, count := 1, lastDelta := 0 }
  have taken : ({} : RecordBatchBuilder).append 0 none (some value) [] = .ok builder := by
    simp only [RecordBatchBuilder.append, RecordBatchBuilder.appendAt, if_true, Int.sub_self, Nat.cast_zero, fields,
      except_ok_bind, width, recordLength, List.nil_append]
    rfl
  have long : builder.records.length = 1048515 := by simp [builder, width]
  have fits : HeaderFits builder :=
    ⟨rfl, by rw [long]; decide, (by decide : (1 : Int) < 2 ^ 31), (by decide : FitsSigned 32 0),
      (by decide : FitsSigned 64 0), (by decide : FitsSigned 64 0)⟩
  refine ⟨builtBytes builder, ⟨[⟨0, none, some value, []⟩], (by decide : 1 < 2 ^ 31), compressionNone, builder, ?_,
    build_eq builder Nat.one_ne_zero⟩, ?_, ?_, ?_⟩
  · simp only [appendProduced, taken, except_ok_bind]
  · rw [built_length, long]
    rfl
  · rw [parse_header_built builder fits, header_of_built builder fits]
  · rw [header_of_built builder fits]

/-- A log that took in this many filler batches and has one segment yet. -/
structure Filled (config : LogConfig) (count : Nat) (log : Log) : Prop where
  holds : LogNumbered log
  sameConfig : log.config = config
  base : log.active.baseOffset = 0
  next : log.active.nextOffset = count
  size : log.active.sizeBytes = count * 2 ^ 20
  since : 0 < count → 2 ^ 20 ≤ log.active.bytesSinceIndexEntry
  entries : log.active.index.entries.length ≤ count
  capacity : log.active.index.maxEntries = config.roll.maxIndexBytes / kEntrySize
  begun : log.active.firstAppendMs = if count = 0 then -1 else 0

theorem filled_none {tp : TopicPartition} {dir : String} {config : LogConfig} {log : Log}
    (created : Log.create tp dir config = .ok log) : Filled config 0 log := by
  obtain ⟨holds, same⟩ := create_numbered created
  unfold Log.create at created
  obtain ⟨active, fresh, made⟩ := except_bind_ok created
  cases Except.ok.inj made
  obtain ⟨_, _, base, next, size, entries, capacity, _, begun⟩ := numbered_fresh fresh
  exact ⟨holds, same, base, next, size, nofun, by simp [Log.ofSegments, entries], capacity, begun⟩

variable {config : LogConfig} {count : Nat} {log : Log} {bytes : Bytes}

/-- The clock stands one millisecond below the age at which the segment rolls. -/
theorem filled_stays (filled : Filled config count log) (wide : 2 ^ 32 < config.roll.maxSegmentBytes)
    (capacity : config.roll.maxIndexBytes = 10485760) (bound : count ≤ 4096) :
    log.maybeRoll (config.roll.maxSegmentAgeMs - 1) = .returned () log := by
  have stays : log.active.shouldRoll (config.roll.maxSegmentAgeMs - 1) = false := by
    have policy : log.active.policy = config.roll := by rw [filled.holds.policy, filled.sameConfig]
    have size := filled.size
    have entries := filled.entries
    have room := filled.capacity
    have next := filled.next
    have base := filled.base
    unfold ActiveSegment.shouldRoll
    by_cases empty : log.active.isEmpty = true
    · exact if_pos empty
    have occupied : 0 < count := by
      simp only [SegmentBase.isEmpty, next, base, beq_iff_eq, Nat.cast_eq_zero] at empty
      omega
    have index : log.active.index.isFull = false := by
      simp only [OffsetIndex.isFull, room, capacity, kEntrySize, decide_eq_false_iff_not]
      omega
    rw [if_neg empty, if_neg (by rw [policy]; omega), if_neg (by simp [index]), policy,
      filled.begun, if_neg (by omega)]
    simp
  unfold Log.maybeRoll
  rw [if_pos stays]

theorem filled_more (filled : Filled config count log) (filler : FillerBatch bytes)
    (interval : config.roll.indexIntervalBytes = 4096) (capacity : config.roll.maxIndexBytes = 10485760)
    (wide : 2 ^ 32 < config.roll.maxSegmentBytes) (bound : count < 4096) :
    ∃ next, Log.step (.append bytes (config.roll.maxSegmentAgeMs - 1) 0 none) log = some next ∧
      Filled config (count + 1) next := by
  have policy : log.active.policy = config.roll := by rw [filled.holds.policy, filled.sameConfig]
  have size := filled.size
  have small : log.active.sizeBytes ≤ kMaxUint32 := by
    rw [size]
    unfold kMaxUint32
    omega
  have range : FitsSigned 64 log.active.nextOffset := by
    rw [filled.next]
    unfold FitsSigned
    omega
  have long : kBatchHeaderSize ≤ bytes.length := by
    rw [filler.size]
    decide
  have header := header_of_stamped_in_range bytes log.active.nextOffset range
  have reparsed := parse_header_stamped log.active.nextOffset filler.parsed
  have starts : (headerOf (stamped bytes log.active.nextOffset)).baseOffset = log.active.nextOffset := by rw [header]
  obtain ⟨state, step, numbered, room, entries, since⟩ := index_step_numbered filled.holds.active
    (by rw [policy, interval]; decide) (fun _ => small)
  have added : log.active.maybeAddIndexEntry log.active.nextOffset log.active.log.size =
      .ok (log.active.withIndex state) := maybe_add_index_entry_ok.mpr ⟨state, step, rfl⟩
  have delta : (headerOf (stamped bytes log.active.nextOffset)).lastOffsetDelta = 0 := by
    rw [header]
    exact filler.single
  have length : (stamped bytes log.active.nextOffset).length = 2 ^ 20 := (stamped_length _ _ long).trans filler.size
  have next : lastOf (stamped bytes log.active.nextOffset) + 1 = (count + 1 : Nat) := by
    unfold lastOf BatchHeader.lastOffset
    rw [delta, starts, filled.next]
    omega
  let after : ActiveSegment := { log.active.withIndex state with
    log := (log.active.log.append (stamped bytes log.active.nextOffset) none).1
    bytesSinceIndexEntry := state.since + (stamped bytes log.active.nextOffset).length
    firstAppendMs := if log.active.firstAppendMs < 0 then 0 else log.active.firstAppendMs
    largestTimestamp := max log.active.largestTimestamp (timestampOf (stamped bytes log.active.nextOffset))
    nextOffset := lastOf (stamped bytes log.active.nextOffset) + 1 }
  have written : Numbered after := @numbered_written (log.active.withIndex state) numbered
    (stamped bytes log.active.nextOffset) _ _ (by rw [delta]) (by rw [delta, length]; decide) starts
  refine ⟨{ log with active := after, logEndOffset := after.nextOffset, highWatermark := after.nextOffset }, ?_, ?_⟩
  · simp only [Log.step, Log.append, filled_stays filled wide capacity (by omega), filled.holds.ends,
      stamp_base_offset_eq bytes _ long, ActiveSegment.append, reparsed, starts, ne_eq, not_true_eq_false,
      if_false, added]
    rfl
  constructor
  · exact ⟨written, filled.holds.policy, rfl, filled.holds.sealedNarrow⟩
  · exact filled.sameConfig
  · exact filled.base
  · exact next
  · have grown : after.sizeBytes = log.active.sizeBytes + (stamped bytes log.active.nextOffset).length := rfl
    rw [grown, size, length]
    ring
  · intro _
    simp only [after, length]
    omega
  · have before := filled.entries
    exact entries.trans (by omega)
  · exact room.trans filled.capacity
  · simp only [after, filled.begun]
    by_cases none : count = 0 <;> simp [none]

theorem filled_breaks (filled : Filled config 4096 log) (filler : FillerBatch bytes)
    (interval : config.roll.indexIntervalBytes = 4096) (capacity : config.roll.maxIndexBytes = 10485760)
    (wide : 2 ^ 32 < config.roll.maxSegmentBytes) :
    (log.append bytes (config.roll.maxSegmentAgeMs - 1) 0 none).violates = true := by
  have policy : log.active.policy = config.roll := by rw [filled.holds.policy, filled.sameConfig]
  have size : log.active.log.size = 4096 * 2 ^ 20 := filled.size
  have since := filled.since (by decide)
  have range : FitsSigned 64 log.active.nextOffset := by
    rw [filled.next]
    decide
  have long : kBatchHeaderSize ≤ bytes.length := by
    rw [filler.size]
    decide
  have header := header_of_stamped_in_range bytes log.active.nextOffset range
  have reparsed := parse_header_stamped log.active.nextOffset filler.parsed
  have starts : (headerOf (stamped bytes log.active.nextOffset)).baseOffset = log.active.nextOffset := by rw [header]
  have due : ¬ log.active.bytesSinceIndexEntry < log.active.policy.indexIntervalBytes := by
    rw [policy, interval]
    omega
  have placed : ¬ log.active.log.size = 0 := by omega
  have far : kMaxUint32 < log.active.log.size := by
    rw [size]
    decide
  simp only [Log.append, filled_stays filled wide capacity le_rfl, filled.holds.ends,
    stamp_base_offset_eq bytes _ long, ActiveSegment.append, reparsed, starts, ne_eq, not_true_eq_false, if_false,
    ActiveSegment.maybeAddIndexEntry, due, placed, far, if_true]
  rfl

theorem filled_reaches {start : Log} (initial : Filled config 0 start) (filler : FillerBatch bytes)
    (interval : config.roll.indexIntervalBytes = 4096) (capacity : config.roll.maxIndexBytes = 10485760)
    (wide : 2 ^ 32 < config.roll.maxSegmentBytes) (count : Nat) (bound : count ≤ 4096) :
    ∃ log, GuardedRun.Reaches Log.step Log.AppendsBuilt start log ∧ Filled config count log := by
  induction count with
  | zero => exact ⟨start, .start, initial⟩
  | succ count ih =>
      obtain ⟨log, reached, filled⟩ := ih (by omega)
      obtain ⟨next, taken, more⟩ := filled_more filled filler interval capacity wide (by omega)
      have range : FitsSigned 64 log.logEndOffset := by
        rw [filled.holds.ends, filled.next]
        unfold FitsSigned
        omega
      have admitted : log.AppendsBuilt (.append bytes (config.roll.maxSegmentAgeMs - 1) 0 none) :=
        ⟨filler.built, range⟩
      exact ⟨next, reached.step _ admitted taken, more⟩

theorem wide_segments_break {tp : TopicPartition} {dir : String} {start : Log}
    (created : Log.create tp dir config = .ok start) (interval : config.roll.indexIntervalBytes = 4096)
    (capacity : config.roll.maxIndexBytes = 10485760) (wide : 2 ^ 32 < config.roll.maxSegmentBytes) :
    ∃ log, GuardedRun.Reaches Log.step Log.AppendsBuilt start log ∧ ¬ log.InLimits := by
  obtain ⟨bytes, filler⟩ := filler_batch_of (List.length_replicate : (List.replicate 1048504 (0 : UInt8)).length = _)
  obtain ⟨log, reached, filled⟩ := filled_reaches (filled_none created) filler interval capacity wide 4096 le_rfl
  refine ⟨log, reached, ?_⟩
  intro limits
  obtain ⟨records, built⟩ := filler.built
  have range : FitsSigned 64 log.logEndOffset := by
    rw [filled.holds.ends, filled.next]
    decide
  have unbroken := limits.unbroken records bytes built range (config.roll.maxSegmentAgeMs - 1) 0 none
  rw [filled_breaks filled filler interval capacity wide] at unbroken
  cases unbroken

end Filler

/-- With the interval and the index of the broker, appends to a topic stay
within its index exactly when its segments roll at 4 GiB or before. -/
theorem accepted_segments_in_limits {asked : TopicRequest} {defaults : LogConfig}
    (interval : defaults.roll.indexIntervalBytes = 4096) (capacity : defaults.roll.maxIndexBytes = 10485760)
    {tp : TopicPartition} {dir : String} {log : Log}
    (created : Log.create tp dir (asked.config defaults) = .ok log) :
    (∀ next, GuardedRun.Reaches Log.step Log.AppendsBuilt log next → next.InLimits) ↔
      (asked.config defaults).roll.maxSegmentBytes ≤ 2 ^ 32 := by
  constructor
  · intro all
    apply Nat.le_of_not_lt
    intro wide
    obtain ⟨next, reached, broken⟩ := wide_segments_break created interval capacity wide
    exact broken (all next reached)
  · intro bounded next reached
    have positive : 0 < defaults.roll.indexIntervalBytes := by
      rw [interval]
      decide
    exact appends_in_limits created positive bounded reached

def segmentsOf (maxSegmentBytes : Int) : TopicRequest where
  name := [116]
  partitionCount := 1
  maxSegmentBytes := some maxSegmentBytes

theorem accepted_segments_in_limits_default :
    ∃ log, Log.create ⟨[116], 0⟩ "data/t-0" ((segmentsOf 4294967296).config {}) = .ok log ∧
      ∀ next, GuardedRun.Reaches Log.step Log.AppendsBuilt log next → next.InLimits := by
  refine ⟨_, rfl, ?_⟩
  exact (@accepted_segments_in_limits (segmentsOf 4294967296) {} rfl rfl ⟨[116], 0⟩ "data/t-0" _ rfl).mpr (by decide)

/-- Segments of 5 GiB are accepted, and the 4097th mebibyte does not go in. -/
theorem five_gib_segments_break :
    (createTopic ⟨⟨"data", {}, [], []⟩, fun _ => none⟩ (segmentsOf 5368709120) faultless).2 = .none ∧
      ∃ log, Log.create ⟨[116], 0⟩ "data/t-0" ((segmentsOf 5368709120).config {}) = .ok log ∧
        ¬ ∀ next, GuardedRun.Reaches Log.step Log.AppendsBuilt log next → next.InLimits := by
  refine ⟨by decide, _, rfl, ?_⟩
  intro all
  obtain ⟨next, reached, broken⟩ := @wide_segments_break ((segmentsOf 5368709120).config {}) ⟨[116], 0⟩ "data/t-0" _
    rfl rfl rfl (by decide)
  exact broken (all next reached)

end DariyaKyu.Server

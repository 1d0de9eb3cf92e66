import DariyaKyu.Storage.BatchRoundTrip
import DariyaKyu.Storage.LogRuns

/-!
The three limits of an index entry. A position and a relative offset have 32
bits each, and an append of a batch whose entry does not fit throws. What keeps a
log below both is the roll check alone: a segment that is appended to has not
reached the size at which it rolls, and it holds no more records than bytes.
-/

namespace DariyaKyu.Storage

set_option autoImplicit false

open FrameWalk

def breaksInvariant : Error → Bool
  | .offsetInvariantViolated _ => true
  | _ => false

def Outcome.violates {α : Type} : Outcome α → Bool
  | .returned _ _ => false
  | .threw failure _ => breaksInvariant failure
  | .ruined failure => breaksInvariant failure

structure ProducedRecord where
  timestamp : Int
  key : Option Bytes
  value : Option Bytes
  headers : List RecordHeader := []

def appendProduced : RecordBatchBuilder → List ProducedRecord → Except Error RecordBatchBuilder
  | builder, [] => .ok builder
  | builder, record :: records => do
      let builder ← builder.append record.timestamp record.key record.value record.headers
      appendProduced builder records

/-- What a builder of any codec makes of records that its `int32_t` counts. -/
def BuiltFrom (records : List ProducedRecord) (bytes : Bytes) : Prop :=
  records.length < 2 ^ 31 ∧ ∃ compression builder,
    appendProduced { compression := compression } records = .ok builder ∧ builder.build = .ok bytes

theorem append_at_grows {builder next : RecordBatchBuilder} {offsetDelta timestamp : Int}
    {key value : Option Bytes} {headers : List RecordHeader}
    (appended : builder.appendAt offsetDelta timestamp key value headers = .ok next) :
    next.count = builder.count + 1 ∧ next.lastDelta = offsetDelta ∧
      builder.records.length < next.records.length := by
  unfold RecordBatchBuilder.appendAt at appended
  split at appended
  · cases appended
  obtain ⟨encoded, fields, appended⟩ := except_bind_ok appended
  obtain ⟨length, _, made⟩ := except_bind_ok appended
  cases Except.ok.inj made
  refine ⟨rfl, rfl, ?_⟩
  obtain ⟨timestampBytes, _, fields⟩ := except_bind_ok fields
  obtain ⟨offsetBytes, _, fields⟩ := except_bind_ok fields
  obtain ⟨keyBytes, _, fields⟩ := except_bind_ok fields
  obtain ⟨valueBytes, _, fields⟩ := except_bind_ok fields
  obtain ⟨countBytes, _, fields⟩ := except_bind_ok fields
  obtain ⟨headerBytes, _, made⟩ := except_bind_ok fields
  cases Except.ok.inj made
  simp [writeInt8, writeInt]

/-- The last delta is one below the count, and a record takes at least a byte. -/
theorem append_produced_grows {builder next : RecordBatchBuilder} {records : List ProducedRecord}
    (deltas : builder.lastDelta = builder.count - 1) (covers : builder.count ≤ builder.records.length)
    (appended : appendProduced builder records = .ok next) :
    next.count = builder.count + records.length ∧ next.lastDelta = next.count - 1 ∧
      next.count ≤ next.records.length := by
  induction records generalizing builder with
  | nil =>
      cases appended
      exact ⟨rfl, deltas, covers⟩
  | cons record records ih =>
      obtain ⟨middle, one, rest⟩ := except_bind_ok appended
      obtain ⟨count, delta, longer⟩ := append_at_grows one
      obtain ⟨total, last, room⟩ := ih (by rw [delta, count]; omega) (by omega) rest
      refine ⟨?_, last, room⟩
      rw [total, count, List.length_cons]
      omega

theorem last_delta_of_built (builder : RecordBatchBuilder) (fits : FitsSigned 32 builder.lastDelta) :
    (headerOf (builtBytes builder)).lastOffsetDelta = builder.lastDelta := by
  have place : (builtBytes builder).drop 23 = builder.covered.drop 2 := by
    rw [← built_drop_covered, List.drop_drop]
    rfl
  have width : (writeInt32 builder.lastDelta).length = 32 / 8 := by simp [writeInt32, writeInt]
  have field : (builder.covered.drop 2).take (32 / 8) = writeInt32 builder.lastDelta := by
    have front : (writeInt16 (builder.compression &&& kCompressionMask : Nat)).length = 2 := by
      simp [writeInt16, writeInt]
    simp only [RecordBatchBuilder.covered, List.append_assoc]
    rw [List.drop_left' front, ← width, List.take_left' rfl]
  have bound : asUnsigned 32 builder.lastDelta < 256 ^ (32 / 8) := by
    unfold asUnsigned
    omega
  simp only [headerOf, fieldInt, fieldNat, place, field]
  rw [writeInt32, writeInt, be_nat_be_bytes, Nat.mod_eq_of_lt bound,
    as_signed_as_unsigned 32 (by norm_num) _ fits]

/-- What the log relies on of a built batch: it spans at least one offset, and no
more offsets than it has bytes. -/
theorem built_spans {records : List ProducedRecord} {bytes : Bytes} (built : BuiltFrom records bytes) :
    kBatchHeaderSize ≤ bytes.length ∧ 0 ≤ (headerOf bytes).lastOffsetDelta ∧
      (headerOf bytes).lastOffsetDelta + 1 ≤ bytes.length := by
  obtain ⟨counted, compression, builder, appended, built⟩ := built
  obtain ⟨count, last, covers⟩ := append_produced_grows (by rfl) (Nat.zero_le _) appended
  simp only [Nat.zero_add] at count
  have occupied : builder.count ≠ 0 := by
    intro none
    simp [RecordBatchBuilder.build, RecordBatchBuilder.empty, none] at built
  rw [build_eq builder occupied] at built
  cases built
  rw [last_delta_of_built builder (by unfold FitsSigned; omega), built_length]
  omega

/-- An active segment below both limits. Its entries lie behind its end, and
strictly so once something was written after the last of them. -/
structure Numbered (segment : ActiveSegment) : Prop where
  based : segment.index.baseOffset = segment.baseOffset
  writable : segment.index.writable = true
  rises : segment.baseOffset ≤ segment.nextOffset
  spans : segment.nextOffset - segment.baseOffset ≤ segment.sizeBytes
  narrow : ∀ entry ∈ segment.index.entries, entry.position ≤ kMaxUint32
  filled : 0 < segment.bytesSinceIndexEntry → segment.baseOffset < segment.nextOffset
  behind : ∀ entry ∈ segment.index.entries,
    entry.relativeOffset ≤ segment.nextOffset - segment.baseOffset ∧ entry.position ≤ segment.sizeBytes
  passed : 0 < segment.bytesSinceIndexEntry → ∀ entry ∈ segment.index.entries,
    entry.relativeOffset < segment.nextOffset - segment.baseOffset ∧ entry.position < segment.sizeBytes

theorem numbered_fresh {fd : Int} {dir : String} {base : Int} {policy : RollPolicy} {taken : Bool}
    {segment : ActiveSegment} (created : ActiveSegment.create fd dir base policy taken = .ok segment) :
    Numbered segment ∧ segment.policy = policy ∧ segment.baseOffset = base ∧ segment.nextOffset = base ∧
      segment.sizeBytes = 0 ∧ segment.index.entries = [] ∧
      segment.index.maxEntries = policy.maxIndexBytes / kEntrySize ∧
      segment.bytesSinceIndexEntry = 0 ∧ segment.firstAppendMs = -1 := by
  unfold ActiveSegment.create at created
  split at created
  · cases created
  obtain ⟨index, made, built⟩ := except_bind_ok created
  cases Except.ok.inj built
  unfold OffsetIndex.create at made
  split at made
  · cases made
  cases Except.ok.inj made
  refine ⟨?_, rfl, rfl, rfl, rfl, rfl, rfl, rfl, rfl⟩
  constructor <;> simp [SegmentBase.sizeBytes, FileHandle.ofContents, FileHandle.size]

theorem create_error {fd : Int} {dir : String} {base : Int} {policy : RollPolicy} {taken : Bool}
    {failure : Error} (failed : ActiveSegment.create fd dir base policy taken = .error failure) :
    breaksInvariant failure = false := by
  unfold ActiveSegment.create at failed
  split at failed
  · cases failed
    rfl
  rcases except_bind_error failed with unmade | ⟨index, _, failed⟩
  · unfold OffsetIndex.create at unmade
    split at unmade
    · cases unmade
      rfl
    · cases unmade
  · cases failed

theorem seal_error {segment : ActiveSegment} (based : segment.index.baseOffset = segment.baseOffset) {fd : Int}
    {failure : Error} (failed : segment.sealSegment fd = .error failure) :
    breaksInvariant failure = false := by
  unfold ActiveSegment.sealSegment SealedSegment.open SegmentBase.deriveEndStateFromLog at failed
  simp only at failed
  obtain ⟨entry, found, _⟩ := segment.index.openSealed.lookup_last
  have sought : segment.index.openSealed.lookup (segment.baseOffset + kMaxUint32) = .ok entry := by
    rw [← based]
    exact found
  rw [sought, except_ok_bind] at failed
  rcases except_bind_error failed with walked | ⟨_, _, failed⟩
  · apply walk_error _ _ _ (fun failure => breaksInvariant failure = false) _ _ walked
    · intro position failure peeked
      obtain ⟨what, rfl⟩ := batch_at_error peeked
      rfl
    · intro state position frame failure visited
      cases visited
  · cases failed

theorem seal_entries {segment : ActiveSegment} {fd : Int} {made : SealedSegment}
    (done : segment.sealSegment fd = .ok made) : made.index.entries = segment.index.entries := by
  unfold ActiveSegment.sealSegment SealedSegment.open SegmentBase.deriveEndStateFromLog at done
  simp only at done
  obtain ⟨entry, _, done⟩ := except_bind_ok done
  obtain ⟨walked, _, done⟩ := except_bind_ok done
  cases Except.ok.inj done
  rfl

section Appending

variable {segment : ActiveSegment}

def ActiveSegment.withIndex (segment : ActiveSegment) (state : IndexState) : ActiveSegment :=
  { segment with index := state.index, bytesSinceIndexEntry := state.since }

/-- An entry that is due fits when the place of the batch does. -/
theorem index_step_numbered (numbered : Numbered segment) (positive : 0 < segment.policy.indexIntervalBytes)
    (fits : segment.policy.indexIntervalBytes ≤ segment.bytesSinceIndexEntry → segment.sizeBytes ≤ kMaxUint32) :
    ∃ state, indexStep segment.policy segment.indexState segment.nextOffset segment.log.size = .ok state ∧
      Numbered (segment.withIndex state) ∧ state.index.maxEntries = segment.index.maxEntries ∧
      state.index.entries.length ≤ segment.index.entries.length + 1 ∧
      state.since ≤ segment.bytesSinceIndexEntry := by
  have same : Numbered (segment.withIndex segment.indexState) := numbered
  unfold indexStep
  by_cases early : segment.indexState.since < segment.policy.indexIntervalBytes
  · exact ⟨segment.indexState, if_pos early, same, rfl, Nat.le_succ _, le_rfl⟩
  have due : segment.policy.indexIntervalBytes ≤ segment.bytesSinceIndexEntry := Nat.le_of_not_lt early
  have small := fits due
  have size : segment.sizeBytes = segment.log.size := rfl
  have since : 0 < segment.bytesSinceIndexEntry := by omega
  have spans := numbered.spans
  have occupied := numbered.filled since
  rw [if_neg early, if_neg (by omega), if_neg (by omega)]
  obtain ⟨index, appended⟩ := @OffsetIndex.append_succeeds segment.index segment.nextOffset segment.log.size
    numbered.writable (by omega) (by rw [numbered.based]; exact numbered.rises) (by rw [numbered.based]; omega) (by
      intro last isLast
      have below := numbered.passed since last (List.mem_of_getLast? isLast)
      have offset : last.relativeOffset < (segment.nextOffset - segment.index.baseOffset).toNat := by
        rw [numbered.based]
        omega
      exact ⟨offset, below.2⟩)
  have again : segment.indexState.index.append segment.nextOffset segment.log.size = .ok index := appended
  refine ⟨⟨index, 0⟩, by rw [again]; rfl, ?_⟩
  rcases OffsetIndex.append_ok appended with ⟨rfl, _⟩ | ⟨entries, _, base, capacity, writable, _⟩
  · exact ⟨{ numbered with filled := by simp [ActiveSegment.withIndex], passed := by simp [ActiveSegment.withIndex] },
      rfl, Nat.le_succ _, Nat.zero_le _⟩
  · refine ⟨?_, capacity, by simp [entries], Nat.zero_le _⟩
    constructor
    · exact base.trans numbered.based
    · exact writable.trans numbered.writable
    · exact numbered.rises
    · exact numbered.spans
    · intro entry member
      simp only [ActiveSegment.withIndex, entries, List.mem_append, List.mem_singleton] at member
      rcases member with old | rfl
      · exact numbered.narrow entry old
      · exact small
    · simp [ActiveSegment.withIndex]
    · intro entry member
      simp only [ActiveSegment.withIndex, entries, List.mem_append, List.mem_singleton] at member
      rcases member with old | rfl
      · exact numbered.behind entry old
      · refine ⟨?_, le_rfl⟩
        simp only [ActiveSegment.withIndex, numbered.based]
        omega
    · simp [ActiveSegment.withIndex]

theorem numbered_written (numbered : Numbered segment) {batch : Bytes} {clockMs largest : Int}
    (spans : 0 ≤ (headerOf batch).lastOffsetDelta) (covered : (headerOf batch).lastOffsetDelta + 1 ≤ batch.length)
    (starts : baseOf batch = segment.nextOffset) :
    Numbered { segment with
      log := (segment.log.append batch none).1
      bytesSinceIndexEntry := segment.bytesSinceIndexEntry + batch.length
      firstAppendMs := clockMs
      largestTimestamp := largest
      nextOffset := lastOf batch + 1 } := by
  have size : ((segment.log.append batch none).1).size = segment.log.size + batch.length := rfl
  have next : lastOf batch + 1 = segment.nextOffset + ((headerOf batch).lastOffsetDelta + 1) := by
    rw [← starts]
    unfold lastOf baseOf BatchHeader.lastOffset
    omega
  have rises := numbered.rises
  have room := numbered.spans
  have sized : segment.sizeBytes = segment.log.size := rfl
  have below : ∀ entry ∈ segment.index.entries,
      (entry.relativeOffset : Int) < lastOf batch + 1 - segment.baseOffset ∧
        entry.position < segment.log.size + batch.length := by
    intro entry member
    obtain ⟨offset, position⟩ := numbered.behind entry member
    omega
  constructor
  · exact numbered.based
  · exact numbered.writable
  · simp only [next]
    omega
  · simp only [SegmentBase.sizeBytes, size, next]
    omega
  · exact numbered.narrow
  · simp only [next]
    omega
  · intro entry member
    obtain ⟨offset, position⟩ := below entry member
    exact ⟨offset.le, position.le⟩
  · exact fun _ => below

theorem append_numbered (numbered : Numbered segment) (positive : 0 < segment.policy.indexIntervalBytes)
    (fits : segment.policy.indexIntervalBytes ≤ segment.bytesSinceIndexEntry → segment.sizeBytes ≤ kMaxUint32)
    {batch : Bytes} (spans : 0 ≤ (headerOf batch).lastOffsetDelta)
    (covered : (headerOf batch).lastOffsetDelta + 1 ≤ batch.length) (starts : baseOf batch = segment.nextOffset)
    {clockMs : Int} {fault : Option WriteFault} {after : ActiveSegment} {result : Except Error Unit}
    (appended : segment.append segment.nextOffset batch clockMs fault = (after, result)) :
    Numbered after ∧ after.policy = segment.policy ∧ ∀ failure, result = .error failure →
      breaksInvariant failure = false ∧ after.nextOffset = segment.nextOffset := by
  unfold ActiveSegment.append at appended
  cases parsed : parseHeader batch with
  | error failure =>
      simp only [parsed, Prod.mk.injEq] at appended
      obtain ⟨rfl, rfl⟩ := appended
      obtain ⟨what, rfl⟩ := parse_header_error parsed
      refine ⟨numbered, rfl, ?_⟩
      intro failure same
      cases same
      exact ⟨rfl, rfl⟩
  | ok header =>
      obtain ⟨_, rfl, _⟩ := parse_header_ok parsed
      have base : (headerOf batch).baseOffset = segment.nextOffset := starts
      obtain ⟨state, step, indexed, _⟩ := index_step_numbered numbered positive fits
      have added : segment.maybeAddIndexEntry segment.nextOffset segment.log.size =
          .ok (segment.withIndex state) := maybe_add_index_entry_ok.mpr ⟨state, step, rfl⟩
      simp only [parsed, base, ne_eq, not_true_eq_false, if_false, added] at appended
      cases fault with
      | none =>
          simp only [FileHandle.append, Prod.mk.injEq] at appended
          obtain ⟨rfl, rfl⟩ := appended
          exact ⟨numbered_written indexed spans covered starts, rfl, fun _ failed => by cases failed⟩
      | some fault =>
          simp only [FileHandle.append, Prod.mk.injEq] at appended
          obtain ⟨rfl, rfl⟩ := appended
          refine ⟨{ indexed with }, rfl, ?_⟩
          intro failure same
          cases same
          exact ⟨rfl, rfl⟩

end Appending

/-- A log below the limits: its active segment is, and no entry of a sealed one is wider than its field. -/
structure LogNumbered (log : Log) : Prop where
  active : Numbered log.active
  policy : log.active.policy = log.config.roll
  ends : log.logEndOffset = log.active.nextOffset
  sealedNarrow : ∀ segment ∈ log.sealedMap, ∀ entry ∈ segment.index.entries, entry.position ≤ kMaxUint32

section Rolling

variable {log : Log}

theorem of_mem_emplace {segment other : SealedSegment} {segments : List SealedSegment}
    (member : other ∈ emplaceSegment segment segments) : other = segment ∨ other ∈ segments := by
  induction segments with
  | nil => exact .inl (List.mem_singleton.mp member)
  | cons first rest ih =>
      unfold emplaceSegment at member
      split at member
      · exact List.mem_cons.mp member
      split at member
      · exact .inr member
      · rcases List.mem_cons.mp member with rfl | later
        · exact .inr List.mem_cons_self
        · exact (ih later).imp_right (List.mem_cons_of_mem _)

/-- A segment that does not roll has not reached its size, unless it is empty. -/
theorem unrolled_small {segment : ActiveSegment} {nowMs : Int} (stays : segment.shouldRoll nowMs = false)
    (occupied : segment.baseOffset < segment.nextOffset) : segment.sizeBytes < segment.policy.maxSegmentBytes := by
  unfold ActiveSegment.shouldRoll at stays
  split at stays
  · next empty =>
    have same : segment.nextOffset = segment.baseOffset := by simpa [SegmentBase.isEmpty] using empty
    omega
  split at stays
  · cases stays
  · omega

theorem maybe_roll_numbered (holds : LogNumbered log) (positive : 0 < log.config.roll.indexIntervalBytes)
    (bounded : log.config.roll.maxSegmentBytes ≤ kMaxUint32 + 1) (nowMs : Int) :
    (log.maybeRoll nowMs).violates = false ∧
      (∀ failure next, log.maybeRoll nowMs = .threw failure next → next = log) ∧
      ∀ next, log.maybeRoll nowMs = .returned () next →
        LogNumbered next ∧ next.config = log.config ∧ next.logEndOffset = log.logEndOffset ∧
          (next.active.policy.indexIntervalBytes ≤ next.active.bytesSinceIndexEntry →
            next.active.sizeBytes ≤ kMaxUint32) := by
  unfold Log.maybeRoll
  cases due : log.active.shouldRoll nowMs with
  | false =>
      rw [if_pos rfl]
      refine ⟨rfl, fun _ _ threw => (by cases threw), ?_⟩
      intro next returned
      cases returned
      refine ⟨holds, rfl, rfl, ?_⟩
      intro since
      rw [holds.policy] at since
      have small := unrolled_small due (holds.active.filled (by omega))
      rw [holds.policy] at small
      omega
  | true =>
      rw [if_neg (by simp)]
      cases created : ActiveSegment.create log.nextFd log.dir log.active.nextOffset log.config.roll
          (log.holdsFile log.active.nextOffset) with
      | error failure =>
          simp only [created]
          refine ⟨create_error created, ?_, fun _ returned => (by cases returned)⟩
          intro failure next threw
          cases threw
          rfl
      | ok fresh =>
          simp only [created]
          cases done : log.active.sealSegment (log.nextFd + 1) with
          | error failure =>
              exact ⟨seal_error holds.active.based done, fun _ _ threw => (by cases threw),
                fun _ returned => (by cases returned)⟩
          | ok segment =>
              obtain ⟨numbered, policy, base, next, _, _, _, since, _⟩ := numbered_fresh created
              refine ⟨rfl, fun _ _ threw => (by cases threw), ?_⟩
              intro rolled returned
              cases returned
              refine ⟨⟨numbered, policy, holds.ends.trans next.symm, ?_⟩, rfl, rfl, ?_⟩
              · intro other member
                rcases of_mem_emplace member with rfl | old
                · rw [seal_entries done]
                  exact holds.active.narrow
                · exact holds.sealedNarrow other old
              · simp only [since, policy]
                omega

theorem log_append_numbered (holds : LogNumbered log) (positive : 0 < log.config.roll.indexIntervalBytes)
    (bounded : log.config.roll.maxSegmentBytes ≤ kMaxUint32 + 1) {records : List ProducedRecord} {bytes : Bytes}
    (built : BuiltFrom records bytes) (range : FitsSigned 64 log.logEndOffset) (rollMs clockMs : Int)
    (fault : Option WriteFault) :
    (log.append bytes rollMs clockMs fault).violates = false ∧
      ∀ next, (log.append bytes rollMs clockMs fault).log = some next →
        LogNumbered next ∧ next.config = log.config := by
  obtain ⟨long, spans, covered⟩ := built_spans built
  obtain ⟨sound, stays, rolls⟩ := maybe_roll_numbered holds positive bounded rollMs
  unfold Log.append
  cases moved : log.maybeRoll rollMs with
  | threw failure same =>
      rw [moved] at sound stays
      have unchanged := stays failure same rfl
      refine ⟨sound, ?_⟩
      intro next kept
      cases kept
      rw [unchanged]
      exact ⟨holds, rfl⟩
  | ruined failure =>
      rw [moved] at sound
      exact ⟨sound, fun _ kept => by cases kept⟩
  | returned done rolled =>
      obtain ⟨rolledHolds, config, ends, fits⟩ := rolls rolled moved
      rw [← ends] at range
      have header := header_of_stamped_in_range bytes rolled.logEndOffset range
      simp only [stamp_base_offset_eq bytes _ long]
      cases appended : rolled.active.append rolled.logEndOffset (stamped bytes rolled.logEndOffset)
          clockMs fault with
      | mk after result =>
          rw [rolledHolds.ends] at appended
          have numbered := @append_numbered rolled.active rolledHolds.active
            (by rw [rolledHolds.policy, config]; exact positive) fits
            (stamped bytes rolled.active.nextOffset) (by rw [← rolledHolds.ends, header]; exact spans)
            (by rw [← rolledHolds.ends, header, stamped_length _ _ long]; exact covered)
            (by rw [baseOf, ← rolledHolds.ends, header]) clockMs fault after result appended
          obtain ⟨afterHolds, policy, failed⟩ := numbered
          cases result with
          | ok done =>
              refine ⟨rfl, ?_⟩
              intro next kept
              cases kept
              exact ⟨⟨afterHolds, policy.trans rolledHolds.policy, rfl, rolledHolds.sealedNarrow⟩, config⟩
          | error failure =>
              obtain ⟨sound, same⟩ := failed failure rfl
              refine ⟨sound, ?_⟩
              intro next kept
              cases kept
              exact ⟨⟨afterHolds, policy.trans rolledHolds.policy, rolledHolds.ends.trans same.symm,
                rolledHolds.sealedNarrow⟩, config⟩

end Rolling

/-- The action is an append of a built batch, and the offset it gets is an `int64_t`. -/
def Log.AppendsBuilt (log : Log) : LogAction → Prop
  | .append batchBytes _ _ _ => (∃ records, BuiltFrom records batchBytes) ∧ FitsSigned 64 log.logEndOffset
  | _ => False

/-- No append of a built batch breaks an invariant, and every entry fits its two fields. -/
structure Log.InLimits (log : Log) : Prop where
  unbroken : ∀ records batchBytes, BuiltFrom records batchBytes → FitsSigned 64 log.logEndOffset →
    ∀ rollMs clockMs fault, (log.append batchBytes rollMs clockMs fault).violates = false
  narrow : ∀ segment ∈ log.sealedMap ++ [log.active.toSegmentBase], ∀ entry ∈ segment.index.entries,
    entry.relativeOffset ≤ kMaxUint32 ∧ entry.position ≤ kMaxUint32

theorem create_numbered {tp : TopicPartition} {dir : String} {config : LogConfig} {log : Log}
    (created : Log.create tp dir config = .ok log) : LogNumbered log ∧ log.config = config := by
  unfold Log.create at created
  obtain ⟨active, fresh, made⟩ := except_bind_ok created
  cases Except.ok.inj made
  obtain ⟨numbered, policy, _⟩ := numbered_fresh fresh
  exact ⟨⟨numbered, policy, rfl, by simp [Log.ofSegments]⟩, rfl⟩

/-- Segments that roll at 4 GiB or before never meet a limit of their index. -/
theorem appends_in_limits {tp : TopicPartition} {dir : String} {config : LogConfig} {log next : Log}
    (created : Log.create tp dir config = .ok log) (positive : 0 < config.roll.indexIntervalBytes)
    (bounded : config.roll.maxSegmentBytes ≤ kMaxUint32 + 1)
    (reached : GuardedRun.Reaches Log.step Log.AppendsBuilt log next) : next.InLimits := by
  obtain ⟨initial, sameConfig⟩ := create_numbered created
  have kept := reached.invariant _ _ (fun state => LogNumbered state ∧ state.config = config)
    ⟨initial, sameConfig⟩ (by
      intro state action after ⟨holds, same⟩ admitted taken
      cases action with
      | append batchBytes rollMs clockMs fault =>
          obtain ⟨⟨records, built⟩, range⟩ := admitted
          have stepped := (log_append_numbered holds (by rw [same]; exact positive)
            (by rw [same]; exact bounded) built range rollMs clockMs fault).2 after taken
          exact ⟨stepped.1, stepped.2.trans same⟩
      | _ => exact admitted.elim)
  obtain ⟨holds, same⟩ := kept
  constructor
  · intro records batchBytes built range rollMs clockMs fault
    exact (log_append_numbered holds (by rw [same]; exact positive) (by rw [same]; exact bounded) built
      range rollMs clockMs fault).1
  · intro segment member entry isEntry
    refine ⟨(segment.index.bounded entry isEntry).2, ?_⟩
    rcases List.mem_append.mp member with old | new
    · exact holds.sealedNarrow segment old entry isEntry
    · cases List.mem_singleton.mp new
      exact holds.active.narrow entry isEntry

end DariyaKyu.Storage

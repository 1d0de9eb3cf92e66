import DariyaKyu.Protocol.ErrorCodes
import DariyaKyu.Storage.BatchCodec
import DariyaKyu.Storage.LogRuns

/-!
The write path: what `handleProduce` does with the bytes of one partition entry,
and what those bytes have to be for the segment files to stay sequences of whole
batches. The handler checks a checksum over the length the batch declares, and
appends every byte that was sent.
-/

namespace DariyaKyu.Server

set_option autoImplicit false

open Storage Protocol

structure ProduceResult where
  error : ErrorCode
  baseOffset : Int
  deriving DecidableEq, Repr

/-- The two `catch` clauses of the handler. -/
def produceErrorOf : Error → ErrorCode
  | .corruptData _ => .corruptMessage
  | _ => .unknown

/-- One partition entry of `handleProduce`, for a partition that is hosted. The
log comes back as the append left it, or not at all. -/
def produceTo (log : Log) (batch : Bytes) (rollMs clockMs : Int) (fault : Option WriteFault) :
    ProduceResult × Option Log :=
  match verifyCrc batch with
  | .error failure => (⟨produceErrorOf failure, kUnknownOffset⟩, some log)
  | .ok false => (⟨.corruptMessage, kUnknownOffset⟩, some log)
  | .ok true =>
      match log.append batch rollMs clockMs fault with
      | .returned offset after => (⟨.none, offset⟩, some after)
      | .threw failure after => (⟨produceErrorOf failure, kUnknownOffset⟩, some after)
      | .ruined failure => (⟨produceErrorOf failure, kUnknownOffset⟩, none)

/-- The bytes are whole batches with consecutive offsets from one to the other. -/
def Contiguous (first next : Int) (bytes : Bytes) : Prop :=
  ∃ batches, bytes = batches.flatten ∧ (∀ batch ∈ batches, IntactBatch batch) ∧
    Consecutive first batches ∧ endOffset first batches = next

/-- Every segment file is such a sequence, the last one up to the log end. -/
structure ContiguousFiles (log : Log) : Prop where
  sealedFiles : ∀ segment ∈ log.sealedMap, ∃ next, Contiguous segment.baseOffset next segment.log.bytes
  activeFile : Contiguous log.active.baseOffset log.logEndOffset log.active.log.bytes

def readableBytes (log : Log) : Bytes :=
  log.sealedMap.flatMap (fun segment => segment.log.bytes.take segment.log.size) ++
    log.active.log.bytes.take log.active.log.size

/-- The entry is exactly one batch, and the batch spans at least one offset. -/
def OneWholeBatch (batch : Bytes) : Prop :=
  totalSizeOf batch = .ok batch.length ∧ 0 ≤ (headerOf batch).lastOffsetDelta

/-- Where a whole batch ends is said by its own first bytes. -/
theorem intact_flatten_split {known found : List Bytes} {more : Bytes}
    (knownIntact : ∀ batch ∈ known, IntactBatch batch) (foundIntact : ∀ batch ∈ found, IntactBatch batch)
    (same : found.flatten = known.flatten ++ more) :
    ∃ rest, found = known ++ rest ∧ rest.flatten = more := by
  induction known generalizing found with
  | nil => exact ⟨found, rfl, by simpa using same⟩
  | cons batch known ih =>
      have batchIntact := knownIntact batch (by simp)
      cases found with
      | nil =>
          have positive := batchIntact.positive
          simp only [List.flatten_nil, List.flatten_cons, List.nil_eq, List.append_eq_nil_iff] at same
          rw [same.1.1] at positive
          cases positive
      | cons other found =>
          simp only [List.flatten_cons, List.append_assoc] at same
          obtain ⟨equal, later⟩ := checked_front_unique (foundIntact other (by simp)).complete
            batchIntact.complete same
          obtain ⟨rest, split, ends⟩ := ih (fun item member => knownIntact item (by simp [member]))
            (fun item member => foundIntact item (by simp [member])) later
          exact ⟨rest, by rw [equal, split]; rfl, ends⟩

theorem seal_whole {dir : String} {segment : ActiveSegment} {batches : List Bytes}
    (holds : ActiveHolds dir segment batches) (whole : segment.log.bytes = batches.flatten) (fd : Int) :
    ∃ made, segment.sealSegment fd = .ok made ∧ made.log.bytes = segment.log.bytes ∧
      made.log.size = segment.log.bytes.length ∧ made.baseOffset = segment.baseOffset := by
  obtain ⟨entry, found, _, place⟩ := segment.index.openSealed.lookup_last
  obtain ⟨before, after, split, position⟩ : ∃ before after, batches = before ++ after ∧
      entry.position = before.flatten.length := by
    rcases place with rfl | member
    · exact ⟨[], batches, rfl, rfl⟩
    · rcases holds.segmentHolds.indexed entry member with ⟨before, batch, after, split, starts, _⟩ |
        ⟨starts, _⟩
      · exact ⟨before, batch :: after, split, starts⟩
      · exact ⟨batches, [], by simp, starts⟩
  have held : HoldsBatches (FileHandle.ofContents fd segment.log.path segment.log.bytes) batches := by
    refine ⟨holds.intact, holds.front, holds.front.length_le, batch_at_end _ ?_⟩
    simp [FileHandle.ofContents, FileHandle.size, whole]
  have based := holds.segmentHolds.based
  have derived := derive_end_state
    { log := FileHandle.ofContents fd segment.log.path segment.log.bytes
      index := segment.index.openSealed
      baseOffset := segment.baseOffset
      nextOffset := segment.baseOffset
      largestTimestamp := -1 } (split ▸ held) (based ▸ found) position
  exact ⟨_, derived, rfl, rfl, rfl⟩

/-- A roll over a whole active file: nothing happens, or the file is sealed as
it is and an empty one follows. -/
theorem roll_whole {log : Log} (holds : LogHolds log)
    (whole : log.active.log.bytes = (batchesIn log.active.toSegmentBase).flatten) (nowMs : Int) :
    log.maybeRoll nowMs = .returned () log ∨ ∃ made active,
      log.maybeRoll nowMs = .returned () { log with
        sealedMap := log.sealedMap ++ [made], active := active, nextFd := log.nextFd + 2 } ∧
      made.log.bytes = log.active.log.bytes ∧ made.log.size = log.active.log.bytes.length ∧
      made.baseOffset = log.active.baseOffset ∧ ActiveSettled log.dir active [] ∧
      active.baseOffset = log.active.nextOffset := by
  cases rolls : log.active.shouldRoll nowMs with
  | false => exact .inl (by simp [Log.maybeRoll, rolls])
  | true =>
      have active := holds.activeHolds
      obtain ⟨made, isSealed, bytes, size, base⟩ := seal_whole active whole (log.nextFd + 1)
      obtain ⟨plain, built, _⟩ := active.built
      obtain ⟨next, created⟩ := create_active_succeeds built log.nextFd log.active.nextOffset
      obtain ⟨fresh, begins, _⟩ := create_active_spec created
      have above : log.active.baseOffset < log.active.nextOffset := by
        have occupied := should_roll_occupied rolls
        have ordered := start_le_end active.consecutive.ascending
        rw [← active.ends] at ordered
        omega
      have untaken : log.holdsFile log.active.nextOffset = false := by
        simp only [Log.holdsFile, Bool.or_eq_false_iff, beq_eq_false_iff_ne, List.any_eq_false]
        refine ⟨by omega, ?_⟩
        intro segment member
        have below := linked_below holds.linked member
        simp only [beq_iff_eq]
        omega
      have behind : ∀ other ∈ log.sealedMap, other.baseOffset < made.baseOffset := by
        intro other member
        have below := linked_below holds.linked member
        omega
      refine .inr ⟨made, next, ?_, bytes, size, base, fresh, begins⟩
      rw [holds.policy] at created
      simp only [Log.maybeRoll, rolls, Bool.true_eq_false, if_false, untaken, created, isSealed,
        emplace_behind behind]

structure WholeActive (log : Log) (batches : List Bytes) : Prop where
  holds : ActiveHolds log.dir log.active batches
  whole : log.active.log.bytes = batches.flatten
  ends : log.logEndOffset = log.active.nextOffset

theorem whole_active_of_files {log : Log} (holds : LogHolds log) (files : ContiguousFiles log) :
    WholeActive log (batchesIn log.active.toSegmentBase) := by
  refine ⟨holds.activeHolds, ?_, holds.ends⟩
  obtain ⟨batches, whole, intact, consecutive, ends⟩ := files.activeFile
  have front := holds.activeHolds.front
  obtain ⟨more, split⟩ := front
  rw [whole] at split
  obtain ⟨rest, parts, _⟩ := intact_flatten_split holds.activeHolds.intact intact split.symm
  -- a batch behind the known ones would end behind the log end
  have none : rest = [] := by
    rw [parts, consecutive_append] at consecutive
    by_contra occupied
    have further := end_lt_of_occupied consecutive.2.ascending occupied
    rw [parts, end_offset_append, holds.ends, holds.activeHolds.ends] at ends
    omega
  rw [whole, parts, none, List.append_nil]

theorem WholeActive.readable {log : Log} {batches : List Bytes} (active : WholeActive log batches) :
    log.active.log.bytes.take log.active.log.size = batches.flatten := by
  rw [active.whole, active.holds.tight, List.take_length]

theorem roll_keeps_files {log : Log} (holds : LogHolds log) (files : ContiguousFiles log) (nowMs : Int) :
    ∃ rolled batches, log.maybeRoll nowMs = .returned () rolled ∧ WholeActive rolled batches ∧
      ContiguousFiles rolled ∧ rolled.logEndOffset = log.logEndOffset ∧
      readableBytes rolled = readableBytes log := by
  have active := whole_active_of_files holds files
  rcases roll_whole holds active.whole nowMs with stays | ⟨made, next, moves, bytes, size, base, fresh, begins⟩
  · exact ⟨log, _, stays, active, files, rfl, rfl⟩
  · have ends : log.logEndOffset = next.nextOffset := by
      rw [fresh.ends, begins]
      exact holds.ends
    refine ⟨_, [], moves, ⟨fresh.toActiveHolds, fresh.whole, ends⟩, ⟨?_, ?_⟩, rfl, ?_⟩
    · intro segment member
      rcases List.mem_append.mp member with old | new
      · exact files.sealedFiles segment old
      · rw [List.mem_singleton.mp new, bytes, base]
        exact ⟨_, files.activeFile⟩
    · exact ⟨[], fresh.whole, by simp, trivial, by rw [begins]; exact holds.ends.symm⟩
    · have empty : next.log.bytes = [] := fresh.whole
      simp only [readableBytes, List.flatMap_append, List.flatMap_cons, List.flatMap_nil,
        List.append_nil, bytes, size, List.take_length, empty, List.take_nil]
      rw [active.readable, active.whole]

/-- What an append to a whole active file does to the file, for any bytes that
have a readable header. -/
theorem append_to_whole {log : Log} {batches : List Bytes} {batch : Bytes} (active : WholeActive log batches)
    (parsed : parseHeader batch = .ok (headerOf batch)) (clockMs : Int) (fault : Option WriteFault) :
    (∃ after, log.active.append log.logEndOffset batch clockMs fault = (after, .ok ()) ∧
        after.log.bytes = batches.flatten ++ batch ∧ after.baseOffset = log.active.baseOffset ∧
        baseOf batch = log.logEndOffset ∧ after.nextOffset = lastOf batch + 1) ∨
      (∃ after failure, log.active.append log.logEndOffset batch clockMs fault = (after, .error failure) ∧
        after.log.bytes.take after.log.size = batches.flatten) := by
  have tight : log.active.log.writePosition = batches.flatten.length := active.holds.tight
  by_cases starts : baseOf batch = log.logEndOffset
  · cases appended : log.active.append log.logEndOffset batch clockMs fault with
    | mk after result =>
        rw [active.ends] at appended starts
        rcases append_cases parsed starts appended with ⟨failure, rfl, rfl⟩ | ⟨state, _, written⟩
        · exact .inr ⟨_, failure, rfl, active.readable⟩
        · cases fault with
          | none =>
              obtain ⟨rfl, rfl⟩ := written
              refine .inl ⟨_, rfl, ?_, rfl, by rw [active.ends, starts], rfl⟩
              have nothing : batches.flatten.drop (batches.flatten.length + batch.length) = [] :=
                List.drop_of_length_le (by omega)
              simp only [FileHandle.append, overwrite, tight, active.whole, List.take_length, nothing,
                List.append_nil]
          | some fault =>
              obtain ⟨⟨failure, rfl⟩, rfl⟩ := written
              refine .inr ⟨_, failure, rfl, ?_⟩
              simp [FileHandle.append, FileHandle.size, overwrite, tight, active.whole]
  · have refused : (headerOf batch).baseOffset ≠ log.logEndOffset := starts
    obtain ⟨failure, unstamped⟩ : ∃ failure,
        log.active.append log.logEndOffset batch clockMs fault = (log.active, .error failure) := by
      simp only [ActiveSegment.append, parsed, refused, ne_eq, not_false_eq_true, if_true]
      exact ⟨_, rfl⟩
    exact .inr ⟨log.active, failure, unstamped, active.readable⟩

theorem last_of_stamped {batch : Bytes} {base : Int} (range : baseOf (stamped batch base) = base) :
    lastOf (stamped batch base) = base + (headerOf batch).lastOffsetDelta := by
  have header := header_of_stamped batch base
  rw [baseOf, header] at range
  simp only at range
  rw [lastOf, header, BatchHeader.lastOffset]
  simp only [range]

/-- An accepted batch leaves whole files and a log end behind its first offset
exactly when the entry is one whole batch. -/
theorem appended_file_iff {log : Log} {batches : List Bytes} {batch : Bytes} {next : Int}
    (active : WholeActive log batches) (verified : verifyCrc batch = .ok true)
    (range : baseOf (stamped batch log.logEndOffset) = log.logEndOffset)
    (ends : next = lastOf (stamped batch log.logEndOffset) + 1) :
    (log.logEndOffset < next ∧
        Contiguous log.active.baseOffset next (batches.flatten ++ stamped batch log.logEndOffset)) ↔
      OneWholeBatch batch := by
  obtain ⟨header, parsedHeader, _⟩ := except_bind_ok verified
  obtain ⟨long, rfl, _⟩ := parse_header_ok parsedHeader
  have last := last_of_stamped range
  constructor
  · rintro ⟨grows, found, whole, intact, consecutive, reaches⟩
    obtain ⟨rest, split, same⟩ := intact_flatten_split active.holds.intact intact whole.symm
    rw [split, consecutive_append] at consecutive
    rw [split, end_offset_append] at reaches
    cases rest with
    | nil =>
        have length := stamped_length batch log.logEndOffset long
        rw [← same] at length
        unfold kBatchHeaderSize at long
        simp at length
        omega
    | cons first more =>
        obtain ⟨starts, _, later⟩ := consecutive.2
        have firstIntact := intact first (by simp [split])
        have firstSized := total_size_of_append first more.flatten (Nat.le_trans (by decide) firstIntact.long)
        have firstLast : lastOf first = lastOf (stamped batch log.logEndOffset) := by
          have header := header_of_append first more.flatten firstIntact.long
          rw [← List.flatten_cons, same] at header
          rw [lastOf, lastOf, header]
        have only : more = [] := by
          by_contra occupied
          have further := end_lt_of_occupied later.ascending occupied
          rw [end_offset_cons] at reaches
          omega
        subst only
        simp only [List.flatten_cons, List.flatten_nil, List.append_nil] at same firstSized
        refine ⟨?_, by omega⟩
        rw [← total_size_of_stamped batch log.logEndOffset long, ← same, firstIntact.sized, same,
          stamped_length batch log.logEndOffset long]
  · rintro ⟨sized, spans⟩
    have intact : IntactBatch batch := ⟨sized, verified, spans⟩
    refine ⟨by omega, batches ++ [stamped batch log.logEndOffset], by simp, ?_, ?_, by simp [ends]⟩
    · intro other member
      rcases List.mem_append.mp member with known | new
      · exact active.holds.intact other known
      · exact List.mem_singleton.mp new ▸ intact.stamped log.logEndOffset
    · rw [consecutive_append, ← active.holds.ends, ← active.ends]
      exact ⟨active.holds.consecutive, range, by omega, trivial⟩

/-- A produce answered without an error puts the batch at the old log end, and
keeps the files whole exactly when the entry is one whole batch; a produce
answered with an error changes nothing a reader can see. -/
theorem produce_keeps_files {log : Log} (holds : LogHolds log) (files : ContiguousFiles log)
    (batch : Bytes) (rollMs clockMs : Int) (fault : Option WriteFault) :
    ∃ result after, produceTo log batch rollMs clockMs fault = (result, some after) ∧
      (result.error = .none →
        (result.baseOffset = log.logEndOffset ∧ log.logEndOffset < after.logEndOffset ∧
            ContiguousFiles after ↔ OneWholeBatch batch)) ∧
      (result.error ≠ .none → after.logEndOffset = log.logEndOffset ∧
        readableBytes after = readableBytes log) := by
  have refusal : ∀ failure, produceErrorOf failure ≠ .none := by
    intro failure
    cases failure <;> simp [produceErrorOf]
  cases verified : verifyCrc batch with
  | error failure =>
      exact ⟨_, log, by rw [produceTo, verified], fun accepted => (refusal failure accepted).elim,
        fun _ => ⟨rfl, rfl⟩⟩
  | ok valid =>
      cases valid with
      | false =>
          have answered : produceTo log batch rollMs clockMs fault =
              (⟨.corruptMessage, kUnknownOffset⟩, some log) := by
            rw [produceTo, verified]
          exact ⟨_, log, answered, nofun, fun _ => ⟨rfl, rfl⟩⟩
      | true =>
          obtain ⟨header, parsedHeader, _⟩ := except_bind_ok verified
          obtain ⟨long, rfl, _⟩ := parse_header_ok parsedHeader
          obtain ⟨rolled, batches, moved, active, rolledFiles, ends, readable⟩ :=
            roll_keeps_files holds files rollMs
          have stamps := stamp_base_offset_eq batch rolled.logEndOffset long
          have parsed := parse_header_stamped rolled.logEndOffset parsedHeader
          rcases append_to_whole active parsed clockMs fault with
            ⟨after, appended, bytes, base, range, next⟩ | ⟨after, failure, failed, untouched⟩
          · have answered : produceTo log batch rollMs clockMs fault = (⟨.none, rolled.logEndOffset⟩,
                some { rolled with
                  active := after
                  logEndOffset := after.nextOffset
                  highWatermark := after.nextOffset }) := by
              simp only [produceTo, verified, Log.append, moved, stamps, appended]
            refine ⟨_, _, answered, fun _ => ?_, fun refused => (refused rfl).elim⟩
            rw [← appended_file_iff active verified range next, ← ends]
            constructor
            · rintro ⟨_, grows, kept⟩
              have file := kept.activeFile
              simp only [bytes, base] at file
              exact ⟨grows, file⟩
            · rintro ⟨grows, file⟩
              refine ⟨rfl, grows, rolledFiles.sealedFiles, ?_⟩
              simp only [bytes, base]
              exact file
          · have answered : produceTo log batch rollMs clockMs fault =
                (⟨produceErrorOf failure, kUnknownOffset⟩, some { rolled with active := after }) := by
              simp only [produceTo, verified, Log.append, moved, stamps, failed]
            refine ⟨_, _, answered, fun accepted => (refusal failure accepted).elim, fun _ => ⟨ends, ?_⟩⟩
            rw [← readable]
            simp only [readableBytes, untouched, active.readable]

theorem create_files {tp : TopicPartition} {dir : String} {config : LogConfig} {log : Log}
    (named : StorableName tp) (storable : config.Storable) (made : Log.create tp dir config = .ok log) :
    LogHolds log ∧ ContiguousFiles log := by
  obtain ⟨settled, _, unsealed, _, _, _, base, ends⟩ := create_spec named storable made
  obtain ⟨active, created, result⟩ := except_bind_ok made
  cases Except.ok.inj result
  obtain ⟨_, _, _, _, _, empty⟩ := create_active_spec created
  refine ⟨settled.toLogHolds, by simp [unsealed], [], empty, by simp, trivial, ?_⟩
  exact base.trans ends.symm

theorem produce_keeps_files_fresh :
    ∃ log, Log.create ⟨[116], 0⟩ "t-0" twoBatchConfig = .ok log ∧
      ∃ result after, produceTo log (recordBatchOf 10 none (some [118])) 0 0 none = (result, some after) ∧
        (result.error = .none →
          (result.baseOffset = log.logEndOffset ∧ log.logEndOffset < after.logEndOffset ∧
              ContiguousFiles after ↔ OneWholeBatch (recordBatchOf 10 none (some [118])))) ∧
        (result.error ≠ .none → after.logEndOffset = log.logEndOffset ∧
          readableBytes after = readableBytes log) := by
  obtain ⟨log, made⟩ : ∃ log, Log.create ⟨[116], 0⟩ "t-0" twoBatchConfig = .ok log := ⟨_, rfl⟩
  obtain ⟨holds, files⟩ := create_files ⟨by decide, by decide, by decide, by decide⟩
    storable_two_batch_config made
  exact ⟨log, made, produce_keeps_files holds files _ 0 0 none⟩

def backwardBatch : Bytes := builtBytes { count := 1, lastDelta := -1 }

theorem produce_accepts_backward_batch :
    ¬ ∀ (log : Log) (batch : Bytes) (rollMs clockMs : Int) (fault : Option WriteFault),
      LogHolds log → ContiguousFiles log →
      ∃ result after, produceTo log batch rollMs clockMs fault = (result, some after) ∧
        (result.error = .none → result.baseOffset = log.logEndOffset ∧
          log.logEndOffset < after.logEndOffset ∧ ContiguousFiles after) ∧
        (result.error ≠ .none → after.logEndOffset = log.logEndOffset ∧
          readableBytes after = readableBytes log) := by
  intro all
  obtain ⟨log, made⟩ : ∃ log, Log.create ⟨[116], 0⟩ "t-0" twoBatchConfig = .ok log := ⟨_, rfl⟩
  obtain ⟨holds, files⟩ := create_files ⟨by decide, by decide, by decide, by decide⟩
    storable_two_batch_config made
  obtain ⟨result, after, answered, accepted, _⟩ := all log backwardBatch 0 0 none holds files
  have ran : ((Log.create ⟨[116], 0⟩ "t-0" twoBatchConfig).toOption.map fun log =>
      let produced := produceTo log backwardBatch 0 0 none
      (produced.1.error, log.logEndOffset, produced.2.map (·.logEndOffset))) =
        some (.none, 0, some 0) := by
    decide +kernel
  simp only [made, Except.toOption, Option.map_some, answered, Option.some.injEq, Prod.mk.injEq] at ran
  obtain ⟨noError, start, same⟩ := ran
  have grows := (accepted noError).2.1
  omega

end DariyaKyu.Server

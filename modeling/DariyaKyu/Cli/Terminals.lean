import DariyaKyu.Cli.GroupReading
import DariyaKyu.Server.ProducedFrames
import DariyaKyu.Server.RequestCodecs
import DariyaKyu.Storage.BatchRoundTrip
import Mathlib.Data.List.Sort

/-!
`doProduce` and `doConsume` of `apps/dariyakyu_cli.cpp` at the two ends of one
partition. Every line that is typed goes to the broker as a batch of its own, and the
offset it was acknowledged at is shown. A consumer prints what it fetches, reports what
was deleted in front of it, and goes on from there; `printf` ends a line at its first
zero byte. Frames have a limit in both directions. Any number of producers may type, and
everything else the broker does comes in between.
-/

namespace DariyaKyu.Cli

set_option autoImplicit false

open Storage Protocol Groups Server GuardedRun

def lineBatch (nowMs : Int) (line : Bytes) : Except Error Bytes := do
  let builder ← ({} : RecordBatchBuilder).append nowMs none (some line) []
  builder.build

def lineRequest (tp : TopicPartition) (nowMs : Int) (line : Bytes) : Except Error Bytes := do
  let batch ← lineBatch nowMs line
  encodeProduceRequest { topics := [⟨tp.topic, [⟨tp.partition, batch, 0⟩]⟩] }

/-- One turn of the loop of `doProduce`: the line goes out behind a request header, and
what `handleProduce` answers for the one partition comes back, if anything does. The
broker closes instead of reading a request above the limit. -/
def produceLine (tp : TopicPartition) (header : Bytes) (nowMs : Int) (line : Bytes) (io : RequestIo)
    (context : BrokerContext) : Option (Option ProducedPartition × BrokerContext) :=
  match lineRequest tp nowMs line with
  | .error _ => some (none, context)
  | .ok body =>
      if kMaxFrameBytes < (header ++ body).length then some (none, context)
      else match decodeProduceRequest ⟨header.length, body⟩ with
      | .error _ => some (none, context)
      | .ok (decoded, _) =>
          (answerTopics (BrokerContext.producePartition (header ++ body)) (io.besides decoded.topics) context).map
            fun answered => (answered.1.head?.bind (·.partitions.head?), answered.2)

inductive StartAt where
  | earliest
  | latest
  | offset (offset : Int)
  deriving DecidableEq

def listedOffset (tp : TopicPartition) (timestamp : Int) (context : BrokerContext) :
    Option (Option Int × BrokerContext) :=
  (context.listPartition tp.topic ⟨tp.partition, timestamp⟩).map fun answered =>
    (if answered.1.error = .none then some answered.1.offset else none, answered.2)

def resolveStart (tp : TopicPartition) (startAt : StartAt) (context : BrokerContext) :
    Option (Option Int × BrokerContext) :=
  match startAt with
  | .earliest => listedOffset tp kEarliestTimestamp context
  | .latest => listedOffset tp kLatestTimestamp context
  | .offset offset => some (some offset, context)

/-- What one answer makes of the consumer: it goes on from an offset, with what it has
printed and what it has reported as deleted, or it returns, or it throws. -/
inductive ConsumerRound where
  | goesOn (position : Int) (printed : List Printed) (deleted : List (Int × Int))
  | returns (exitCode : Nat)
  | throws

/-- One turn of the loop of `doConsume`. -/
def consumeOnce (follow : Bool) (answer : ReceivedFetch) (position : Int) : ConsumerRound :=
  if answer.error = ErrorCode.offsetOutOfRange.number then
    if position < answer.logStartOffset then
      .goesOn answer.logStartOffset [] [(position, answer.logStartOffset)]
    else .returns 1
  else if answer.error ≠ ErrorCode.none.number then .returns 1
  else if answer.records = [] then
    if follow then .goesOn position [] [] else .returns 0
  else
    match printBatches answer.records position with
    | .error _ => .throws
    | .ok printing => .goesOn printing.offset printing.printed []

inductive ConsumeState where
  | resolving
  | asking (position : Int)
  | fetched (position : Int) (answer : ReceivedFetch)
  | returned (position : Int) (exitCode : Nat)
  | threw (position : Int)

def ConsumeState.position : ConsumeState → Option Int
  | .asking position | .fetched position _ | .returned position _ | .threw position => some position
  | .resolving => none

/-- What a reply makes of a consumer: above the limit of a frame it throws. -/
def ConsumeState.ofReply (topic : Bytes) (position : Int) (fetched : FetchedPartition) : ConsumeState :=
  match Client.takes (fetchReplyBytes topic fetched.answer.records.length) with
  | .error _ => .threw position
  | .ok () => .fetched position fetched.received

/-- The broker, what the producers have seen acknowledged, line by line, and the
consumer with its output and where it started. -/
structure Terminals where
  context : BrokerContext
  sent : List Printed := []
  consumer : ConsumeState := .resolving
  start : Int := 0
  printed : List Printed := []
  deleted : List (Int × Int) := []

inductive TerminalAction where
  | broker (action : BrokerAction)
  | send (header : Bytes) (nowMs : Int) (line : Bytes) (io : RequestIo)
  | resolve
  | fetch
  | print

structure ConsumerOptions where
  startAt : StartAt
  follow : Bool

namespace Terminals

/-- The producer shows the offset of an answer without an error. -/
def acknowledged (state : Terminals) (line : Bytes) (answered : Option ProducedPartition) : List Printed :=
  match answered with
  | some given => if given.error = .none then state.sent ++ [⟨given.baseOffset, line⟩] else state.sent
  | none => state.sent

def told (state : Terminals) (position : Int) : ConsumerRound → Terminals
  | .goesOn next printed deleted =>
      { state with
        consumer := .asking next
        printed := state.printed ++ printed
        deleted := state.deleted ++ deleted }
  | .returns exitCode => { state with consumer := .returned position exitCode }
  | .throws => { state with consumer := .threw position }

def step (tp : TopicPartition) (options : ConsumerOptions) : TerminalAction → Terminals → Option Terminals
  | .broker action, state => (action.step state.context).map fun context => { state with context := context }
  | .send header nowMs line io, state =>
      (produceLine tp header nowMs line io state.context).map fun answered =>
        { state with context := answered.2, sent := state.acknowledged line answered.1 }
  | .resolve, state =>
      match state.consumer with
      | .resolving => do
          let (resolved, context) ← resolveStart tp options.startAt state.context
          match resolved with
          | none => return { state with context := context, consumer := .threw state.start }
          | some start => return { state with context := context, consumer := .asking start, start := start }
      | _ => none
  | .fetch, state =>
      match state.consumer with
      | .asking position => do
          let (fetched, context) ← state.context.fetchPartition tp.topic ⟨tp.partition, position, kFetchBytes⟩
          return { state with context := context, consumer := .ofReply tp.topic position fetched }
      | _ => none
  | .print, state =>
      match state.consumer with
      | .fetched position answer => some (state.told position (consumeOnce options.follow answer position))
      | _ => none

/-- Other producers send batches that can be read. A line is short enough for the
lengths of its batch, the clock is an int64, and the write of its batch does not fail. -/
def Admits (tp : TopicPartition) (state : Terminals) : TerminalAction → Prop
  | .broker action => action.Admits tp ProducesReadable state.context
  | .send _ nowMs line io => line.length + 97 < 2 ^ 31 ∧ FitsSigned 64 nowMs ∧ (io.entries 0 0).fault = none
  | _ => True

end Terminals

/-- What `printf` makes of a line. -/
def Printed.shown (line : Printed) : Printed := ⟨line.offset, untilNul line.value⟩

def Reported (deleted : List (Int × Int)) (offset : Int) : Prop :=
  ∃ gap ∈ deleted, gap.1 ≤ offset ∧ offset < gap.2

structure StoresLine (log : Log) (line : Printed) (batch : Bytes) : Prop where
  remembers : log.Remembers batch
  base : baseOf batch = line.offset
  last : lastOf batch = line.offset
  alone : ∃ record, recordsOf batch = [record] ∧ LogRecord.printed record = line.shown

/-- The lines are stored in the order of their acknowledgements. -/
structure SentHolds (sent : List Printed) (log : Log) : Prop where
  rising : sent.Pairwise (·.offset < ·.offset)
  stored : ∀ line ∈ sent, ∃ batch, StoresLine log line batch

/-- What the output of a consumer at a position says of the lines that were sent. -/
structure Told (startAt : StartAt) (sent : List Printed) (start : Int) (printed : List Printed)
    (deleted : List (Int × Int)) (log : Log) (position : Int) : Prop where
  onward : start ≤ position
  within : position ≤ log.logEndOffset ∨
    startAt = .offset position ∧ position = start ∧ printed = [] ∧ deleted = []
  aligned : printed = [] ∧ deleted = [] ∨
    ∀ batch ∈ log.batches, position ≤ lastOf batch → position ≤ baseOf batch
  rising : printed.Pairwise (·.offset < ·.offset)
  below : ∀ line ∈ printed, line.offset < position
  typed : ∀ line ∈ printed, ∀ known ∈ sent, known.offset = line.offset → line = known.shown ∧
    start ≤ known.offset
  complete : ∀ known ∈ sent, start ≤ known.offset → known.offset < position →
    known.shown ∈ printed ∨ Reported deleted known.offset
  apart : ∀ line ∈ printed, ¬Reported deleted line.offset
  reported : ∀ gap ∈ deleted, gap.2 ≤ position
  gone : ∀ gap ∈ deleted, gap.2 ≤ log.logStartOffset

section Telling

variable {startAt : StartAt} {sent printed : List Printed} {start position : Int} {deleted : List (Int × Int)}
  {log next : Log}

theorem Told.grows (holds : ConsumeHolds log) (nextHolds : ConsumeHolds next) (grows : log.Grows next)
    (told : Told startAt sent start printed deleted log position) :
    Told startAt sent start printed deleted next position where
  onward := told.onward
  within := by
    have ends := (grows_keeps holds.toWholeHolds nextHolds.toWholeHolds grows).2.1
    rcases told.within with inside | apart
    · exact .inl (le_trans inside ends)
    · exact .inr apart
  aligned := by
    rcases told.within with inside | ⟨-, -, nothing⟩
    · rcases told.aligned with nothing | aligned
      · exact .inl nothing
      · right
        intro batch member reaches
        rcases grows_member grows member with old | new
        · exact aligned batch old reaches
        · exact le_trans inside new
    · exact .inl nothing
  rising := told.rising
  below := told.below
  typed := told.typed
  complete := told.complete
  apart := told.apart
  reported := told.reported
  gone := by
    have starts := (grows_keeps holds.toWholeHolds nextHolds.toWholeHolds grows).1
    exact fun gap isGap => le_trans (told.gone gap isGap) starts

/-- A line that is acknowledged at the end of the log is in front of no position. -/
theorem Told.acknowledge {line : Printed} (atEnd : line.offset = log.logEndOffset)
    (told : Told startAt sent start printed deleted log position) :
    Told startAt (sent ++ [line]) start printed deleted log position where
  onward := told.onward
  within := told.within
  aligned := told.aligned
  rising := told.rising
  below := told.below
  typed := by
    intro shown member known isKnown same
    rcases List.mem_append.mp isKnown with old | new
    · exact told.typed shown member known old same
    · rw [List.mem_singleton.mp new] at same
      have inFront := told.below shown member
      rcases told.within with inside | ⟨-, -, nothing, -⟩
      · omega
      · rw [nothing] at member
        cases member
  complete := by
    intro known isKnown from_ inFront
    rcases List.mem_append.mp isKnown with old | new
    · exact told.complete known old from_ inFront
    · rw [List.mem_singleton.mp new] at from_ inFront
      rcases told.within with inside | ⟨-, same, -⟩ <;> omega
  apart := told.apart
  reported := told.reported
  gone := told.gone

theorem told_at_start (within : start ≤ log.logEndOffset ∨ startAt = .offset start) :
    Told startAt sent start [] [] log start where
  onward := le_rfl
  within := within.imp id fun given => ⟨given, rfl, rfl, rfl⟩
  aligned := .inl ⟨rfl, rfl⟩
  rising := .nil
  below := by simp
  typed := by simp
  complete := by
    intro known _ from_ inFront
    omega
  apart := by simp
  reported := by simp
  gone := by simp

theorem Told.skip (holds : ConsumeHolds log) (told : Told startAt sent start printed deleted log position)
    (below : position < log.logStartOffset) :
    Told startAt sent start printed (deleted ++ [(position, log.logStartOffset)]) log log.logStartOffset := by
  rcases log_consecutive holds.tiled with ⟨consecutive, reaches⟩
  have ordered := start_le_end consecutive.ascending
  rw [reaches] at ordered
  have all_gone : ∀ gap ∈ deleted ++ [(position, log.logStartOffset)], gap.2 ≤ log.logStartOffset := by
    intro gap isGap
    rcases List.mem_append.mp isGap with old | new
    · exact told.gone gap old
    · rw [List.mem_singleton.mp new]
  refine ⟨le_trans told.onward below.le, .inl ordered, .inr ?_, told.rising, ?_, told.typed, ?_, ?_, all_gone, all_gone⟩
  · intro batch member _
    exact (start_le_base consecutive.ascending member).1
  · intro line member
    exact lt_trans (told.below line member) below
  · intro known isKnown from_ inFront
    by_cases reached : known.offset < position
    · rcases told.complete known isKnown from_ reached with shown | ⟨gap, isGap, goesOver⟩
      · exact .inl shown
      · exact .inr ⟨gap, List.mem_append_left _ isGap, goesOver⟩
    · exact .inr ⟨_, List.mem_append_right _ (List.mem_singleton.mpr rfl), Int.not_lt.mp reached, inFront⟩
  · rintro line member ⟨gap, isGap, low, high⟩
    rcases List.mem_append.mp isGap with old | new
    · exact told.apart line member ⟨gap, old, low, high⟩
    · rw [List.mem_singleton.mp new] at low
      have inFront := told.below line member
      simp only at low
      omega

theorem Told.round (holds : ConsumeHolds log) (stored : SentHolds sent log)
    (told : Told startAt sent start printed deleted log position) {batches : List Bytes}
    (starts : log.logStartOffset ≤ position) (takes : RoundTakes log position batches) :
    Told startAt sent start (printed ++ (batches.flatMap recordsOf).map LogRecord.printed) deleted log
      (endOffset position batches) := by
  rcases log_consecutive holds.tiled with ⟨consecutive, -⟩
  -- a line that is shown is a record of one of the batches
  have shown : ∀ line ∈ (batches.flatMap recordsOf).map LogRecord.printed, ∃ batch ∈ batches,
      ∃ record ∈ recordsOf batch, LogRecord.printed record = line ∧ baseOf batch ≤ line.offset ∧
        line.offset ≤ lastOf batch := by
    intro line member
    rcases List.mem_map.mp member with ⟨record, inRound, rfl⟩
    rcases List.mem_flatMap.mp inRound with ⟨batch, isBatch, inside⟩
    exact ⟨batch, isBatch, record, inside, rfl,
      record_within (holds.readable batch (takes.taken batch isBatch).1) inside⟩
  -- once something was printed or reported, the round begins at its position
  have above : ∀ line ∈ (batches.flatMap recordsOf).map LogRecord.printed,
      printed = [] ∧ deleted = [] ∨ position ≤ line.offset := by
    intro line member
    rcases shown line member with ⟨batch, isBatch, -, -, -, base, -⟩
    rcases told.aligned with nothing | aligned
    · exact .inl nothing
    · have taken := takes.taken batch isBatch
      exact .inr (le_trans (aligned batch taken.1 taken.2.1) base)
  refine ⟨le_trans told.onward takes.forward.le, .inl takes.within, .inr ?_, ?_, ?_, ?_, ?_, ?_, ?_, told.gone⟩
  · intro batch member reaches
    rcases takes.all batch member (le_trans takes.forward.le reaches) with inRound | behind
    · have ends := (takes.taken batch inRound).2.2
      omega
    · exact behind
  · refine List.pairwise_append.mpr ⟨told.rising, ?_, ?_⟩
    · rw [List.pairwise_map]
      have formed : ∀ batch ∈ log.batches, FormedBatch batch := by
        intro batch member
        have wellFormed := holds.readable batch member
        exact ⟨wellFormed.toIntactBatch, fun _ => ⟨_, wellFormed⟩⟩
      exact (ascending_records consecutive.ascending formed).sublist (takes.sub.flatMap recordsOf)
    · intro early isEarly late isLate
      have inFront := told.below early isEarly
      rcases above late isLate with ⟨nothing, -⟩ | further
      · rw [nothing] at isEarly
        cases isEarly
      · omega
  · intro line member
    rcases List.mem_append.mp member with old | new
    · exact lt_trans (told.below line old) takes.forward
    · rcases shown line new with ⟨batch, isBatch, -, -, -, -, last⟩
      have ends := (takes.taken batch isBatch).2.2
      omega
  · intro line member known isKnown same
    rcases List.mem_append.mp member with old | new
    · exact told.typed line old known isKnown same
    · rcases shown line new with ⟨batch, isBatch, record, inside, isRecord, base, last⟩
      have taken := takes.taken batch isBatch
      rcases stored.stored known isKnown with ⟨own, stores⟩
      rcases stores.remembers.kept with there | gone
      · have sameBatch : own = batch := by
          have isOwn : baseOf own ≤ known.offset ∧ known.offset ≤ lastOf own := by
            rw [stores.base, stores.last]
            exact ⟨le_rfl, le_rfl⟩
          exact same_batch consecutive.ascending there taken.1 isOwn (by rw [same]; exact ⟨base, last⟩)
        subst sameBatch
        rcases stores.alone with ⟨only, isAlone, isKnownLine⟩
        rw [isAlone, List.mem_singleton] at inside
        have equal : line = known.shown := by rw [← isRecord, inside, isKnownLine]
        have reaches := taken.2.1
        rw [stores.last] at reaches
        exact ⟨equal, le_trans told.onward reaches⟩
      · have begins := (start_le_base consecutive.ascending taken.1).1
        rw [stores.last] at gone
        omega
  · intro known isKnown from_ inFront
    by_cases reached : known.offset < position
    · rcases told.complete known isKnown from_ reached with shown | gap
      · exact .inl (List.mem_append_left _ shown)
      · exact .inr gap
    · left
      apply List.mem_append_right
      rcases stored.stored known isKnown with ⟨own, stores⟩
      rcases stores.remembers.kept with there | gone
      · rcases takes.all own there (by rw [stores.last]; exact Int.not_lt.mp reached) with inRound | behind
        · rcases stores.alone with ⟨only, isAlone, isKnownLine⟩
          refine List.mem_map.mpr ⟨only, List.mem_flatMap.mpr ⟨own, inRound, ?_⟩, isKnownLine⟩
          rw [isAlone]
          exact List.mem_singleton_self _
        · rw [stores.base] at behind
          omega
      · rw [stores.last] at gone
        omega
  · intro line member isReported
    rcases List.mem_append.mp member with old | new
    · exact told.apart line old isReported
    · rcases isReported with ⟨gap, isGap, -, high⟩
      have ends := told.reported gap isGap
      rcases above line new with ⟨-, nothing⟩ | further
      · rw [nothing] at isGap
        cases isGap
      · omega
  · intro gap isGap
    exact le_trans (told.reported gap isGap) takes.forward.le

end Telling

section Rounds

variable {log : Log} {position : Int}

theorem consume_once_cases (holds : ConsumeHolds log) {fetched : FetchedPartition} {partition : Int} {maxBytes : Nat}
    (answer : fetched.answer = fetchAnswer ⟨partition, position, maxBytes⟩ log.highWatermark log.logStartOffset
      (log.read position maxBytes))
    (records : fetched.records = log.rangeBytes position fetched.answer.records) (follow : Bool) :
    (position < log.logStartOffset ∧ consumeOnce follow fetched.received position =
        .goesOn log.logStartOffset [] [(position, log.logStartOffset)]) ∨
      (log.logEndOffset < position ∧ consumeOnce follow fetched.received position = .returns 1) ∨
      (position = log.logEndOffset ∧ consumeOnce follow fetched.received position =
        if follow then .goesOn position [] [] else .returns 0) ∨
      (log.logStartOffset ≤ position ∧ ∃ batches, RoundTakes log position batches ∧
        consumeOnce follow fetched.received position =
          .goesOn (endOffset position batches) ((batches.flatMap recordsOf).map LogRecord.printed) [] ∧
        ∀ topic, AnswersFit topic log maxBytes position ↔ ReplyFits topic fetched.answer.records.length ∧
          AnswersFit topic log maxBytes (endOffset position batches)) := by
  rcases log_consecutive holds.tiled with ⟨consecutive, reaches⟩
  have ordered := start_le_end consecutive.ascending
  rw [reaches] at ordered
  by_cases below : position < log.logStartOffset
  · have read := read_below_start holds.toWholeHolds below maxBytes
    refine .inl ⟨below, ?_⟩
    simp [consumeOnce, FetchedPartition.received, answer, fetchAnswer, read, errorCodeFor, below]
  by_cases beyond : log.logEndOffset < position
  · have read : log.read position maxBytes = .ok ⟨.aboveLogEnd, {}⟩ := by rw [Log.read, if_pos beyond]
    refine .inr (.inl ⟨beyond, ?_⟩)
    simp [consumeOnce, FetchedPartition.received, answer, fetchAnswer, read, errorCodeFor, below]
  by_cases atEnd : position = log.logEndOffset
  · subst atEnd
    have read : log.read log.logEndOffset maxBytes = .ok ⟨.none, {}⟩ := by simp [Log.read]
    have fine : fetched.answer.error = .none ∧ fetched.records = [] := by
      rw [records, answer]
      simp [fetchAnswer, read, errorCodeFor, no_bytes]
    refine .inr (.inr (.inl ⟨rfl, ?_⟩))
    simp [consumeOnce, FetchedPartition.received, fine, ErrorCode.number]
  · have intact : ∀ batch ∈ log.batches, IntactBatch batch :=
      fun batch member => (holds.readable batch member).toIntactBatch
    have inside : position < log.logEndOffset := by omega
    rcases read_round holds.tiled intact (Int.not_lt.mp below) inside maxBytes with ⟨range, answered, bytes, round⟩
    have readable : ∀ batch ∈ answered, Readable batch :=
      fun batch member => holds.readable batch (round.held batch member)
    have prints := print_batches_spec readable bytes position
    have something := round.something intact
    have fine : fetched.answer.error = .none ∧ fetched.records = answered.flatten.take bytes := by
      rw [records, answer]
      simp [fetchAnswer, round.read, errorCodeFor, round.answer]
    have replied : fetched.answer.records.length = range.length := by simp [answer, fetchAnswer, round.read]
    refine .inr (.inr (.inr ⟨Int.not_lt.mp below, fitting bytes answered, round.takes holds, ?_,
      replied ▸ round.fits⟩))
    simp only [consumeOnce, FetchedPartition.received, fine, ErrorCode.number, something, prints]
    simp

end Rounds

section Lines

variable {tp : TopicPartition} {nowMs : Int} {line : Bytes}

def lineRecord (nowMs : Int) (line : Bytes) : LogRecord := ⟨0, nowMs, none, some line, []⟩

theorem line_batch_built (short : line.length + 97 < 2 ^ 31) (clock : FitsSigned 64 nowMs) :
    ∃ batch, lineBatch nowMs line = .ok batch ∧ batch.length < 2 ^ 31 ∧ baseOf batch = 0 ∧
      WellFormedBatch batch [lineRecord nowMs line] := by
  have bound : recordBound (lineRecord nowMs line) = 36 + line.length := by simp [recordBound, lineRecord]
  have small : kBatchHeaderSize + recordBound (lineRecord nowMs line) < 2 ^ 31 := by
    have header : kBatchHeaderSize = 61 := rfl
    omega
  have fit : RecordsFit 0 ([] ++ [lineRecord nowMs line]) := by
    refine ⟨by simp, by simp [lineRecord], by simp [lineRecord], by simpa [lineRecord] using clock, ?_⟩
    simpa using small
  rcases append_at_holds (builder_holds_fresh 0) fit with ⟨builder, appended, holds⟩
  have delta : asSigned 32 (asUnsigned 32 ((lineRecord nowMs line).offset - 0)) = 0 := by
    simp only [lineRecord]
    decide
  rw [delta] at appended
  have occupied : ([] ++ [lineRecord nowMs line] : List LogRecord) ≠ [] := by simp
  have fits := builder_header_fits holds fit occupied
  have count : builder.count ≠ 0 := by
    rw [holds.count]
    simp
  have size := holds.size
  simp only [List.nil_append, List.map_cons, List.map_nil, List.sum_cons, List.sum_nil] at size
  refine ⟨builtBytes builder, ?_, ?_, ?_, built_well_formed holds fit occupied⟩
  · have first : ({} : RecordBatchBuilder).append nowMs none (some line) [] = .ok builder := appended
    simp only [lineBatch, first, except_ok_bind]
    exact build_eq builder count
  · rw [built_length]
    omega
  · rw [baseOf, header_of_built builder fits]

theorem line_request_decodes (named : StorableName tp) {batch : Bytes} (built : lineBatch nowMs line = .ok batch)
    (small : batch.length < 2 ^ 31) (header : Bytes) :
    ∃ body place rest, lineRequest tp nowMs line = .ok body ∧
      decodeProduceRequest ⟨header.length, body⟩ =
        .ok (⟨1, 0, [⟨tp.topic, [⟨tp.partition, batch, place⟩]⟩]⟩, rest) ∧
      mutableBatch ⟨tp.partition, batch, place⟩ (header ++ body) = .ok batch := by
  have fits : ProduceRequest.Fits { topics := [⟨tp.topic, [⟨tp.partition, batch, 0⟩]⟩] } := by
    have numbered : FitsSigned 32 tp.partition := by
      have low := named.numbered
      have high := named.bounded
      constructor <;> omega
    refine ⟨(by decide : FitsSigned 16 1), (by decide : FitsSigned 32 0), by simp [CountFits], ?_, ?_⟩
    · simpa using named.short
    · simpa [CountFits] using ⟨numbered, small⟩
  rcases (produce_request_round_trips fits).reads_back produce_request_reads.looked with ⟨body, wrote, reads, -⟩
  rw [encode_anywhere] at wrote
  have back := reads header.length []
  rw [List.append_nil] at back
  rcases PrefixCodec.seen_ok back with ⟨⟨acks, timeoutMs, topics⟩, decoded, same⟩
  -- what is decoded is what was asked, with the batch somewhere in the frame
  simp only [ProduceRequest.anywhere, ProduceRequest.mk.injEq, List.map_cons, List.map_nil] at same
  rcases same with ⟨rfl, rfl, one⟩
  rcases List.map_eq_singleton_iff.mp one with ⟨⟨name, partitions⟩, rfl, isTopic⟩
  simp only [TopicOf.over, TopicOf.mk.injEq, List.map_cons, List.map_nil] at isTopic
  rcases isTopic with ⟨rfl, alone⟩
  rcases List.map_eq_singleton_iff.mp alone with ⟨⟨partition, bytes, place⟩, rfl, isAsked⟩
  simp only [ProduceAsked.anywhere, ProduceAsked.mk.injEq, and_true] at isAsked
  rcases isAsked with ⟨rfl, rfl⟩
  have stands : StandsIn (header ++ body) ⟨header.length, body⟩ := ⟨by simp, by simp⟩
  have laid := decode_produce_laid stands decoded
  refine ⟨body, place, _, ?_, decoded, Finds.mutable ⟨laid.upper _ ?_, laid.holds _ ?_⟩⟩
  · simp only [lineRequest, built, except_ok_bind]
    exact wrote
  · simp
  · simp

end Lines

/-- A consumer that returns has nothing more to print, or was started past the end. -/
def ConsumerRound.Stands (startAt : StartAt) (state : Terminals) (log : Log) (position : Int) : ConsumerRound → Prop
  | .goesOn next printed deleted =>
      Told startAt state.sent state.start (state.printed ++ printed) (state.deleted ++ deleted) log next
  | .returns exitCode => exitCode = 0 ∨
      startAt = .offset position ∧ position = state.start ∧ state.printed = [] ∧ state.deleted = []
  | .throws => False

/-- A batch has been stored that no reply can carry. -/
def HasOversized (topic : Bytes) (log : Log) : Prop :=
  ∃ batch, log.Remembers batch ∧ ¬ ReplyFits topic batch.length

def ConsumeState.Stands (topic : Bytes) (options : ConsumerOptions) (state : Terminals) (log : Log) :
    ConsumeState → Prop
  | .resolving => state.printed = [] ∧ state.deleted = []
  | .asking position => Told options.startAt state.sent state.start state.printed state.deleted log position
  | .fetched position answer => Told options.startAt state.sent state.start state.printed state.deleted log position ∧
      (consumeOnce options.follow answer position).Stands options.startAt state log position
  | .returned position exitCode =>
      Told options.startAt state.sent state.start state.printed state.deleted log position ∧
      (ConsumerRound.returns exitCode).Stands options.startAt state log position
  | .threw position => Told options.startAt state.sent state.start state.printed state.deleted log position ∧
      HasOversized topic log

def Terminals.Holds (tp : TopicPartition) (options : ConsumerOptions) (state : Terminals) : Prop :=
  state.context.Keeps tp fun log => ConsumeHolds log ∧ SentHolds state.sent log ∧
    state.consumer.Stands tp.topic options state log

section Standing

variable {options : ConsumerOptions} {state : Terminals} {log next : Log}

theorem SentHolds.grows {sent : List Printed} (holds : ConsumeHolds log) (nextHolds : ConsumeHolds next)
    (grows : log.Grows next) (stored : SentHolds sent log) : SentHolds sent next where
  rising := stored.rising
  stored := by
    intro line member
    rcases stored.stored line member with ⟨batch, stores⟩
    exact ⟨batch, remembers_grows holds.toWholeHolds nextHolds.toWholeHolds grows stores.remembers, stores.base,
      stores.last, stores.alone⟩

theorem ConsumerRound.Stands.grows {position : Int} {round : ConsumerRound} (holds : ConsumeHolds log)
    (nextHolds : ConsumeHolds next) (grows : log.Grows next)
    (stands : round.Stands options.startAt state log position) : round.Stands options.startAt state next position := by
  cases round with
  | goesOn => exact Told.grows holds nextHolds grows stands
  | returns => exact stands
  | throws => exact stands

theorem ConsumeState.Stands.grows {topic : Bytes} {consumer : ConsumeState} (holds : ConsumeHolds log)
    (nextHolds : ConsumeHolds next) (grows : log.Grows next) (stands : consumer.Stands topic options state log) :
    consumer.Stands topic options state next := by
  cases consumer with
  | resolving => exact stands
  | asking => exact Told.grows holds nextHolds grows stands
  | fetched | returned =>
      exact ⟨Told.grows holds nextHolds grows stands.1, ConsumerRound.Stands.grows holds nextHolds grows stands.2⟩
  | threw =>
      rcases stands with ⟨told, batch, remembers, large⟩
      exact ⟨told.grows holds nextHolds grows, batch,
        remembers_grows holds.toWholeHolds nextHolds.toWholeHolds grows remembers, large⟩

theorem ConsumerRound.Stands.acknowledge {position : Int} {round : ConsumerRound} {line : Printed}
    (atEnd : line.offset = log.logEndOffset) (stands : round.Stands options.startAt state log position) :
    round.Stands options.startAt { state with sent := state.sent ++ [line] } log position := by
  cases round with
  | goesOn => exact Told.acknowledge atEnd stands
  | returns => exact stands
  | throws => exact stands

theorem ConsumeState.Stands.acknowledge {topic : Bytes} {consumer : ConsumeState} {line : Printed}
    (atEnd : line.offset = log.logEndOffset) (stands : consumer.Stands topic options state log) :
    consumer.Stands topic options { state with sent := state.sent ++ [line] } log := by
  cases consumer with
  | resolving => exact stands
  | asking => exact Told.acknowledge atEnd stands
  | fetched | returned => exact ⟨Told.acknowledge atEnd stands.1, ConsumerRound.Stands.acknowledge atEnd stands.2⟩
  | threw => exact ⟨Told.acknowledge atEnd stands.1, stands.2⟩

/-- What the answer of the broker makes of a consumer is in order. -/
theorem round_stands {position : Int} (holds : ConsumeHolds log) (stored : SentHolds state.sent log)
    (told : Told options.startAt state.sent state.start state.printed state.deleted log position)
    {fetched : FetchedPartition} {partition : Int} {maxBytes : Nat}
    (answer : fetched.answer = fetchAnswer ⟨partition, position, maxBytes⟩ log.highWatermark log.logStartOffset
      (log.read position maxBytes))
    (records : fetched.records = log.rangeBytes position fetched.answer.records) :
    (consumeOnce options.follow fetched.received position).Stands options.startAt state log position := by
  rcases consume_once_cases holds answer records options.follow with
    ⟨below, once⟩ | ⟨beyond, once⟩ | ⟨-, once⟩ | ⟨starts, batches, takes, once, -⟩
  · rw [once]
    simpa [ConsumerRound.Stands] using told.skip holds below
  · rw [once]
    rcases told.within with inside | apart
    · omega
    · exact .inr apart
  · rw [once]
    cases options.follow with
    | true => simpa [ConsumerRound.Stands] using told
    | false => exact .inl rfl
  · rw [once]
    simpa [ConsumerRound.Stands] using told.round holds stored starts takes

theorem remembers_held (holds : ConsumeHolds log) {batch : Bytes} (member : batch ∈ log.batches) :
    log.Remembers batch := by
  rcases log_consecutive holds.tiled with ⟨consecutive, reaches⟩
  exact ⟨.inl member, reaches ▸ last_lt_end consecutive.ascending member⟩

theorem oversized_of_refused (holds : ConsumeHolds log) {position : Int} {fetched : FetchedPartition} {partition : Int}
    (answer : fetched.answer = fetchAnswer ⟨partition, position, kFetchBytes⟩ log.highWatermark log.logStartOffset
      (log.read position kFetchBytes))
    {topic : Bytes} (short : topic.length < 2 ^ 15) (refused : ¬ ReplyFits topic fetched.answer.records.length) :
    HasOversized topic log := by
  by_contra none
  refine refused (answer_fits holds answer short ((answers_fit_short short le_rfl).mpr ?_))
  intro batch member _
  by_contra large
  exact none ⟨batch, remembers_held holds member, large⟩

end Standing

section Steps

variable {tp : TopicPartition} {options : ConsumerOptions} {state next : Terminals}

theorem broker_moves (data : tp.topic ≠ kOffsetsTopic) (holds : state.Holds tp options) {action : BrokerAction}
    {context : BrokerContext} (admitted : action.Admits tp ProducesReadable state.context)
    (taken : action.step state.context = some context) :
    ({ state with context := context } : Terminals).Holds tp options := by
  have lasting : Lasting fun log => SentHolds state.sent log ∧ state.consumer.Stands tp.topic options state log := by
    rintro log next logHolds nextHolds grows ⟨stored, stands⟩
    exact ⟨stored.grows logHolds nextHolds grows, stands.grows logHolds nextHolds grows⟩
  exact broker_action_keeps data (lasting_log_keeps lasting) holds admitted taken

/-- What a line comes to at the broker: one entry of a Produce request, unless that is
above the limit. -/
theorem produce_line_entry (named : StorableName tp) {header line : Bytes} {nowMs : Int} {io : RequestIo}
    {context after : BrokerContext} {answered : Option ProducedPartition} (short : line.length + 97 < 2 ^ 31)
    (clock : FitsSigned 64 nowMs) (taken : produceLine tp header nowMs line io context = some (answered, after)) :
    (answered = none ∧ after = context) ∨ ∃ frame batch place given, answered = some given ∧
      context.producePartition frame tp.topic (⟨tp.partition, batch, place⟩, io.entries 0 0) = some (given, after) ∧
      mutableBatch ⟨tp.partition, batch, place⟩ frame = .ok batch ∧ baseOf batch = 0 ∧
      WellFormedBatch batch [lineRecord nowMs line] := by
  rcases line_batch_built short clock with ⟨batch, built, small, base, formed⟩
  rcases line_request_decodes named built small header with ⟨body, place, rest, request, decoded, isBatch⟩
  simp only [produceLine, request, decoded] at taken
  split at taken
  · cases taken
    exact .inl ⟨rfl, rfl⟩
  right
  rcases Option.map_eq_some_iff.mp taken with ⟨⟨topics, left⟩, answers, made⟩
  simp only [RequestIo.besides, List.mapIdx_cons, List.mapIdx_nil, answerTopics, StatefulLoop.eachOf,
    answerTopic] at answers
  rcases Option.bind_eq_some_iff.mp answers with ⟨⟨topic, afterTopic⟩, answersTopic, endsTopics⟩
  rcases Option.bind_eq_some_iff.mp answersTopic with ⟨⟨answer, afterAnswer⟩, answersEach, endsTopic⟩
  rcases Option.bind_eq_some_iff.mp answersEach with ⟨⟨given, afterGiven⟩, entered, endsEach⟩
  cases endsEach
  cases endsTopic
  cases endsTopics
  cases made
  exact ⟨header ++ body, batch, place, given, rfl, entered, isBatch, base, formed⟩

theorem stored_line {log : Log} {batch : Bytes} {nowMs offset : Int} {line : Bytes} (base : baseOf batch = 0)
    (formed : WellFormedBatch batch [lineRecord nowMs line]) (based : baseOf (stamped batch offset) = offset)
    (remembers : log.Remembers (stamped batch offset)) : StoresLine log ⟨offset, line⟩ (stamped batch offset) := by
  have range : FitsSigned 64 offset := by
    rw [← based, base_of_stamped]
    exact as_signed_fits 64 _ (by norm_num) (as_unsigned_lt 64 offset)
  have moved := formed.stamp offset range
  have front : (headerOf batch).baseOffset = 0 := base
  rw [front] at moved
  have record : recordsOf (stamped batch offset) = [(lineRecord nowMs line).shift offset] := by
    simpa using records_of_formed moved
  refine ⟨remembers, based, ?_, _, record, ?_⟩
  · rcases moved.last with ⟨last, isLast, ends⟩
    simp only [List.map_cons, List.map_nil, List.getLast?_singleton, Option.mem_def, Option.some.injEq] at isLast
    rw [lastOf, ← ends, ← isLast]
    simp [lineRecord, LogRecord.shift]
  · simp [LogRecord.printed, Printed.shown, lineRecord, LogRecord.shift]

theorem send_moves (data : tp.topic ≠ kOffsetsTopic) (named : StorableName tp) (holds : state.Holds tp options)
    {header line : Bytes} {nowMs : Int} {io : RequestIo} {after : BrokerContext} {answered : Option ProducedPartition}
    (admitted : state.Admits tp (.send header nowMs line io))
    (taken : produceLine tp header nowMs line io state.context = some (answered, after)) :
    ({ state with context := after, sent := state.acknowledged line answered } : Terminals).Holds tp options := by
  rcases admitted with ⟨short, clock, faultless⟩
  rcases produce_line_entry named short clock taken with
    ⟨rfl, rfl⟩ | ⟨frame, batch, place, given, rfl, entered, isBatch, base, formed⟩
  · exact holds
  have readable : Readable batch := by
    rw [Readable, records_of_formed formed]
    exact formed
  have allowed : BrokerAction.Admits tp ProducesReadable state.context
      (.produce frame tp.topic (⟨tp.partition, batch, place⟩, io.entries 0 0)) := by
    intro _ other isOther _
    rw [isBatch] at isOther
    cases isOther
    exact ⟨readable, faultless⟩
  have moved : BrokerAction.step (.produce frame tp.topic (⟨tp.partition, batch, place⟩,
    io.entries 0 0)) state.context =
      some after := by
    simp only [BrokerAction.step, entered, Option.map_some]
  by_cases accepted : given.error = .none
  · rcases holds.hosted with ⟨log, hosted, consumes, stored, stands⟩
    have plain : BrokerAction.Admits tp LogAction.Plain state.context
        (.produce frame tp.topic (⟨tp.partition, batch, place⟩, io.entries 0 0)) :=
      fun here other isOther checked => (allowed here other isOther checked).plain
    rcases accepted_behind consumes.toWholeHolds hosted plain rfl entered accepted with
      ⟨same, grown, isSame, isEnd, based, grownHosted, -, remembers⟩
    rw [isBatch] at isSame
    cases isSame
    have lasting : Lasting fun log => SentHolds state.sent log ∧
        state.consumer.Stands tp.topic options { state with sent := state.sent ++ [⟨given.baseOffset, line⟩] }
          log := by
      rintro log next logHolds nextHolds grows ⟨known, standing⟩
      exact ⟨known.grows logHolds nextHolds grows, standing.grows logHolds nextHolds grows⟩
    have kept := broker_action_keeps data (lasting_log_keeps lasting)
      ⟨⟨log, hosted, consumes, stored, stands.acknowledge isEnd⟩, holds.whole⟩ allowed moved
    rcases kept.hosted with ⟨again, isAgain, againConsumes, againStored, againStands⟩
    rw [grownHosted] at isAgain
    cases isAgain
    have sent : state.acknowledged line (some given) = state.sent ++ [⟨given.baseOffset, line⟩] := by
      simp [Terminals.acknowledged, accepted]
    rw [sent]
    refine ⟨⟨grown, grownHosted, againConsumes, ⟨?_, ?_⟩, againStands⟩, kept.whole⟩
    · refine List.pairwise_append.mpr ⟨stored.rising, List.pairwise_singleton _ _, ?_⟩
      intro early isEarly late isLate
      rw [List.mem_singleton.mp isLate]
      rcases stored.stored early isEarly with ⟨own, stores⟩
      have behind := stores.remembers.behind
      rw [stores.last] at behind
      simp only [isEnd]
      exact behind
    · intro shown member
      rcases List.mem_append.mp member with old | new
      · exact againStored.stored shown old
      · rw [List.mem_singleton.mp new]
        exact ⟨_, stored_line base formed based remembers⟩
  · have sent : state.acknowledged line (some given) = state.sent := by simp [Terminals.acknowledged, accepted]
    rw [sent]
    exact broker_moves data holds allowed moved

theorem resolve_moves (holds : state.Holds tp options) (there : state.consumer = .resolving) {resolved : Option Int}
    {context : BrokerContext} (taken : resolveStart tp options.startAt state.context = some (resolved, context)) :
    context = state.context ∧ ∃ start, resolved = some start ∧
      ({ state with consumer := .asking start, start := start } : Terminals).Holds tp options := by
  rcases holds.hosted with ⟨log, hosted, consumes, stored, stands⟩
  have nothing : state.printed = [] ∧ state.deleted = [] := by
    rw [there] at stands
    exact stands
  rcases log_consecutive consumes.tiled with ⟨consecutive, reaches⟩
  have ordered := start_le_end consecutive.ascending
  rw [reaches] at ordered
  have starts : ∀ start, start ≤ log.logEndOffset ∨ options.startAt = .offset start →
      ({ state with consumer := .asking start, start := start } : Terminals).Holds tp options := by
    intro start within
    refine ⟨⟨log, hosted, consumes, stored, ?_⟩, holds.whole⟩
    simp only [ConsumeState.Stands, nothing]
    exact told_at_start within
  have listed : context = state.context ∧ ∃ start, resolved = some start ∧
      (start ≤ log.logEndOffset ∨ options.startAt = .offset start) := by
    unfold resolveStart at taken
    split at taken
    · simp [listedOffset, BrokerContext.listPartition, hosted, BrokerContext.logStartOffset, holds.whole] at taken
      rcases taken with ⟨rfl, rfl⟩
      exact ⟨rfl, _, rfl, .inl ordered⟩
    · simp [listedOffset, BrokerContext.listPartition, hosted, kLatestTimestamp, kEarliestTimestamp] at taken
      rcases taken with ⟨rfl, rfl⟩
      exact ⟨rfl, _, rfl, .inl le_rfl⟩
    · next offset isOffset =>
      cases taken
      exact ⟨rfl, offset, rfl, .inr isOffset⟩
  rcases listed with ⟨same, start, isStart, within⟩
  exact ⟨same, start, isStart, starts start within⟩

theorem fetch_moves (short : tp.topic.length < 2 ^ 15) (holds : state.Holds tp options) {position : Int} (there : state.consumer = .asking position)
    {fetched : FetchedPartition} {context : BrokerContext}
    (taken : state.context.fetchPartition tp.topic ⟨tp.partition, position, kFetchBytes⟩ = some (fetched, context)) :
    context = state.context ∧
      ({ state with consumer := .ofReply tp.topic position fetched } : Terminals).Holds tp options := by
  rcases holds.hosted with ⟨log, hosted, consumes, stored, stands⟩
  have told : Told options.startAt state.sent state.start state.printed state.deleted log position := by
    rw [there] at stands
    exact stands
  rcases fetch_partition_view hosted holds.whole position kFetchBytes with ⟨given, answered, answer, records⟩
  rw [taken] at answered
  cases answered
  refine ⟨rfl, ⟨log, hosted, consumes, stored, ?_⟩, holds.whole⟩
  unfold ConsumeState.ofReply
  split
  · next failure refused =>
    refine ⟨told, oversized_of_refused consumes answer short ?_⟩
    intro fits
    rw [takes_iff.mpr fits] at refused
    cases refused
  · exact ⟨told, round_stands consumes stored told answer records⟩

theorem print_moves (holds : state.Holds tp options) {position : Int} {answer : ReceivedFetch}
    (there : state.consumer = .fetched position answer) :
    (state.told position (consumeOnce options.follow answer position)).Holds tp options := by
  rcases holds.hosted with ⟨log, hosted, consumes, stored, stands⟩
  rw [there] at stands
  rcases stands with ⟨told, round⟩
  cases once : consumeOnce options.follow answer position with
  | goesOn further printed deleted =>
      rw [once] at round
      exact ⟨⟨log, hosted, consumes, stored, round⟩, holds.whole⟩
  | returns exitCode =>
      rw [once] at round
      exact ⟨⟨log, hosted, consumes, stored, told, round⟩, holds.whole⟩
  | throws =>
      rw [once] at round
      exact round.elim

theorem terminals_step_holds (data : tp.topic ≠ kOffsetsTopic) (named : StorableName tp)
    (holds : state.Holds tp options)
    {action : TerminalAction} (admitted : state.Admits tp action)
    (taken : Terminals.step tp options action state = some next) : next.Holds tp options := by
  cases action with
  | broker action =>
      rcases Option.map_eq_some_iff.mp taken with ⟨context, moved, rfl⟩
      exact broker_moves data holds admitted moved
  | send header nowMs line io =>
      rcases Option.map_eq_some_iff.mp taken with ⟨⟨answered, after⟩, produced, rfl⟩
      exact send_moves data named holds admitted produced
  | resolve =>
      simp only [Terminals.step] at taken
      split at taken
      · next there =>
        rcases Option.bind_eq_some_iff.mp taken with ⟨⟨resolved, context⟩, answered, moved⟩
        rcases resolve_moves holds there answered with ⟨rfl, start, rfl, nextHolds⟩
        cases moved
        exact nextHolds
      · cases taken
  | fetch =>
      simp only [Terminals.step] at taken
      split at taken
      · next position there =>
        rcases Option.bind_eq_some_iff.mp taken with ⟨⟨fetched, context⟩, answered, moved⟩
        rcases fetch_moves named.short holds there answered with ⟨rfl, nextHolds⟩
        cases moved
        exact nextHolds
      · cases taken
  | print =>
      simp only [Terminals.step] at taken
      split at taken
      · next position answer there =>
        cases taken
        exact print_moves holds there
      · cases taken

end Steps

instance (deleted : List (Int × Int)) (offset : Int) : Decidable (Reported deleted offset) :=
  inferInstanceAs (Decidable (∃ gap ∈ deleted, _ ∧ _))

namespace Terminals

/-- What a consumer has printed at the offsets that producers were shown. -/
def linesOut (state : Terminals) : List Printed :=
  state.printed.filter fun line => state.sent.any fun known => known.offset == line.offset

/-- The lines that were acknowledged between two offsets, as they are shown, without
those that were reported as deleted. -/
def linesIn (state : Terminals) (start position : Int) : List Printed :=
  (state.sent.filter fun line =>
    decide (start ≤ line.offset ∧ line.offset < position ∧ ¬Reported state.deleted line.offset)).map Printed.shown

end Terminals

section Runs

variable {tp : TopicPartition} {options : ConsumerOptions} {started : BrokerContext} {state : Terminals}

theorem rising_offsets_eq {first second : List Printed} (firstRising : first.Pairwise (·.offset < ·.offset))
    (secondRising : second.Pairwise (·.offset < ·.offset)) (same : ∀ line, line ∈ first ↔ line ∈ second) :
    first = second := by
  have irreflexive : Std.Irrefl fun early late : Printed => early.offset < late.offset :=
    ⟨fun _ => lt_irrefl _⟩
  have antisymmetric : Std.Antisymm fun early late : Printed => early.offset < late.offset :=
    ⟨fun _ _ forward backward => absurd forward (lt_asymm backward)⟩
  exact firstRising.eq_of_mem_iff secondRising same

theorem told_lines {log : Log} {position : Int} (stored : SentHolds state.sent log)
    (told : Told options.startAt state.sent state.start state.printed state.deleted log position) :
    state.linesOut = state.linesIn state.start position := by
  have shownRising : (state.linesIn state.start position).Pairwise (·.offset < ·.offset) :=
    List.pairwise_map.mpr (stored.rising.sublist List.filter_sublist)
  apply rising_offsets_eq (told.rising.sublist List.filter_sublist) shownRising
  intro line
  unfold Terminals.linesIn
  simp only [List.mem_map, List.mem_filter, List.any_eq_true, beq_iff_eq, decide_eq_true_eq]
  constructor
  · rintro ⟨printed, known, isKnown, same⟩
    rcases told.typed line printed known isKnown same with ⟨rfl, from_⟩
    exact ⟨known, ⟨isKnown, from_, told.below known.shown printed, told.apart known.shown printed⟩, rfl⟩
  · rintro ⟨known, ⟨isKnown, from_, inFront, kept⟩, rfl⟩
    rcases told.complete known isKnown from_ inFront with printed | gap
    · exact ⟨printed, known, isKnown, rfl⟩
    · exact absurd gap kept

theorem terminals_start (fresh : started.HostsFresh tp) :
    (⟨started, [], .resolving, 0, [], []⟩ : Terminals).Holds tp options := by
  rcases fresh.hosted with ⟨dir, config, log, hosted, named, storable, deletes, made⟩
  rcases created_whole named storable deletes made with ⟨whole, empty⟩
  exact ⟨⟨log, hosted, ⟨whole, by simp [empty]⟩, ⟨.nil, by simp⟩, rfl, rfl⟩, fresh.whole⟩

theorem terminals_run_holds (data : tp.topic ≠ kOffsetsTopic) (fresh : started.HostsFresh tp)
    (reached : Reaches (Terminals.step tp options) (Terminals.Admits tp) { context := started } state) :
    state.Holds tp options := by
  have named : StorableName tp := by
    rcases fresh.hosted with ⟨_, _, _, _, named, _⟩
    exact named
  exact reached.invariant _ _ (fun state => state.Holds tp options) (terminals_start fresh)
    fun _ _ _ holds admitted taken => terminals_step_holds data named holds admitted taken

theorem stands_told {topic : Bytes} {log : Log} {position : Int} (stands : state.consumer.Stands topic options state log)
    (there : state.consumer.position = some position) :
    Told options.startAt state.sent state.start state.printed state.deleted log position := by
  cases isConsumer : state.consumer with
  | resolving =>
      rw [isConsumer] at there
      cases there
  | asking =>
      rw [isConsumer] at there stands
      cases there
      exact stands
  | fetched | returned | threw =>
      rw [isConsumer] at there stands
      cases there
      exact stands.1

/-- What is typed comes out: in every order of what producers, the consumer and the
broker do, the consumer has printed, at the offsets that were shown to the producers,
exactly the lines that were acknowledged there, as far as their first zero byte, once
and in order, from where it started to where it is, except those it has reported as
deleted; and these are. It throws only over a batch that no frame can carry, and it gives
up only if it was told to start from an offset. -/
theorem typed_lines_come_out (data : tp.topic ≠ kOffsetsTopic) (fresh : started.HostsFresh tp)
    (reached : Reaches (Terminals.step tp options) (Terminals.Admits tp) { context := started } state) :
    state.sent.Pairwise (·.offset < ·.offset) ∧ state.printed.Pairwise (·.offset < ·.offset) ∧
      (∀ position, state.consumer.position = some position → state.linesOut = state.linesIn state.start position) ∧
      (∀ position exitCode, state.consumer = .returned position exitCode → exitCode = 0 ∨
        options.startAt = .offset position ∧ state.printed = []) ∧
      ∃ log, state.context.logs.get tp = some log ∧ (∀ gap ∈ state.deleted, gap.2 ≤ log.logStartOffset) ∧
        ∀ position, state.consumer = .threw position → HasOversized tp.topic log := by
  rcases (terminals_run_holds data fresh reached).hosted with ⟨log, hosted, consumes, stored, stands⟩
  have silent : state.consumer.position = none → state.printed = [] ∧ state.deleted = [] := by
    intro nowhere
    cases isConsumer : state.consumer with
    | resolving =>
        rw [isConsumer] at stands
        exact stands
    | asking | fetched | returned | threw =>
        rw [isConsumer] at nowhere
        cases nowhere
  refine ⟨stored.rising, ?_, ?_, ?_, log, hosted, ?_, ?_⟩
  · cases there : state.consumer.position with
    | none =>
        rw [(silent there).1]
        exact .nil
    | some position => exact (stands_told stands there).rising
  · exact fun position there => told_lines stored (stands_told stands there)
  · intro position exitCode returned
    rw [returned] at stands
    rcases stands.2 with zero | ⟨given, -, nothing, -⟩
    · exact .inl zero
    · exact .inr ⟨given, nothing⟩
  · cases there : state.consumer.position with
    | none =>
        rw [(silent there).2]
        simp
    | some position => exact (stands_told stands there).gone
  · intro position threw
    rw [threw] at stands
    exact stands.2

end Runs

def TerminalAction.OfConsumer : TerminalAction → Prop
  | .resolve | .fetch | .print => True
  | .broker _ | .send _ _ _ _ => False

section Alone

variable {tp : TopicPartition} {options : ConsumerOptions} {started : BrokerContext} {state : Terminals}

abbrev ConsumerAlone (tp : TopicPartition) (options : ConsumerOptions) : Terminals → Terminals → Prop :=
  Reaches (Terminals.step tp options) fun _ action => action.OfConsumer

/-- A round of a consumer that asks: it gets on, it returns, or it throws, and that only
where an answer from here on does not fit. -/
theorem asks_once (short : tp.topic.length < 2 ^ 15) (holds : state.Holds tp options) {log : Log}
    (hosted : state.context.logs.get tp = some log) {position : Int} (there : state.consumer = .asking position) :
    ∃ next, ConsumerAlone tp options state next ∧ next.Holds tp options ∧ next.context = state.context ∧
      next.sent = state.sent ∧ next.start = state.start ∧
      ((position < log.logEndOffset ∧ ∃ further, position < further ∧ further ≤ log.logEndOffset ∧
          next.consumer = .asking further ∧
          (AnswersFit tp.topic log kFetchBytes position ↔ AnswersFit tp.topic log kFetchBytes further)) ∨
        (log.logEndOffset < position ∧ next.consumer = .returned position 1) ∨
        (position = log.logEndOffset ∧
          next.consumer = if options.follow then .asking position else .returned position 0) ∨
        (¬ AnswersFit tp.topic log kFetchBytes position ∧ next.consumer = .threw position)) := by
  rcases holds.hosted with ⟨known, isKnown, consumes, stored, stands⟩
  rw [hosted] at isKnown
  cases isKnown
  rcases fetch_partition_view hosted holds.whole position kFetchBytes with ⟨fetched, answered, answer, records⟩
  have asked : Terminals.step tp options .fetch state =
      some { state with consumer := .ofReply tp.topic position fetched } := by
    simp [Terminals.step, there, answered]
  have fetchedHolds := (fetch_moves short holds there answered).2
  have ran : ConsumerAlone tp options state { state with consumer := .ofReply tp.topic position fetched } :=
    .step .start .fetch trivial asked
  cases taken : Client.takes (fetchReplyBytes tp.topic fetched.answer.records.length) with
  | error failure =>
      have thrown : ConsumeState.ofReply tp.topic position fetched = .threw position := by
        simp [ConsumeState.ofReply, taken]
      rw [thrown] at ran fetchedHolds
      refine ⟨_, ran, fetchedHolds, rfl, rfl, rfl, .inr (.inr (.inr ⟨?_, rfl⟩))⟩
      intro fits
      rw [takes_iff.mpr (answer_fits consumes answer short fits)] at taken
      cases taken
  | ok =>
      have small : ReplyFits tp.topic fetched.answer.records.length := takes_iff.mp taken
      have handed : ConsumeState.ofReply tp.topic position fetched = .fetched position fetched.received := by
        simp [ConsumeState.ofReply, taken]
      rw [handed] at ran fetchedHolds
      have printed := print_moves fetchedHolds rfl
      have gone : ConsumerAlone tp options state
          (({ state with consumer := .fetched position fetched.received } : Terminals).told position
            (consumeOnce options.follow fetched.received position)) := .step ran .print trivial rfl
      rcases log_consecutive consumes.tiled with ⟨consecutive, reaches⟩
      have ordered := start_le_end consecutive.ascending
      rw [reaches] at ordered
      rcases consume_once_cases consumes answer records options.follow with
        ⟨below, once⟩ | ⟨beyond, once⟩ | ⟨atEnd, once⟩ | ⟨-, batches, takes, once, fits⟩
      · rw [once] at printed gone
        refine ⟨_, gone, printed, rfl, rfl, rfl, .inl ⟨by omega, _, below, ordered, rfl, ?_⟩⟩
        rw [answers_fit_short short (le_refl kFetchBytes), answers_fit_short short (le_refl kFetchBytes)]
        have all : ∀ batch ∈ log.batches, log.logStartOffset ≤ lastOf batch := fun batch member => by
          rcases start_le_base consecutive.ascending member with ⟨above, spans⟩
          omega
        exact ⟨fun fit batch member _ => fit batch member (le_trans below.le (all batch member)),
          fun fit batch member _ => fit batch member (all batch member)⟩
      · rw [once] at printed gone
        exact ⟨_, gone, printed, rfl, rfl, rfl, .inr (.inl ⟨beyond, rfl⟩)⟩
      · rw [once] at printed gone
        refine ⟨_, gone, printed, ?_, ?_, ?_, .inr (.inr (.inl ⟨atEnd, ?_⟩))⟩
        all_goals cases options.follow <;> rfl
      · rw [once] at printed gone
        have forward := takes.forward
        have within := takes.within
        refine ⟨_, gone, printed, rfl, rfl, rfl, .inl ⟨by omega, _, forward, within, rfl, ?_⟩⟩
        rw [fits tp.topic]
        exact and_iff_right small

/-- The consumer gets to the end of the log, unless it started behind that or an answer
does not fit. -/
theorem asks_to_the_end (short : tp.topic.length < 2 ^ 15) (once : options.follow = false) (left : Nat)
    (holds : state.Holds tp options) {log : Log} (hosted : state.context.logs.get tp = some log) {position : Int}
    (there : state.consumer = .asking position) (enough : log.logEndOffset - position ≤ left) :
    ∃ final, ConsumerAlone tp options state final ∧ final.Holds tp options ∧ final.context = state.context ∧
      final.sent = state.sent ∧ final.start = state.start ∧
      (final.consumer = .returned log.logEndOffset 0 ∧ AnswersFit tp.topic log kFetchBytes position ∨
        log.logEndOffset < position ∧ final.consumer = .returned position 1 ∨
        ¬ AnswersFit tp.topic log kFetchBytes position ∧ ∃ reached, final.consumer = .threw reached) := by
  induction left using Nat.strong_induction_on generalizing state position with
  | _ left ih =>
      rcases asks_once short holds hosted there with ⟨next, ran, nextHolds, context, sent, start,
        ⟨inside, further, forward, within, asks, same⟩ | ⟨beyond, returned⟩ | ⟨atEnd, returned⟩ | ⟨large, threw⟩⟩
      · have fewer : (log.logEndOffset - further).toNat < left := by omega
        rcases ih _ fewer nextHolds (by rw [context, hosted]) asks (Int.self_le_toNat _) with
          ⟨final, gone, finalHolds, finalContext, finalSent, finalStart, ends⟩
        refine ⟨final, ran.trans gone, finalHolds, finalContext.trans context, finalSent.trans sent,
          finalStart.trans start, ?_⟩
        rw [same]
        rcases ends with finished | ⟨past, _⟩ | refused
        · exact .inl finished
        · omega
        · exact .inr (.inr refused)
      · exact ⟨next, ran, nextHolds, context, sent, start, .inr (.inl ⟨beyond, returned⟩)⟩
      · rcases nextHolds.hosted with ⟨known, isKnown, consumes, -⟩
        rw [context, hosted] at isKnown
        cases isKnown
        subst atEnd
        rw [once] at returned
        exact ⟨next, ran, nextHolds, context, sent, start,
          .inl ⟨returned, answers_fit_at_end consumes.tiled short kFetchBytes⟩⟩
      · exact ⟨next, ran, nextHolds, context, sent, start, .inr (.inr ⟨large, _, threw⟩)⟩

/-- Left alone in front of a request, a consumer that does not follow always ends. If
every batch from there on fits into a frame it returns, and has then printed every line
that was acknowledged from where it started on and that retention has left, or it was
told to start behind the end; and otherwise it throws. -/
theorem consumer_returns_with_every_line (data : tp.topic ≠ kOffsetsTopic) (fresh : started.HostsFresh tp)
    (once : options.follow = false)
    (reached : Reaches (Terminals.step tp options) (Terminals.Admits tp) { context := started } state)
    (waits : state.consumer = .resolving ∨ ∃ position, state.consumer = .asking position) :
    ∃ final log position, ConsumerAlone tp options state final ∧ final.context = state.context ∧
      final.sent = state.sent ∧ state.context.logs.get tp = some log ∧
      (state.consumer = .asking position ∨ state.consumer = .resolving ∧ position = final.start) ∧
      (final.consumer = .returned log.logEndOffset 0 ∧
          (∀ batch ∈ log.batches, position ≤ lastOf batch → ReplyFits tp.topic batch.length) ∧
          (∀ line ∈ state.sent, final.start ≤ line.offset → log.logStartOffset ≤ line.offset →
            line.shown ∈ final.printed) ∨
        (∃ offset, options.startAt = .offset offset ∧ log.logEndOffset < offset ∧
          final.consumer = .returned offset 1 ∧ final.printed = []) ∨
        (∃ threwAt, final.consumer = .threw threwAt) ∧
          ∃ batch ∈ log.batches, position ≤ lastOf batch ∧ ¬ ReplyFits tp.topic batch.length) := by
  have holds := terminals_run_holds data fresh reached
  have short : tp.topic.length < 2 ^ 15 := by
    rcases fresh.hosted with ⟨_, _, _, _, named, _⟩
    exact named.short
  have asks : ∃ next position, ConsumerAlone tp options state next ∧ next.Holds tp options ∧
      next.context = state.context ∧ next.sent = state.sent ∧ next.consumer = .asking position ∧
      (state.consumer = .asking position ∨ state.consumer = .resolving ∧ position = next.start) := by
    rcases waits with there | ⟨position, there⟩
    · rcases holds.hosted with ⟨log, hosted, -⟩
      have resolves : ∃ resolved context, resolveStart tp options.startAt state.context = some (resolved, context) := by
        cases options.startAt with
        | earliest =>
            simp [resolveStart, listedOffset, BrokerContext.listPartition, hosted, BrokerContext.logStartOffset,
              holds.whole]
        | latest =>
            simp [resolveStart, listedOffset, BrokerContext.listPartition, hosted, kLatestTimestamp, kEarliestTimestamp]
        | offset offset => exact ⟨_, _, rfl⟩
      rcases resolves with ⟨resolved, context, answered⟩
      rcases resolve_moves holds there answered with ⟨rfl, start, rfl, nextHolds⟩
      refine ⟨{ state with consumer := .asking start, start := start }, start, .step .start .resolve trivial ?_,
        nextHolds, rfl, rfl, rfl, .inr ⟨there, rfl⟩⟩
      simp [Terminals.step, there, answered]
    · exact ⟨state, position, .start, holds, rfl, rfl, there, .inl there⟩
  rcases asks with ⟨next, position, ran, nextHolds, sameContext, sameSent, there, asked⟩
  rcases nextHolds.hosted with ⟨log, hosted, -⟩
  rcases asks_to_the_end short once _ nextHolds hosted there (Int.self_le_toNat _) with
    ⟨final, gone, finalHolds, context, sent, start, ends⟩
  rcases finalHolds.hosted with ⟨known, isKnown, consumes, stored, stands⟩
  rw [context, hosted] at isKnown
  cases isKnown
  refine ⟨final, log, position, ran.trans gone, context.trans sameContext, sent.trans sameSent, sameContext ▸ hosted,
    start ▸ asked, ?_⟩
  rcases ends with ⟨finished, fits⟩ | ⟨beyond, finished⟩ | ⟨large, threw⟩
  · refine .inl ⟨finished, fits.batches, ?_⟩
    rw [finished] at stands
    intro line isLine from_ kept
    rw [← sameSent, ← sent] at isLine
    rcases stored.stored line isLine with ⟨batch, stores⟩
    have inFront := stores.remembers.behind
    rw [stores.last] at inFront
    rcases stands.1.complete line isLine from_ inFront with printed | ⟨gap, isGap, -, above⟩
    · exact printed
    · have removed := stands.1.gone gap isGap
      omega
  · rw [finished] at stands
    rcases stands.2 with absurd_code | ⟨given, -, nothing, -⟩
    · cases absurd_code
    · exact .inr (.inl ⟨position, given, beyond, finished, nothing⟩)
  · refine .inr (.inr ⟨threw, ?_⟩)
    by_contra none
    refine large ((answers_fit_short short le_rfl).mpr fun batch member far => ?_)
    by_contra tooLarge
    exact none ⟨batch, member, far, tooLarge⟩

end Alone

/-- Lines and what the consumer does, with nobody else at the broker. -/
def TerminalAction.Quiet (tp : TopicPartition) (state : Terminals) : TerminalAction → Prop
  | .broker _ => False
  | action => state.Admits tp action

instance (tp : TopicPartition) (state : Terminals) (action : TerminalAction) : Decidable (action.Quiet tp state) :=
  match action with
  | .broker _ => inferInstanceAs (Decidable False)
  | .send _ nowMs line io =>
      inferInstanceAs (Decidable (line.length + 97 < 2 ^ 31 ∧ FitsSigned 64 nowMs ∧ (io.entries 0 0).fault = none))
  | .resolve | .fetch | .print => inferInstanceAs (Decidable True)

/-- One line is typed before the consumer comes, and one with a zero byte while it has its
first answer. -/
theorem two_lines_typed :
    ∃ (started : BrokerContext) (state : Terminals) (log : Log), started.HostsFresh ⟨[116], 0⟩ ∧
      Reaches (Terminals.step ⟨[116], 0⟩ ⟨.earliest, false⟩)
        (Terminals.Admits ⟨[116], 0⟩) { context := started } state ∧
      state.sent = [⟨0, [97]⟩, ⟨1, [98, 0, 99]⟩] ∧ state.consumer.position = some 1 ∧ state.start = 0 ∧
      state.printed = [⟨0, [97]⟩] ∧ (∃ position, state.consumer = .asking position) ∧
      state.context.logs.get ⟨[116], 0⟩ = some log ∧ ∀ batch ∈ log.batches, ReplyFits [116] batch.length := by
  rcases (⟨_, rfl⟩ : ∃ log, Log.create ⟨[116], 0⟩ "t-0" twoBatchConfig = .ok log) with ⟨log, made⟩
  have fresh : (hostingOne log).HostsFresh ⟨[116], 0⟩ :=
    ⟨⟨"t-0", twoBatchConfig, log, rfl, ⟨by decide, by decide, by decide, by decide⟩, storable_two_batch_config, rfl,
      made⟩, List.not_mem_nil⟩
  have ran : ((Log.create ⟨[116], 0⟩ "t-0" twoBatchConfig).toOption.bind fun log =>
      (runAll (Terminals.step ⟨[116], 0⟩ ⟨.earliest, false⟩) (fun state action => action.Quiet ⟨[116], 0⟩ state)
        [.send [] 10 [97] {}, .resolve, .fetch, .send [] 10 [98, 0, 99] {}, .print] { context := hostingOne log }).map
          fun final => decide (final.sent = [⟨0, [97]⟩, ⟨1, [98, 0, 99]⟩] ∧ final.consumer.position = some 1 ∧
            final.start = 0 ∧ final.printed = [⟨0, [97]⟩]) && (match final.consumer with
              | .asking _ => true
              | _ => false) && (final.context.logs.get ⟨[116], 0⟩).any fun log =>
                decide (∀ batch ∈ log.batches, ReplyFits [116] batch.length)) = some true := by
    decide +kernel
  simp only [made, Except.toOption, Option.bind_some] at ran
  rcases found_by_run (Terminals.step ⟨[116], 0⟩ ⟨.earliest, false⟩) (fun state action => action.Quiet ⟨[116], 0⟩ state)
    _ _ _ ran with ⟨final, reached, checked⟩
  simp only [Bool.and_eq_true] at checked
  rcases checked with ⟨⟨seen, asks⟩, held⟩
  rcases of_decide_eq_true seen with ⟨sent, position, start, printed⟩
  rcases hosted : final.context.logs.get ⟨[116], 0⟩ with _ | last
  · simp [hosted] at held
  rw [hosted, Option.any_some] at held
  refine ⟨hostingOne log, final, last, fresh, reached.mono _ _ ?_, sent, position, start, printed, ?_, hosted,
    of_decide_eq_true held⟩
  · intro state action quiet
    cases action with
    | broker => exact quiet.elim
    | send | resolve | fetch | print => exact quiet
  · split at asks
    · exact ⟨_, ‹_›⟩
    · cases asks

theorem typed_lines_come_out_typed :
    ∃ state : Terminals, state.sent = [⟨0, [97]⟩, ⟨1, [98, 0, 99]⟩] ∧ state.printed = [⟨0, [97]⟩] ∧
      state.linesOut = state.linesIn 0 1 := by
  rcases two_lines_typed with ⟨started, state, -, fresh, reached, sent, position, start, printed, -⟩
  rcases typed_lines_come_out (by decide) fresh reached with ⟨-, -, same, -⟩
  exact ⟨state, sent, printed, start ▸ same 1 position⟩

theorem consumer_returns_with_every_line_typed :
    ∃ (state final : Terminals) (log : Log), state.printed = [⟨0, [97]⟩] ∧
      ConsumerAlone ⟨[116], 0⟩ ⟨.earliest, false⟩ state final ∧ final.consumer = .returned log.logEndOffset 0 ∧
      (final.start ≤ 1 → log.logStartOffset ≤ 1 → ⟨1, [98]⟩ ∈ final.printed) := by
  rcases two_lines_typed with ⟨started, state, known, fresh, reached, sent, -, -, printed, asks, hosted, fits⟩
  rcases consumer_returns_with_every_line (by decide) fresh rfl reached (.inr asks) with
    ⟨final, log, position, alone, -, -, isLog, -, ⟨returned, -, lines⟩ | ⟨offset, given, -⟩ | ⟨-, batch, member, -, large⟩⟩
  · exact ⟨state, final, log, printed, alone, returned, lines ⟨1, [98, 0, 99]⟩ (by rw [sent]; decide)⟩
  · cases given
  · rw [hosted] at isLog
    cases isLog
    exact absurd (fits batch member) large

end DariyaKyu.Cli

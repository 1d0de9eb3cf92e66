import DariyaKyu.Server.FrameLayout
import DariyaKyu.Server.Handlers
import DariyaKyu.Storage.StoredBytes

/-!
`handleProduce` with the frame it works on. The batches are views of the frame
that came in, and `Log::append` stamps the offset it assigns into the view it is
given; so the frame changes under the request while it is being answered. Each
entry finds its own bytes as they came, because the stamps of the others are not
among them.
-/

namespace DariyaKyu.Server

set_option autoImplicit false

open Storage Protocol StatefulLoop

/-- What `Log::append` leaves in the span it is given: the roll comes first, and
an exception there leaves the span alone. -/
def stampsInto (log : Log) (batch : Bytes) (rollMs : Int) : Bytes :=
  match log.maybeRoll rollMs with
  | .returned _ rolled => (stampBaseOffset batch rolled.logEndOffset).toOption.getD batch
  | .threw _ _ => batch
  | .ruined _ => batch

def stampFrame (frame : Bytes) (log : Log) (asked : ProduceAsked × CommitIo) : Bytes :=
  match mutableBatch asked.1 frame with
  | .error _ => frame
  | .ok batch =>
      if (verifyCrc batch).toOption = some true then
        overwrite frame asked.1.batchOffsetInBody (stampsInto log batch asked.2.rollMs)
      else frame

/-- The frame and the broker as the entries so far left them. -/
structure Stamping where
  frame : Bytes
  context : BrokerContext

def produceInFrame (topic : Bytes) (asked : ProduceAsked × CommitIo) (state : Stamping) :
    Option (ProducedPartition × Stamping) := do
  let (answer, context) ← BrokerContext.producePartition state.frame topic asked state.context
  let frame :=
    match state.context.logs.get ⟨topic, asked.1.partition⟩ with
    | none => state.frame
    | some log => stampFrame state.frame log asked
  return (answer, ⟨frame, context⟩)

def handleProduceInFrame (request : RequestContext) (out : Response) :
    Option ((Except Error Response × BrokerContext) × Bytes) :=
  match decodeProduceRequest request.body with
  | .error failure => some ((.error failure, request.broker), request.frame)
  | .ok (decoded, _) => do
      let (topics, final) ← answerTopics produceInFrame (request.io.besides decoded.topics)
        ⟨request.frame, request.broker⟩
      return (((encodeProduceResponse topics).map out.append, final.context), final.frame)

section Overwriting

theorem overwrite_getElem? {frame data : Bytes} {start : Nat}
    (inside : start + data.length ≤ frame.length)
    (place : Nat) :
    (overwrite frame start data)[place]? =
      if start ≤ place ∧ place < start + data.length then data[place - start]? else frame[place]? := by
  have front : (frame.take start).length = start := by
    rw [List.length_take]
    omega
  unfold overwrite
  by_cases before : place < start
  · rw [if_neg (by omega), List.append_assoc, List.getElem?_append_left (by omega),
      List.getElem?_take_of_lt before]
  by_cases within : place < start + data.length
  · rw [if_pos ⟨by omega, within⟩, List.append_assoc, List.getElem?_append_right (by omega), front,
      List.getElem?_append_left (by omega)]
  · rw [if_neg (by omega), List.getElem?_append_right (by simp only [List.length_append]; omega),
      List.getElem?_drop]
    congr 1
    simp only [List.length_append, front]
    omega

theorem overwrite_size {frame data : Bytes} {start : Nat}
    (inside : start + data.length ≤ frame.length) :
    (overwrite frame start data).length = frame.length := by
  simp only [overwrite, List.length_append, List.length_take, List.length_drop]
  omega

/-- What a stamp of some offset leaves of a batch, or the batch itself. -/
def StampedOrNot (batch bytes : Bytes) : Prop := bytes = batch ∨ ∃ offset, bytes = stamped batch offset

theorem stamped_or_not_length {batch bytes : Bytes} (long : kBatchHeaderSize ≤ batch.length)
    (made : StampedOrNot batch bytes) : bytes.length = batch.length := by
  rcases made with rfl | ⟨offset, rfl⟩
  · rfl
  · exact stamped_length batch offset long

theorem stamped_or_not_behind {batch bytes : Bytes} (made : StampedOrNot batch bytes) {place : Nat}
    (behind : 8 ≤ place) : bytes[place]? = batch[place]? := by
  rcases made with rfl | ⟨offset, rfl⟩
  · rfl
  · rw [stamped, List.getElem?_append_right (by simpa using behind), List.getElem?_drop,
      write_int64_length,       Nat.add_sub_cancel' behind]

theorem stamps_into_cases (log : Log) {batch : Bytes} (long : kBatchHeaderSize ≤ batch.length)
    (rollMs : Int) :
    StampedOrNot batch (stampsInto log batch rollMs) := by
  unfold stampsInto
  split
  · next rolled _ =>
    rw [stamp_base_offset_eq batch rolled.logEndOffset long]
    exact .inr ⟨_, rfl⟩
  · exact .inl rfl
  · exact .inl rfl

theorem stamps_into_returned {log next : Log} {batch : Bytes} {rollMs clockMs offset : Int}
    {fault : Option WriteFault} (long : kBatchHeaderSize ≤ batch.length)
    (appended : log.append batch rollMs clockMs fault = .returned offset next) :
    stampsInto log batch rollMs = stamped batch offset := by
  unfold Log.append at appended
  unfold stampsInto
  split at appended
  · cases appended
  · cases appended
  next rolled moved =>
  rw [moved]
  simp only [stamp_base_offset_eq batch _ long] at appended ⊢
  split at appended
  · cases appended
  · cases appended
    rfl

end Overwriting

section Entry

variable {state next : Stamping} {topic : Bytes} {asked : ProduceAsked × CommitIo}
  {answer : ProducedPartition}

/-- The entry's batch gets to `Log::append`: its partition is hosted and its checksum holds. -/
def Appends (context : BrokerContext) (topic : Bytes) (asked : ProduceAsked) : Prop :=
  (context.logs.get ⟨topic, asked.partition⟩).isSome = true ∧ verifyCrc asked.batch = .ok true

structure Finds (frame : Bytes) (asked : ProduceAsked) : Prop where
  inside : asked.batchOffsetInBody + asked.batch.length ≤ frame.length
  holds : window frame asked.batchOffsetInBody asked.batch.length = asked.batch

theorem Finds.mutable {frame : Bytes} {asked : ProduceAsked} (finds : Finds frame asked) :
    mutableBatch asked frame = .ok asked.batch := by
  unfold mutableBatch
  rw [if_neg (Nat.not_lt.mpr finds.inside)]
  exact congrArg Except.ok finds.holds

/-- The logs go on: each is there afterwards, and stores what it stored. -/
def LogsKept (before after : LogManager) : Prop :=
  ∀ tp, (after.get tp).isSome = (before.get tp).isSome ∧
    ∀ log, before.get tp = some log → log.Keyed →
      ∃ kept, after.get tp = some kept ∧ kept.Keyed ∧ ∀ bytes, log.Stores bytes → kept.Stores bytes

theorem LogsKept.refl (logs : LogManager) : LogsKept logs logs :=
  fun _ => ⟨rfl, fun log hosted keyed => ⟨log, hosted, keyed, fun _ stored => stored⟩⟩

theorem LogsKept.trans {first second third : LogManager} (front : LogsKept first second)
    (back : LogsKept second third) : LogsKept first third := by
  intro tp
  refine ⟨(back tp).1.trans (front tp).1, ?_⟩
  intro log hosted keyed
  obtain ⟨middle, between, middleKeyed, stored⟩ := (front tp).2 log hosted keyed
  obtain ⟨kept, after, keptKeyed, later⟩ := (back tp).2 middle between middleKeyed
  exact ⟨kept, after, keptKeyed, fun bytes present => later bytes (stored bytes present)⟩

theorem logs_kept_put {logs : LogManager} {tp : TopicPartition} {log after : Log}
    (hosted : logs.get tp = some log)
    (goes : log.Keyed → after.Keyed ∧ ∀ bytes, log.Stores bytes → after.Stores bytes) :
    LogsKept logs (logs.put tp after) := by
  intro other
  rw [LogManager.get_put]
  split
  · next same =>
    subst same
    rw [hosted]
    refine ⟨rfl, ?_⟩
    intro found isFound keyed
    cases isFound
    exact ⟨after, rfl, goes keyed⟩
  · exact ⟨rfl, fun found isFound keyed => ⟨found, isFound, keyed, fun _ stored => stored⟩⟩

/-- What may be left of an entry's bytes: they are stamped if they got to `Log::append`. -/
def LeftOf (context : BrokerContext) (topic : Bytes) (asked : ProduceAsked) (bytes : Bytes) : Prop :=
  bytes = asked.batch ∨ Appends context topic asked ∧ ∃ offset, bytes = stamped asked.batch offset

/-- What one entry does: the answer, the frame and the logs behind it. -/
structure EntryDone (state next : Stamping) (topic : Bytes) (asked : ProduceAsked)
    (answer : ProducedPartition) : Prop where
  partition : answer.partition = asked.partition
  size : next.frame.length = state.frame.length
  outside : ∀ place, next.frame[place]? ≠ state.frame[place]? → Appends state.context topic asked ∧
    asked.batchOffsetInBody ≤ place ∧ place < asked.batchOffsetInBody + 8
  logs : LogsKept state.context.logs next.context.logs
  left : LeftOf state.context topic asked (window next.frame asked.batchOffsetInBody asked.batch.length)
  stored : answer.error = .none →
    window next.frame asked.batchOffsetInBody asked.batch.length =
      stamped asked.batch answer.baseOffset ∧
      verifyCrc (stamped asked.batch answer.baseOffset) = .ok true ∧
      ∃ log, next.context.logs.get ⟨topic, asked.partition⟩ = some log ∧
        log.Stores (stamped asked.batch answer.baseOffset)

theorem entry_untouched (finds : Finds state.frame asked.1)
    (partition : answer.partition = asked.1.partition)
    (refused : answer.error ≠ .none) (frame : next.frame = state.frame)
    (logs : LogsKept state.context.logs next.context.logs) :
    EntryDone state next topic asked.1 answer where
  partition := partition
  size := by rw [frame]
  outside := fun place differs => absurd (by rw [frame]) differs
  logs := logs
  left := by
    rw [frame]
    exact .inl finds.holds
  stored := fun none => absurd none refused

/-- Bytes of the length of the batch over the batch, that differ from it in the stamp only. -/
theorem entry_stamped (finds : Finds state.frame asked.1)
    (appends : Appends state.context topic asked.1)
    {bytes : Bytes} (long : kBatchHeaderSize ≤ asked.1.batch.length)
    (made : StampedOrNot asked.1.batch bytes)
    (frame : next.frame = overwrite state.frame asked.1.batchOffsetInBody bytes) :
    next.frame.length = state.frame.length ∧
      (∀ place, next.frame[place]? ≠ state.frame[place]? → Appends state.context topic asked.1 ∧
        asked.1.batchOffsetInBody ≤ place ∧ place < asked.1.batchOffsetInBody + 8) ∧
      window next.frame asked.1.batchOffsetInBody asked.1.batch.length = bytes := by
  have length := stamped_or_not_length long made
  have inside : asked.1.batchOffsetInBody + bytes.length ≤ state.frame.length := by
    rw [length]
    exact finds.inside
  refine ⟨by rw [frame, overwrite_size inside], ?_, ?_⟩
  · intro place differs
    rw [frame, overwrite_getElem? inside] at differs
    split at differs
    · next within =>
      refine ⟨appends, within.1, ?_⟩
      apply Nat.lt_of_not_le
      intro behind
      apply differs
      rw [stamped_or_not_behind made (by omega), ← finds.holds, window_getElem? state.frame (by omega),
        Nat.add_sub_cancel' within.1]
    · exact absurd rfl differs
  · rw [frame, ← length]
    apply List.ext_getElem?
    intro place
    by_cases within : place < bytes.length
    · rw [window_getElem? _ within, overwrite_getElem? inside, if_pos (by omega),
        Nat.add_sub_cancel_left]
    · have short : bytes.length ≤ place := Nat.le_of_not_lt within
      rw [List.getElem?_eq_none short]
      apply List.getElem?_eq_none
      simp only [window, List.length_take, List.length_drop]
      omega

theorem entry_appended {log : Log} (finds : Finds state.frame asked.1)
    (hosted : state.context.logs.get ⟨topic, asked.1.partition⟩ = some log)
    (checked : verifyCrc asked.1.batch = .ok true) (partition : answer.partition = asked.1.partition)
    (frame : next.frame =
      overwrite state.frame asked.1.batchOffsetInBody (stampsInto log asked.1.batch asked.2.rollMs))
    (logs : LogsKept state.context.logs next.context.logs)
    (stored : answer.error = .none → ∃ after,
      log.append asked.1.batch asked.2.rollMs asked.2.clockMs asked.2.fault =
        .returned answer.baseOffset after ∧
        next.context.logs.get ⟨topic, asked.1.partition⟩ = some after) :
    EntryDone state next topic asked.1 answer := by
  obtain ⟨header, parsed, _⟩ := except_bind_ok checked
  have long := (parse_header_ok parsed).1
  have appends : Appends state.context topic asked.1 := ⟨by rw [hosted]; rfl, checked⟩
  have made := stamps_into_cases log long asked.2.rollMs
  obtain ⟨size, outside, same⟩ := entry_stamped finds appends long made frame
  refine ⟨partition, size, outside, logs, ?_, ?_⟩
  · rw [same]
    exact made.imp_right fun isStamped => ⟨appends, isStamped⟩
  · intro none
    obtain ⟨after, appended, isAfter⟩ := stored none
    refine ⟨same.trans (stamps_into_returned long appended), ?_, after, isAfter,
      append_stores long appended⟩
    rw [verify_crc_stamped answer.baseOffset parsed, checked]

theorem produce_entry_done (finds : Finds state.frame asked.1)
    (produced : produceInFrame topic asked state = some (answer, next)) :
    EntryDone state next topic asked.1 answer := by
  obtain ⟨⟨given, context⟩, one, made⟩ := Option.bind_eq_some_iff.mp produced
  cases made
  simp only [BrokerContext.producePartition] at one
  cases hosted : state.context.logs.get ⟨topic, asked.1.partition⟩ with
  | none =>
      simp only [hosted, Option.some.injEq, Prod.mk.injEq] at one
      obtain ⟨rfl, rfl⟩ := one
      exact entry_untouched finds rfl (fun none => by cases none) rfl (.refl _)
  | some log =>
      simp only [hosted, finds.mutable] at one
      split at one
      · cases one
      simp only [Option.some.injEq, Prod.mk.injEq] at one
      obtain ⟨rfl, rfl⟩ := one
      have frame : stampFrame state.frame log asked =
          if (verifyCrc asked.1.batch).toOption = some true then
          overwrite state.frame asked.1.batchOffsetInBody (stampsInto log asked.1.batch asked.2.rollMs)
          else state.frame := by
        unfold stampFrame
        rw [finds.mutable]
      have same : LogsKept state.context.logs (state.context.logs.put ⟨topic, asked.1.partition⟩ log) :=
        logs_kept_put hosted fun keyed => ⟨keyed, fun _ present => present⟩
      have goes : ∀ after, (log.append asked.1.batch asked.2.rollMs asked.2.clockMs asked.2.fault).log = some after →
          LogsKept state.context.logs (state.context.logs.put ⟨topic, asked.1.partition⟩ after) :=
        fun after kept => logs_kept_put hosted fun keyed => append_keeps_stored keyed kept
      cases checked : verifyCrc asked.1.batch with
      | error failure =>
          obtain ⟨what, rfl⟩ := verify_crc_error checked
          rw [checked] at frame
          simp only [produceTo, checked]
          exact entry_untouched finds rfl (fun none => by cases none) frame same
      | ok valid =>
          rw [checked] at frame
          cases valid with
          | false =>
              simp only [produceTo, checked]
              exact entry_untouched finds rfl (fun none => by cases none) frame same
          | true =>
              cases appended : log.append asked.1.batch asked.2.rollMs asked.2.clockMs asked.2.fault with
              | returned offset after =>
                  simp only [produceTo, checked, appended]
                  refine entry_appended finds hosted checked rfl frame (goes after (by rw [appended]; rfl)) ?_
                  intro _
                  refine ⟨after, appended, ?_⟩
                  rw [LogManager.get_put, if_pos rfl, hosted]
                  rfl
              | threw failure after =>
                  simp only [produceTo, checked, appended]
                  refine entry_appended finds hosted checked rfl frame (goes after (by rw [appended]; rfl)) ?_
                  intro none
                  cases failure <;> cases none
              | ruined failure =>
                  simp only [produceTo, checked, appended]
                  refine entry_appended finds hosted checked rfl frame (.refl _) ?_
                  intro none
                  cases failure <;> cases none

end Entry

end DariyaKyu.Server

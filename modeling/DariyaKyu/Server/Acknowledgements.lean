import DariyaKyu.Server.BrokerActions
import DariyaKyu.Server.FetchCodec
import DariyaKyu.Storage.GrowingLogs
import DariyaKyu.Cli.Consume

/-!
What an acknowledgement is worth. A batch that was accepted at an offset is what
a fetch at that offset is answered with, whatever else the broker is asked for
meanwhile, until retention has gone over it; the fetch says so then. And whatever
is accepted later is accepted behind it.
-/

namespace DariyaKyu.Server

set_option autoImplicit false

open Storage Protocol Groups GuardedRun

namespace BrokerContext

/-- The partition is hosted on a log that deletes and has just been created. -/
structure HostsFresh (context : BrokerContext) (tp : TopicPartition) : Prop where
  hosted : ∃ dir config log, context.logs.get tp = some log ∧ StorableName tp ∧ config.Storable ∧
    config.compacted = false ∧ Log.create tp dir config = .ok log
  whole : tp ∉ context.lost

/-- The batch is what a fetch at its offset is answered with first, if the log
start has not gone over it; and the partition accepts nothing in front of its end. -/
structure StillHas (context : BrokerContext) (tp : TopicPartition) (batch : Bytes) : Prop where
  fetched : ∀ maxBytes, ∃ fetched,
    context.fetchPartition tp.topic ⟨tp.partition, baseOf batch, maxBytes⟩ = some (fetched, context) ∧
      (fetched.answer.error = .none ∧ batch <+: fetched.records ∨
        fetched.answer.error = .offsetOutOfRange ∧ lastOf batch < fetched.answer.logStartOffset)
  behind : ∀ frame asked given after, BrokerAction.Admits tp LogAction.Plain context (.produce frame tp.topic asked) →
    asked.1.partition = tp.partition → context.producePartition frame tp.topic asked = some (given, after) →
      given.error = .none → lastOf batch < given.baseOffset

end BrokerContext

section Fetching

variable {context : BrokerContext} {tp : TopicPartition} {log : Log}

theorem fetch_partition_view (hosted : context.logs.get tp = some log) (whole : tp ∉ context.lost) (offset : Int)
    (maxBytes : Nat) :
    ∃ fetched, context.fetchPartition tp.topic ⟨tp.partition, offset, maxBytes⟩ = some (fetched, context) ∧
      fetched.answer = fetchAnswer ⟨tp.partition, offset, maxBytes⟩ log.highWatermark log.logStartOffset
        (log.read offset maxBytes) ∧
      fetched.records = log.rangeBytes offset fetched.answer.records := by
  have start : context.logStartOffset tp log = some log.logStartOffset := by simp [BrokerContext.logStartOffset, whole]
  have read : context.read tp log offset maxBytes = some (log.read offset maxBytes) := by
    simp [BrokerContext.read, whole]
  refine ⟨⟨fetchAnswer ⟨tp.partition, offset, maxBytes⟩ log.highWatermark log.logStartOffset
    (log.read offset maxBytes), BrokerContext.fileOf log offset⟩, ?_, rfl, ?_⟩
  · simp only [BrokerContext.fetchPartition, hosted, start, read, Option.bind_eq_bind, Option.bind_some]
    rfl
  · unfold FetchedPartition.records Log.rangeBytes BrokerContext.fileOf
    cases log.owner offset with
    | none => simp [FileHandle.readAt, FileHandle.ofContents]
    | some owner => rfl

end Fetching

section Accepting

variable {context after : BrokerContext} {tp : TopicPartition} {log : Log} {frame : Bytes}
  {asked : ProduceAsked × CommitIo} {given : ProducedPartition}

theorem accepted_appends (hosted : context.logs.get tp = some log) (named : asked.1.partition = tp.partition)
    (answered : context.producePartition frame tp.topic asked = some (given, after)) (accepted : given.error = .none) :
    ∃ batch next, mutableBatch asked.1 frame = .ok batch ∧ verifyCrc batch = .ok true ∧
      log.append batch asked.2.rollMs asked.2.clockMs asked.2.fault = .returned given.baseOffset next ∧
      after = { context with logs := context.logs.put tp next } := by
  have refusal : ∀ failure, produceErrorOf failure ≠ .none := by
    intro failure
    cases failure <;> simp [produceErrorOf]
  have here : (⟨tp.topic, asked.1.partition⟩ : TopicPartition) = tp := by rw [named]
  simp only [BrokerContext.producePartition, here, hosted] at answered
  cases isBatch : mutableBatch asked.1 frame with
  | error failure =>
      simp only [isBatch] at answered
      cases answered
      exact absurd accepted (refusal failure)
  | ok batch =>
      simp only [isBatch] at answered
      split at answered
      · cases answered
      · unfold produceTo at answered
        cases verified : verifyCrc batch with
        | error failure =>
            simp only [verified] at answered
            cases answered
            exact absurd accepted (refusal failure)
        | ok valid =>
            cases valid with
            | false =>
                simp only [verified] at answered
                cases answered
                cases accepted
            | true =>
                simp only [verified] at answered
                cases appended : log.append batch asked.2.rollMs asked.2.clockMs asked.2.fault with
                | returned offset next =>
                    simp only [appended] at answered
                    cases answered
                    exact ⟨batch, next, rfl, verified, appended, rfl⟩
                | threw failure next =>
                    simp only [appended] at answered
                    cases answered
                    exact absurd accepted (refusal failure)
                | ruined failure =>
                    simp only [appended] at answered
                    cases answered
                    exact absurd accepted (refusal failure)

theorem accepted_behind (holds : WholeHolds log) (hosted : context.logs.get tp = some log)
    (admitted : BrokerAction.Admits tp LogAction.Plain context (.produce frame tp.topic asked))
    (named : asked.1.partition = tp.partition)
    (answered : context.producePartition frame tp.topic asked = some (given, after)) (accepted : given.error = .none) :
    ∃ batch next, mutableBatch asked.1 frame = .ok batch ∧ given.baseOffset = log.logEndOffset ∧
      baseOf (stamped batch given.baseOffset) = given.baseOffset ∧ after.logs.get tp = some next ∧ WholeHolds next ∧
      next.Remembers (stamped batch given.baseOffset) := by
  rcases accepted_appends hosted named answered accepted with ⟨batch, next, isBatch, verified, appended, rfl⟩
  have plain := admitted (by rw [named]) batch isBatch verified
  rcases plain_grows holds plain with ⟨grown, stepped, grownHolds, _⟩
  rcases plain with ⟨intact, faultless⟩
  have moved : Log.step (.append batch asked.2.rollMs asked.2.clockMs asked.2.fault) log = some next := by
    simp only [Log.step, appended, Outcome.log]
  rw [moved] at stepped
  cases stepped
  rw [faultless] at appended
  rcases tiled_append holds.tiled intact asked.2.rollMs asked.2.clockMs with
    ⟨other, returned, _, range, batches⟩ | ⟨failure, other, threw, _⟩
  · rw [appended, Outcome.returned.injEq] at returned
    rcases returned with ⟨isEnd, rfl⟩
    have based : baseOf (stamped batch log.logEndOffset) = log.logEndOffset :=
      (base_of_stamped batch log.logEndOffset).trans (as_signed_as_unsigned 64 (by decide) _ range)
    have member : stamped batch log.logEndOffset ∈ next.batches := by simp [batches]
    rcases log_consecutive grownHolds.tiled with ⟨consecutive, reaches⟩
    rw [isEnd]
    refine ⟨batch, next, isBatch, rfl, based, by simp [LogManager.get_put, hosted], grownHolds, .inl member, ?_⟩
    exact reaches ▸ last_lt_end consecutive.ascending member
  · rw [appended] at threw
    cases threw

end Accepting

section Durable

variable {tp : TopicPartition} {batch : Bytes} {context : BrokerContext} {log : Log}

theorem between_plain {action : LogAction} (between : BetweenAppends action) : action.Plain := by
  cases action with
  | append | clean => exact between.elim
  | maybeRoll | applyRetention | sweepGraveyard | reopen => trivial

theorem whole_log_keeps : LogKeeps LogAction.Plain WholeHolds where
  admitted := by
    intro log action holds plain
    rcases plain_grows holds plain with ⟨next, stepped, nextHolds, _⟩
    exact ⟨next, stepped, nextHolds⟩
  kept := by
    intro log action holds between
    rcases plain_grows holds (between_plain between) with ⟨next, stepped, nextHolds, _⟩
    exact ⟨next, stepped, nextHolds⟩

theorem remembering_log_keeps (batch : Bytes) :
    LogKeeps LogAction.Plain fun log => WholeHolds log ∧ log.Remembers batch where
  admitted := by
    rintro log action ⟨holds, remembers⟩ plain
    rcases plain_grows holds plain with ⟨next, stepped, nextHolds, grows⟩
    exact ⟨next, stepped, nextHolds, remembers_grows holds nextHolds grows remembers⟩
  kept := by
    rintro log action ⟨holds, remembers⟩ between
    rcases plain_grows holds (between_plain between) with ⟨next, stepped, nextHolds, grows⟩
    exact ⟨next, stepped, nextHolds, remembers_grows holds nextHolds grows remembers⟩

theorem read_at_batch (holds : WholeHolds log) (member : batch ∈ log.batches) (maxBytes : Nat) :
    ∃ range, log.read (baseOf batch) maxBytes = .ok ⟨.none, range⟩ ∧
      batch <+: log.rangeBytes (baseOf batch) range := by
  rcases log_consecutive holds.tiled with ⟨consecutive, reaches⟩
  rcases start_le_base consecutive.ascending member with ⟨starts, forward⟩
  have ends := last_lt_end consecutive.ascending member
  rw [reaches] at ends
  rcases Cli.read_inside holds.tiled starts (by omega) maxBytes with
    ⟨before, owner, behind, earlier, found, later, range, segments, split, base, last, read, size, answer⟩
  have inside : found ∈ log.batches := by simp [log_batches_segments, segments, split]
  have whole : found.length ≤ range.length := size ▸ le_max_left _ _
  have same : found = batch := same_batch consecutive.ascending inside member ⟨base, last⟩ ⟨le_rfl, forward⟩
  subst same
  refine ⟨range, read, ?_⟩
  rw [answer, List.flatten_cons, List.take_append, List.take_of_length_le whole]
  exact List.prefix_append _ _

theorem still_has (keeps : context.Keeps tp fun log => WholeHolds log ∧ log.Remembers batch)
    (forward : baseOf batch ≤ lastOf batch) : context.StillHas tp batch := by
  rcases keeps.hosted with ⟨log, hosted, holds, remembers⟩
  constructor
  · intro maxBytes
    rcases fetch_partition_view hosted keeps.whole (baseOf batch) maxBytes with ⟨fetched, answered, answer, records⟩
    refine ⟨fetched, answered, ?_⟩
    rcases remembers.kept with member | gone
    · rcases read_at_batch holds member maxBytes with ⟨range, read, starts⟩
      have isAnswer : fetched.answer.error = .none ∧ fetched.answer.records = range := by
        simp [answer, fetchAnswer, read, errorCodeFor]
      refine .inl ⟨isAnswer.1, ?_⟩
      rw [records, isAnswer.2]
      exact starts
    · have read := read_below_start holds (show baseOf batch < log.logStartOffset by omega) maxBytes
      refine .inr ?_
      simp [answer, fetchAnswer, read, errorCodeFor, gone]
  · intro frame asked given after admitted named answered accepted
    rcases accepted_behind holds hosted admitted named answered accepted with ⟨_, _, _, isEnd, _⟩
    rw [isEnd]
    exact remembers.behind

/-- From its acknowledgement on a batch is served at the offset that was
acknowledged, and nothing else is accepted there, whatever the entries of other
requests, the sweeping thread and restarts do to the partition, in whatever order. -/
theorem acknowledged_batches_stay {started after final : BrokerContext} {frame : Bytes}
    {asked : ProduceAsked × CommitIo} {given : ProducedPartition} (data : tp.topic ≠ kOffsetsTopic)
    (fresh : started.HostsFresh tp)
    (reached : Reaches BrokerAction.step
      (fun context action => action.Admits tp LogAction.Plain context) started context)
    (admitted : BrokerAction.Admits tp LogAction.Plain context (.produce frame tp.topic asked))
    (named : asked.1.partition = tp.partition)
    (answered : context.producePartition frame tp.topic asked = some (given, after)) (accepted : given.error = .none)
    (later : Reaches BrokerAction.step (fun context action => action.Admits tp LogAction.Plain context) after final) :
    ∃ batch, mutableBatch asked.1 frame = .ok batch ∧ baseOf (stamped batch given.baseOffset) = given.baseOffset ∧
      final.StillHas tp (stamped batch given.baseOffset) := by
  have starts : started.Keeps tp WholeHolds := by
    rcases fresh.hosted with ⟨dir, config, log, hosted, storableName, storable, deletes, made⟩
    exact ⟨⟨log, hosted, (created_whole storableName storable deletes made).1⟩, fresh.whole⟩
  have before := broker_run_keeps data whole_log_keeps starts reached
  rcases before.hosted with ⟨log, hosted, holds⟩
  rcases accepted_behind holds hosted admitted named answered accepted with
    ⟨batch, next, isBatch, _, based, nextHosted, nextHolds, remembers⟩
  have whole := (produce_keeps whole_log_keeps before admitted answered).whole
  have kept := broker_run_keeps data (remembering_log_keeps _) ⟨⟨next, nextHosted, nextHolds, remembers⟩, whole⟩ later
  refine ⟨batch, isBatch, based, still_has kept ?_⟩
  rcases accepted_appends hosted named answered accepted with ⟨other, _, isOther, verified, _⟩
  rw [isBatch] at isOther
  cases isOther
  have intact := (admitted (by rw [named]) batch isBatch verified).1
  have spans := (intact.stamped given.baseOffset).spans
  unfold baseOf lastOf BatchHeader.lastOffset
  omega

end Durable

def hostingOne (log : Log) : BrokerContext where
  logs := { dataDir := "data", defaults := {}, logs := [(⟨[116], 0⟩, log)] }
  groups := {}
  offsets := { partitions := 8 }

def oneRecordEntry : ProduceAsked × CommitIo :=
  (⟨0, recordBatchOf 10 none (some [118]), 0⟩, { rollMs := 0, clockMs := 0, nowMs := 0 })

def BrokerAction.Repeats (_ : BrokerContext) : BrokerAction → Prop
  | .produce frame topic asked =>
      frame = recordBatchOf 10 none (some [118]) ∧ topic = [116] ∧ asked = oneRecordEntry
  | .upkeep .. | .reopen .. => True
  | .commit .. | .aside _ => False

instance (context : BrokerContext) (action : BrokerAction) : Decidable (action.Repeats context) :=
  match action with
  | .produce frame topic asked =>
      inferInstanceAs (Decidable (frame = recordBatchOf 10 none (some [118]) ∧ topic = [116] ∧ asked = oneRecordEntry))
  | .upkeep .. | .reopen .. => inferInstanceAs (Decidable True)
  | .commit .. | .aside _ => inferInstanceAs (Decidable False)

theorem one_record_admitted (context : BrokerContext) :
    BrokerAction.Admits ⟨[116], 0⟩ LogAction.Plain context
      (.produce (recordBatchOf 10 none (some [118])) [116] oneRecordEntry) := by
  intro _ batch isBatch _
  have whole : mutableBatch oneRecordEntry.1 (recordBatchOf 10 none (some [118])) =
      .ok (recordBatchOf 10 none (some [118])) := by decide +kernel
  rw [whole] at isBatch
  cases isBatch
  exact ⟨by decide +kernel, rfl⟩

/-- Behind the entry come another one, a sweep, a restart and a third. -/
theorem acknowledged_batches_stay_swept :
    ∃ (started after final : BrokerContext) (given : ProducedPartition), started.HostsFresh ⟨[116], 0⟩ ∧
      started.producePartition (recordBatchOf 10 none (some [118])) [116] oneRecordEntry = some (given, after) ∧
      given.error = .none ∧ (final.logs.get ⟨[116], 0⟩).map Log.logEndOffset = some 3 ∧
      ∃ batch, mutableBatch oneRecordEntry.1 (recordBatchOf 10 none (some [118])) = .ok batch ∧
        baseOf (stamped batch given.baseOffset) = given.baseOffset ∧
        final.StillHas ⟨[116], 0⟩ (stamped batch given.baseOffset) := by
  rcases (⟨_, rfl⟩ : ∃ log, Log.create ⟨[116], 0⟩ "t-0" twoBatchConfig = .ok log) with ⟨log, made⟩
  have fresh : (hostingOne log).HostsFresh ⟨[116], 0⟩ :=
    ⟨⟨"t-0", twoBatchConfig, log, rfl, ⟨by decide, by decide, by decide, by decide⟩, storable_two_batch_config, rfl,
      made⟩, List.not_mem_nil⟩
  have ran : ((Log.create ⟨[116], 0⟩ "t-0" twoBatchConfig).toOption.bind fun log =>
      ((hostingOne log).producePartition (recordBatchOf 10 none (some [118])) [116] oneRecordEntry).bind fun answered =>
        (runAll BrokerAction.step (fun context action => action.Repeats context)
          [.produce (recordBatchOf 10 none (some [118])) [116] oneRecordEntry, .upkeep ⟨[116], 0⟩ (.sweep 5),
            .reopen ⟨[116], 0⟩ twoBatchConfig 7,
            .produce (recordBatchOf 10 none (some [118])) [116] oneRecordEntry] answered.2).map fun final =>
          decide (answered.1.error = .none ∧ (final.logs.get ⟨[116], 0⟩).map Log.logEndOffset = some 3)) =
        some true := by
    decide +kernel
  simp only [made, Except.toOption, Option.bind_some] at ran
  rcases Option.bind_eq_some_iff.mp ran with ⟨⟨given, after⟩, answered, goes⟩
  rcases found_by_run BrokerAction.step (fun context action => action.Repeats context) _ _ _ goes with
    ⟨final, later, checked⟩
  rcases of_decide_eq_true checked with ⟨accepted, ends⟩
  refine ⟨hostingOne log, after, final, given, fresh, answered, accepted, ends,
    acknowledged_batches_stay (by decide) fresh .start (one_record_admitted _) rfl answered accepted
      (later.mono _ _ ?_)⟩
  intro context action repeats
  cases action with
  | produce =>
      rcases repeats with ⟨rfl, rfl, rfl⟩
      exact one_record_admitted context
  | upkeep | reopen => trivial
  | commit | aside => exact repeats.elim

end DariyaKyu.Server

import DariyaKyu.Server.Handlers
import DariyaKyu.Storage.WholeLogs

/-!
The calls that the requests of many connections are made of. Each takes the lock
of one log, and no request keeps one from an entry to the next; so between two
entries anything else may come. What an action keeps of one partition it keeps
in every order of the entries of all requests, with the sweeping thread among them.
-/

namespace DariyaKyu.Server

set_option autoImplicit false

open Storage Protocol Groups

/-- What the sweeping thread does to a log, one call after the other. -/
inductive Upkeep where
  | roll (nowMs : Int)
  | retain (nowMs : Int)
  | sweep (nowMs : Int)

def Upkeep.action : Upkeep → LogAction
  | .roll nowMs => .maybeRoll nowMs
  | .retain nowMs => .applyRetention nowMs
  | .sweep nowMs => .sweepGraveyard nowMs

def Upkeep.goesToActive (log : Log) : Upkeep → Bool
  | .roll _ => true
  | .retain _ => log.config.retention.retentionBytes.isSome
  | .sweep _ => false

/-- What is done to a log between the appends; a cleaning pass is not meant. -/
def BetweenAppends : LogAction → Prop
  | .append .. => False
  | .clean .. => False
  | _ => True

/-- One entry of a Produce, one of an OffsetCommit whose group was asked before, a
call of the sweeping thread, a partition's part of a restart, or anything else. -/
inductive BrokerAction where
  | produce (frame topic : Bytes) (asked : ProduceAsked × CommitIo)
  | commit (groupId : Bytes) (membership : ErrorCode) (topic : Bytes) (asked : AskedPartition × CommitIo)
  | upkeep (tp : TopicPartition) (work : Upkeep)
  | reopen (tp : TopicPartition) (fallback : LogConfig) (clockMs : Int)
  | aside (change : BrokerContext → BrokerContext)

/-- A roll that throws takes the active segment with it; a call that goes there
afterwards dereferences null. -/
def BrokerContext.keepUp (context : BrokerContext) (tp : TopicPartition) (upkeep : Upkeep) : Option BrokerContext :=
  match context.logs.get tp with
  | none => some context
  | some log =>
      if tp ∈ context.lost ∧ upkeep.goesToActive log = true then none
      else
        match Log.step upkeep.action log with
        | none => some { context with lost := tp :: context.lost }
        | some next => some { context with logs := context.logs.put tp next }

/-- A startup that throws is none. What is on the disk of a log without an active
segment is not known here. -/
def BrokerContext.reopen (context : BrokerContext) (tp : TopicPartition) (fallback : LogConfig) (clockMs : Int) :
    Option BrokerContext :=
  match context.logs.get tp with
  | none => some context
  | some log =>
      if tp ∈ context.lost then none
      else
        (Log.step (.reopen fallback clockMs) log).map fun next => { context with logs := context.logs.put tp next }

namespace BrokerAction

def step : BrokerAction → BrokerContext → Option BrokerContext
  | .produce frame topic asked, context => (context.producePartition frame topic asked).map (·.2)
  | .commit groupId membership topic asked, context =>
      (context.commitPartition groupId membership topic asked).map (·.2)
  | .upkeep tp work, context => context.keepUp tp work
  | .reopen tp fallback clockMs, context => context.reopen tp fallback clockMs
  | .aside change, context => some (change context)

/-- What is appended to the partition is admitted, and what does not go to a log
leaves this one alone. -/
def Admits (tp : TopicPartition) (admits : LogAction → Prop) (context : BrokerContext) : BrokerAction → Prop
  | .produce frame topic asked => (⟨topic, asked.1.partition⟩ : TopicPartition) = tp →
      ∀ batch, mutableBatch asked.1 frame = .ok batch → verifyCrc batch = .ok true →
        admits (.append batch asked.2.rollMs asked.2.clockMs asked.2.fault)
  | .commit .. => True
  | .upkeep .. => True
  | .reopen .. => True
  | .aside change => (change context).logs.get tp = context.logs.get tp ∧
      (tp ∈ (change context).lost → tp ∈ context.lost)

end BrokerAction

/-- A partition that is hosted, with its active segment, and what holds of its log. -/
structure BrokerContext.Keeps (context : BrokerContext) (tp : TopicPartition) (holds : Log → Prop) : Prop where
  hosted : ∃ log, context.logs.get tp = some log ∧ holds log
  whole : tp ∉ context.lost

structure LogKeeps (admits : LogAction → Prop) (holds : Log → Prop) : Prop where
  admitted : ∀ log action, holds log → admits action → ∃ next, Log.step action log = some next ∧ holds next
  kept : ∀ log action, holds log → BetweenAppends action → ∃ next, Log.step action log = some next ∧ holds next

section Keeping

variable {tp : TopicPartition} {holds : Log → Prop} {admits : LogAction → Prop} {context after : BrokerContext}

theorem keeps_put (keeps : context.Keeps tp holds) {log next : Log} (hosted : context.logs.get tp = some log)
    (nextHolds : holds next) : ({ context with logs := context.logs.put tp next } : BrokerContext).Keeps tp holds where
  hosted := ⟨next, by simp [LogManager.get_put, hosted], nextHolds⟩
  whole := keeps.whole

theorem keeps_put_other (keeps : context.Keeps tp holds) {other : TopicPartition} (different : tp ≠ other)
    (next : Log) : ({ context with logs := context.logs.put other next } : BrokerContext).Keeps tp holds where
  hosted := by simpa [LogManager.get_put, different] using keeps.hosted
  whole := keeps.whole

theorem keeps_lose_other (keeps : context.Keeps tp holds) {other : TopicPartition} (different : tp ≠ other) :
    ({ context with lost := other :: context.lost } : BrokerContext).Keeps tp holds where
  hosted := keeps.hosted
  whole := by simp [different, keeps.whole]

theorem produce_to_after {log : Log} {batch : Bytes} {rollMs clockMs : Int} {fault : Option WriteFault}
    {next : Log} (stepped : verifyCrc batch = .ok true →
      Log.step (.append batch rollMs clockMs fault) log = some next) :
    (produceTo log batch rollMs clockMs fault).2 = some log ∨
      verifyCrc batch = .ok true ∧ (produceTo log batch rollMs clockMs fault).2 = some next := by
  unfold produceTo
  cases verified : verifyCrc batch with
  | error failure => exact .inl rfl
  | ok valid =>
      cases valid with
      | false => exact .inl rfl
      | true =>
          have appended := stepped verified
          simp only [Log.step] at appended
          refine .inr ⟨rfl, ?_⟩
          cases outcome : log.append batch rollMs clockMs fault with
          | returned offset last => rw [outcome] at appended; exact appended
          | threw failure last => rw [outcome] at appended; exact appended
          | ruined failure => rw [outcome] at appended; cases appended

theorem produce_keeps (logKeeps : LogKeeps admits holds) (keeps : context.Keeps tp holds) {frame topic : Bytes}
    {asked : ProduceAsked × CommitIo}
    (admitted : BrokerAction.Admits tp admits context (.produce frame topic asked)) {given : ProducedPartition}
    (taken : context.producePartition frame topic asked = some (given, after)) : after.Keeps tp holds := by
  simp only [BrokerContext.producePartition] at taken
  cases hosted : context.logs.get ⟨topic, asked.1.partition⟩ with
  | none =>
      simp only [hosted] at taken
      cases taken
      exact keeps
  | some log =>
      simp only [hosted] at taken
      cases isBatch : mutableBatch asked.1 frame with
      | error failure =>
          simp only [isBatch] at taken
          cases taken
          exact keeps
      | ok batch =>
          simp only [isBatch] at taken
          split at taken
          · cases taken
          · by_cases same : (⟨topic, asked.1.partition⟩ : TopicPartition) = tp
            · subst same
              rcases keeps.hosted with ⟨known, isKnown, knownHolds⟩
              rw [hosted] at isKnown
              cases isKnown
              have steps : ∃ next, holds next ∧ (verifyCrc batch = .ok true →
                  Log.step (.append batch asked.2.rollMs asked.2.clockMs asked.2.fault) log = some next) := by
                by_cases verified : verifyCrc batch = .ok true
                · rcases logKeeps.admitted log _ knownHolds (admitted rfl batch isBatch verified) with
                    ⟨next, stepped, nextHolds⟩
                  exact ⟨next, nextHolds, fun _ => stepped⟩
                · exact ⟨log, knownHolds, fun valid => absurd valid verified⟩
              rcases steps with ⟨next, nextHolds, stepped⟩
              rcases produce_to_after stepped with left | ⟨_, left⟩
              · simp only [left] at taken
                cases taken
                exact keeps_put keeps hosted knownHolds
              · simp only [left] at taken
                cases taken
                exact keeps_put keeps hosted nextHolds
            · have different : tp ≠ ⟨topic, asked.1.partition⟩ := Ne.symm same
              cases left : (produceTo log batch asked.2.rollMs asked.2.clockMs asked.2.fault).2 with
              | none =>
                  simp only [left] at taken
                  cases taken
                  exact keeps_lose_other keeps different
              | some next =>
                  simp only [left] at taken
                  cases taken
                  exact keeps_put_other keeps different next

theorem append_record_topic {store : OffsetStore} {hash : Bytes → Nat} {logs : LogManager} {key : CommitKey}
    {value : Option CommitValue} {timestampMs : Int} {io : AppendIo} {target : TopicPartition} {outcome : Outcome Int}
    (appended : store.appendRecord hash logs key value timestampMs io = .ok (target, outcome)) :
    target.topic = kOffsetsTopic := by
  unfold OffsetStore.appendRecord at appended
  split at appended
  · cases appended
  split at appended
  · cases appended
  split at appended
  · cases appended
  · simp only [Except.ok.injEq, Prod.mk.injEq] at appended
    rw [← appended.1]

theorem commit_target_topic {groupId topic : Bytes} {asked : AskedPartition × CommitIo} {target : TopicPartition}
    (isTarget : context.commitTarget groupId topic asked = some target) : target.topic = kOffsetsTopic := by
  unfold BrokerContext.commitTarget at isTarget
  rcases Option.map_eq_some_iff.mp isTarget with ⟨⟨known, outcome⟩, appended, rfl⟩
  exact append_record_topic (ok_of_to_option appended)

theorem commit_threw {store : OffsetStore} {hash : Bytes → Nat} {logs left : LogManager} {key : CommitKey}
    {value : CommitValue} {io : AppendIo} {failure : Error}
    (threw : store.commit hash logs key value io = .threw failure left) :
    left = logs ∨ ∃ target log, target.topic = kOffsetsTopic ∧ left = logs.put target log := by
  unfold OffsetStore.commit OffsetStore.record at threw
  split at threw
  · cases threw
    exact .inl rfl
  · cases threw
  · next appended =>
    cases threw
    exact .inr ⟨_, _, append_record_topic appended, rfl⟩
  · cases threw

theorem commit_committed {store stored : OffsetStore} {hash : Bytes → Nat} {logs left : LogManager} {key : CommitKey}
    {value : CommitValue} {io : AppendIo} (committed : store.commit hash logs key value io = .committed left stored) :
    (∃ target log, target.topic = kOffsetsTopic ∧ left = logs.put target log) ∧
      stored = store.update key (some value) := by
  unfold OffsetStore.commit OffsetStore.record at committed
  split at committed
  · cases committed
  · cases committed
  · cases committed
  · next appended =>
    cases committed
    exact ⟨⟨_, _, append_record_topic appended, rfl⟩, rfl⟩

theorem commit_keeps (data : tp.topic ≠ kOffsetsTopic) (keeps : context.Keeps tp holds) {groupId topic : Bytes}
    {membership : ErrorCode} {asked : AskedPartition × CommitIo} {given : AnsweredPartition}
    (taken : context.commitPartition groupId membership topic asked = some (given, after)) : after.Keeps tp holds := by
  have apart : ∀ target : TopicPartition, target.topic = kOffsetsTopic → tp ≠ target :=
    fun target named same => data (same ▸ named)
  simp only [BrokerContext.commitPartition] at taken
  split at taken
  · cases taken
    exact keeps
  split at taken
  · cases taken
  split at taken
  · next logs offsets isCommitted =>
    cases taken
    rcases commit_committed isCommitted with ⟨⟨target, log, named, rfl⟩, _⟩
    have kept := keeps_put_other keeps (apart target named) log
    exact ⟨kept.hosted, kept.whole⟩
  · next failure logs isThrown =>
    cases taken
    rcases commit_threw isThrown with rfl | ⟨target, log, named, rfl⟩
    · exact ⟨keeps.hosted, keeps.whole⟩
    · exact keeps_put_other keeps (apart target named) log
  · cases taken
    refine ⟨keeps.hosted, ?_⟩
    intro lost
    rcases List.mem_append.mp lost with new | old
    · exact data (commit_target_topic (Option.mem_toList.mp new))
    · exact keeps.whole old

theorem upkeep_between (upkeep : Upkeep) : BetweenAppends upkeep.action := by
  cases upkeep <;> trivial

theorem keep_up_keeps (logKeeps : LogKeeps admits holds) (keeps : context.Keeps tp holds) {other : TopicPartition}
    {upkeep : Upkeep} (taken : context.keepUp other upkeep = some after) : after.Keeps tp holds := by
  unfold BrokerContext.keepUp at taken
  cases hosted : context.logs.get other with
  | none =>
      simp only [hosted] at taken
      cases taken
      exact keeps
  | some log =>
      simp only [hosted] at taken
      split at taken
      · cases taken
      · by_cases same : tp = other
        · subst same
          rcases keeps.hosted with ⟨known, isKnown, knownHolds⟩
          rw [hosted] at isKnown
          cases isKnown
          rcases logKeeps.kept log upkeep.action knownHolds (upkeep_between upkeep) with ⟨next, stepped, nextHolds⟩
          simp only [stepped] at taken
          cases taken
          exact keeps_put keeps hosted nextHolds
        · cases stepped : Log.step upkeep.action log with
          | none =>
              simp only [stepped] at taken
              cases taken
              exact keeps_lose_other keeps same
          | some next =>
              simp only [stepped] at taken
              cases taken
              exact keeps_put_other keeps same next

theorem reopen_keeps (logKeeps : LogKeeps admits holds) (keeps : context.Keeps tp holds) {other : TopicPartition}
    {fallback : LogConfig} {clockMs : Int} (taken : context.reopen other fallback clockMs = some after) :
    after.Keeps tp holds := by
  unfold BrokerContext.reopen at taken
  cases hosted : context.logs.get other with
  | none =>
      simp only [hosted] at taken
      cases taken
      exact keeps
  | some log =>
      simp only [hosted] at taken
      split at taken
      · cases taken
      · rcases Option.map_eq_some_iff.mp taken with ⟨next, stepped, rfl⟩
        by_cases same : tp = other
        · subst same
          rcases keeps.hosted with ⟨known, isKnown, knownHolds⟩
          rw [hosted] at isKnown
          cases isKnown
          rcases logKeeps.kept log (.reopen fallback clockMs) knownHolds trivial with ⟨again, steppedAgain, nextHolds⟩
          rw [stepped] at steppedAgain
          cases steppedAgain
          exact keeps_put keeps hosted nextHolds
        · exact keeps_put_other keeps same next

theorem broker_action_keeps (data : tp.topic ≠ kOffsetsTopic) (logKeeps : LogKeeps admits holds)
    (keeps : context.Keeps tp holds) {action : BrokerAction} (admitted : action.Admits tp admits context)
    (taken : action.step context = some after) : after.Keeps tp holds := by
  cases action with
  | produce frame topic asked =>
      rcases Option.map_eq_some_iff.mp taken with ⟨⟨given, next⟩, answered, rfl⟩
      exact produce_keeps logKeeps keeps admitted answered
  | commit groupId membership topic asked =>
      rcases Option.map_eq_some_iff.mp taken with ⟨⟨given, next⟩, answered, rfl⟩
      exact commit_keeps data keeps answered
  | upkeep other work => exact keep_up_keeps logKeeps keeps taken
  | reopen other fallback clockMs => exact reopen_keeps logKeeps keeps taken
  | aside change =>
      have ⟨same, notLost⟩ := admitted
      cases taken
      exact ⟨same ▸ keeps.hosted, fun lost => keeps.whole (notLost lost)⟩

theorem broker_run_keeps (data : tp.topic ≠ kOffsetsTopic) (logKeeps : LogKeeps admits holds)
    (keeps : context.Keeps tp holds)
    (reached : GuardedRun.Reaches BrokerAction.step
      (fun context action => action.Admits tp admits context) context after) :
    after.Keeps tp holds :=
  reached.invariant _ _ (fun state => state.Keeps tp holds) keeps
    fun _ _ _ before admitted taken => broker_action_keeps data logKeeps before admitted taken

end Keeping

end DariyaKyu.Server

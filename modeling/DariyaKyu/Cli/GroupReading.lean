import DariyaKyu.Library.Simulation
import DariyaKyu.Server.Acknowledgements
import DariyaKyu.Server.ResponseCodecs

/-!
`doConsumeGroup` of `apps/dariyakyu_cli.cpp` on one partition: the members of a
group start from the offset that was committed last, print what they fetch and
commit where they have got to. Any number of them may think that the partition is
theirs, and any of them may be gone at any moment; its commit may still be on the
way then. Everything else the broker does comes in between.

Printed is what was handed to `printf`. It stands in the buffer of `stdout` until
`fflush`, which comes behind the commits of a round: a process that is killed in
between takes it along.
-/

namespace DariyaKyu.Cli

set_option autoImplicit false

open Storage Protocol Groups Server GuardedRun

def committed (answer : ReceivedPosition) : Option Int :=
  if answer.error ≠ ErrorCode.none.number then none
  else if answer.nextOffset < 0 then none
  else some answer.nextOffset

/-- `fetchOnce`, from the answer for the partition: what is printed, and the position
behind it. Without one the process ends, with an error or with an exception. -/
def fetchOnce (answer : ReceivedFetch) (position : Int) : Option Printing :=
  if answer.error = ErrorCode.offsetOutOfRange.number then some ⟨[], answer.logStartOffset⟩
  else if answer.error ≠ ErrorCode.none.number then none
  else (printBatches answer.records position).toOption

def kFetchBytes : Nat := 2 ^ 20

/-- Where a member is with the partition: between two calls, with an answer that it
has not printed yet, waiting for the answer to its commit, or with that answer. -/
inductive Reading where
  | away
  | reading (position : Int)
  | fetched (position : Int) (answer : ReceivedFetch)
  | committing (position : Int)
  | answered (position : Int) (error : ErrorCode)

/-- What a reply makes of a member: above the limit of a frame it throws. -/
def Reading.ofReply (topic : Bytes) (position : Int) (fetched : FetchedPartition) : Reading :=
  match Client.takes (fetchReplyBytes topic fetched.answer.records.length) with
  | .error _ => .away
  | .ok () => .fetched position fetched.received

/-- The broker, the members, the commits that are on their way with the members that
wait for them, if they still do, and what the members have printed between them. -/
structure GroupReading (ι : Type) where
  context : BrokerContext
  members : ι → Reading
  commits : List (Option ι × Int) := []
  printed : List Printed := []

inductive ReadingAction (ι : Type) where
  | broker (action : BrokerAction)
  | resume (member : ι)
  | fetch (member : ι)
  | print (member : ι)
  | commit (place : Nat) (membership : ErrorCode) (io : CommitIo)
  | goOn (member : ι)
  | leave (member : ι)

namespace GroupReading

variable {ι : Type}

def start (context : BrokerContext) : GroupReading ι := ⟨context, fun _ => .away, [], []⟩

variable [DecidableEq ι]

def become (state : GroupReading ι) (member : ι) (reading : Reading) : GroupReading ι :=
  { state with members := Function.update state.members member reading }

/-- A member prints, and if that took it further it commits where it is now. -/
def printedBy (state : GroupReading ι) (member : ι) (position : Int) (printing : Printing) : GroupReading ι :=
  let after := { state with printed := state.printed ++ printing.printed }
  if printing.offset = position then after.become member (.reading position)
  else
    { after with commits := after.commits ++ [(some member, printing.offset)] }.become member
      (.committing printing.offset)

/-- Nobody waits any more for what this member has sent. -/
def orphan (state : GroupReading ι) (member : ι) : GroupReading ι :=
  { state with commits := state.commits.map fun pending => (pending.1.filter (· ≠ member), pending.2) }

/-- A commit has been answered, and the answer reaches the member that waits for it. -/
def settled (state : GroupReading ι) (pending : Option ι × Int) (error : ErrorCode) : GroupReading ι :=
  match pending.1 with
  | none => state
  | some member => state.become member (.answered pending.2 error)

/-- A member goes on once its commit has been answered; of the answer only an error
counts, and with one the member throws. -/
def step (groupId : Bytes) (tp : TopicPartition) : ReadingAction ι → GroupReading ι → Option (GroupReading ι)
  | .broker action, state => (action.step state.context).map fun context => { state with context := context }
  | .resume member, state =>
      match state.members member with
      | .away => do
          let (found, context) ← state.context.fetchOffset groupId tp.topic tp.partition
          return { state with context := context }.become member (.reading ((committed found.received).getD 0))
      | _ => none
  | .fetch member, state =>
      match state.members member with
      | .reading position => do
          let (fetched, context) ← state.context.fetchPartition tp.topic ⟨tp.partition, position, kFetchBytes⟩
          return { state with context := context }.become member (.ofReply tp.topic position fetched)
      | _ => none
  | .print member, state =>
      match state.members member with
      | .fetched position answer =>
          match fetchOnce answer position with
          | none => some (state.become member .away)
          | some printing => some (state.printedBy member position printing)
      | _ => none
  | .commit place membership io, state => do
      let pending ← state.commits[place]?
      let (given, context) ←
        state.context.commitPartition groupId membership tp.topic (⟨tp.partition, pending.2, []⟩, io)
      return { state with context := context, commits := state.commits.eraseIdx place }.settled pending given.error
  | .goOn member, state =>
      match state.members member with
      | .answered position error => some (state.become member (if error = .none then .reading position else .away))
      | _ => none
  | .leave member, state => some ((state.orphan member).become member .away)

end GroupReading

/-- What does not come from a member leaves the offset of the group alone, or forgets it. -/
def Spares (key : CommitKey) (context : BrokerContext) : BrokerAction → Prop
  | .commit groupId _ topic asked => (⟨groupId, topic, asked.1.partition⟩ : CommitKey) ≠ key
  | .aside change =>
      (change context).offsets.committed key = context.offsets.committed key ∨
        (change context).offsets.committed key = none
  | _ => True

/-- Producers send batches that can be read, and the group is committed for by its
members alone. -/
def GroupReading.Admits {ι : Type} (groupId : Bytes) (tp : TopicPartition) (state : GroupReading ι) :
    ReadingAction ι → Prop
  | .broker action => action.Admits tp ProducesReadable state.context ∧
      Spares ⟨groupId, tp.topic, tp.partition⟩ state.context action
  | _ => True

/-- Everything in the log that is in front of a position has been printed. -/
structure Behind (printed : List Printed) (log : Log) (position : Int) : Prop where
  within : position ≤ log.logEndOffset
  done : ∀ batch ∈ log.batches, ∀ record ∈ recordsOf batch, record.offset < position →
    LogRecord.printed record ∈ printed

section OneRound

variable {log next : Log} {printed lines : List Printed} {position : Int}

theorem Behind.printing (behind : Behind printed log position) : Behind (printed ++ lines) log position where
  within := behind.within
  done := fun batch member record inside below => List.mem_append_left _ (behind.done batch member record inside below)

/-- What is new in a log is behind every position in it. -/
theorem Behind.grows (holds : ConsumeHolds log) (nextHolds : ConsumeHolds next) (grows : log.Grows next)
    (behind : Behind printed log position) : Behind printed next position := by
  have ends := (grows_keeps holds.toWholeHolds nextHolds.toWholeHolds grows).2.1
  refine ⟨le_trans behind.within ends, ?_⟩
  intro batch member record inside below
  rcases grows_member grows member with old | new
  · exact behind.done batch old record inside below
  · have above := (record_within (nextHolds.readable batch member) inside).1
    have within := behind.within
    omega

theorem behind_start (holds : ConsumeHolds log) {offset : Int} (starts : offset ≤ log.logStartOffset) :
    Behind printed log offset := by
  rcases log_consecutive holds.tiled with ⟨consecutive, reaches⟩
  have ordered := start_le_end consecutive.ascending
  rw [reaches] at ordered
  refine ⟨le_trans starts ordered, ?_⟩
  intro batch member record inside below
  have above := (start_le_base consecutive.ascending member).1
  have within := (record_within (holds.readable batch member) inside).1
  omega

structure RoundTakes (log : Log) (position : Int) (batches : List Bytes) : Prop where
  taken : ∀ batch ∈ batches, batch ∈ log.batches ∧ position ≤ lastOf batch ∧ lastOf batch < endOffset position batches
  all : ∀ batch ∈ log.batches, position ≤ lastOf batch → batch ∈ batches ∨ endOffset position batches ≤ baseOf batch
  forward : position < endOffset position batches
  within : endOffset position batches ≤ log.logEndOffset
  sub : batches.Sublist log.batches

theorem ReadsRound.takes (holds : ConsumeHolds log) {maxBytes bytes : Nat} {range : FileRange} {answered : List Bytes}
    (round : ReadsRound log position maxBytes range answered bytes) :
    RoundTakes log position (fitting bytes answered) := by
  rcases log_consecutive holds.tiled with ⟨consecutive, _⟩
  have complete := round.complete
  have goesOn := round.goesOn
  have remains := round.remains
  generalize fitting bytes answered = batches at complete goesOn remains ⊢
  generalize isNext : endOffset position batches = next at goesOn remains
  -- the log is what the position is behind of, the batches of the round, and the rest
  have shape : log.batches = (log.batches.takeWhile fun batch => decide (lastOf batch < position)) ++ batches ++
      batchesFrom next log.batches := by
    rw [List.append_assoc, ← goesOn]
    exact List.takeWhile_append_dropWhile.symm
  have parts := consecutive
  rw [shape, consecutive_append, end_offset_append, end_offset_occupied _ position complete, isNext] at parts
  have inRound : ∀ batch ∈ batches, batch ∈ log.batches ∧ position ≤ lastOf batch ∧ lastOf batch < next := by
    intro batch member
    have both := (mem_batches_from consecutive).mp (goesOn ▸ List.mem_append_left _ member :
      batch ∈ batchesFrom position log.batches)
    have ends := last_lt_end parts.1.ascending (List.mem_append_right _ member)
    rw [end_offset_append, end_offset_occupied _ position complete, isNext] at ends
    exact ⟨both.1, both.2, ends⟩
  rw [← isNext] at remains
  refine ⟨isNext ▸ inRound, ?_, ?_, remains, ?_⟩
  · intro batch member reaches
    have later : batch ∈ batchesFrom position log.batches := (mem_batches_from consecutive).mpr ⟨member, reaches⟩
    rw [goesOn] at later
    rcases List.mem_append.mp later with here | rest
    · exact .inl here
    · exact .inr (isNext ▸ (start_le_base parts.2.ascending rest).1)
  · rcases List.exists_mem_of_ne_nil batches complete with ⟨batch, member⟩
    rcases inRound batch member with ⟨_, reaches, ends⟩
    omega
  · rw [shape]
    exact (List.sublist_append_right _ _).trans (List.sublist_append_left _ _)

/-- Behind the batches of a round everything is printed up to where it ended. -/
theorem Behind.round (holds : ConsumeHolds log) (behind : Behind printed log position) {batches : List Bytes}
    (takes : RoundTakes log position batches) :
    Behind (printed ++ (batches.flatMap recordsOf).map LogRecord.printed) log (endOffset position batches) := by
  refine ⟨takes.within, ?_⟩
  intro batch member record inside below
  have within := record_within (holds.readable batch member) inside
  by_cases front : lastOf batch < position
  · exact List.mem_append_left _ (behind.done batch member record inside (by omega))
  · rcases takes.all batch member (Int.not_lt.mp front) with here | rest
    · exact List.mem_append_right _ (List.mem_map_of_mem (List.mem_flatMap.mpr ⟨batch, here, inside⟩))
    · omega

/-- A round of a member that is behind nothing it has not printed: the position goes
back to the log start, or there is nothing more, or the member prints and moves on. -/
theorem fetch_once_gets_on (holds : ConsumeHolds log)
    (behind : Behind printed log position) {fetched : FetchedPartition}
    {partition : Int} {maxBytes : Nat}
    (answer : fetched.answer = fetchAnswer ⟨partition, position, maxBytes⟩ log.highWatermark log.logStartOffset
      (log.read position maxBytes))
    (records : fetched.records = log.rangeBytes position fetched.answer.records) :
    ∃ printing, fetchOnce fetched.received position = some printing ∧
      Behind (printed ++ printing.printed) log printing.offset ∧
      (position < printing.offset ∨ printing.offset = position ∧ position = log.logEndOffset) := by
  by_cases below : position < log.logStartOffset
  · have read := read_below_start holds.toWholeHolds below maxBytes
    refine ⟨⟨[], log.logStartOffset⟩, ?_, behind_start holds le_rfl, .inl below⟩
    simp [fetchOnce, FetchedPartition.received, answer, fetchAnswer, read, errorCodeFor, ErrorCode.number]
  · by_cases atEnd : position = log.logEndOffset
    · subst atEnd
      have read : log.read log.logEndOffset maxBytes = .ok ⟨.none, {}⟩ := by simp [Log.read]
      have fine : fetched.answer.error = .none ∧ fetched.records = [] := by
        rw [records, answer]
        simp [fetchAnswer, read, errorCodeFor, no_bytes]
      refine ⟨⟨[], log.logEndOffset⟩, ?_, by simpa using behind, .inr ⟨rfl, rfl⟩⟩
      simp [fetchOnce, FetchedPartition.received, fine, ErrorCode.number, printBatches, FrameWalk.walk, completeBatchAt,
        Except.toOption]
    · have within := behind.within
      have intact : ∀ batch ∈ log.batches, IntactBatch batch :=
        fun batch member => (holds.readable batch member).toIntactBatch
      rcases read_round holds.tiled intact (Int.not_lt.mp below) (by omega) maxBytes
        with ⟨range, answered, bytes, round⟩
      have inside : ∀ batch ∈ answered, Readable batch :=
        fun batch member => holds.readable batch (round.held batch member)
      have prints := print_batches_spec inside bytes position
      have takes := round.takes holds
      refine ⟨⟨_, endOffset position (fitting bytes answered)⟩, ?_, behind.round holds takes, .inl takes.forward⟩
      have fine : fetched.answer.error = .none ∧ fetched.records = answered.flatten.take bytes := by
        rw [records, answer]
        simp [fetchAnswer, round.read, errorCodeFor, round.answer]
      simp [fetchOnce, FetchedPartition.received, fine, ErrorCode.number, prints, Except.toOption]

theorem answer_fits (holds : ConsumeHolds log) {fetched : FetchedPartition} {partition : Int} {maxBytes : Nat}
    (answer : fetched.answer = fetchAnswer ⟨partition, position, maxBytes⟩ log.highWatermark log.logStartOffset
      (log.read position maxBytes))
    {topic : Bytes} (short : topic.length < 2 ^ 15) (fits : AnswersFit topic log maxBytes position) :
    ReplyFits topic fetched.answer.records.length := by
  have empty : ReplyFits topic 0 := reply_fits_short short (Nat.zero_le _)
  by_cases below : position < log.logStartOffset
  · simpa [answer, fetchAnswer, read_below_start holds.toWholeHolds below maxBytes] using empty
  by_cases beyond : log.logEndOffset < position
  · have read : log.read position maxBytes = .ok ⟨.aboveLogEnd, {}⟩ := by rw [Log.read, if_pos beyond]
    simpa [answer, fetchAnswer, read] using empty
  by_cases atEnd : position = log.logEndOffset
  · subst atEnd
    have read : log.read log.logEndOffset maxBytes = .ok ⟨.none, {}⟩ := by simp [Log.read]
    simpa [answer, fetchAnswer, read] using empty
  · have intact : ∀ batch ∈ log.batches, IntactBatch batch :=
      fun batch member => (holds.readable batch member).toIntactBatch
    rcases read_round holds.tiled intact (Int.not_lt.mp below) (by omega) maxBytes with ⟨range, answered, bytes, round⟩
    simpa [answer, fetchAnswer, round.read] using ((round.fits topic).mp fits).1

end OneRound

section Offsets

variable {context after : BrokerContext} {key : CommitKey}

theorem produce_partition_offsets {frame topic : Bytes} {asked : ProduceAsked × CommitIo} {given : ProducedPartition}
    (taken : context.producePartition frame topic asked = some (given, after)) : after.offsets = context.offsets := by
  simp only [BrokerContext.producePartition] at taken
  split at taken
  · cases taken
    rfl
  · split at taken
    · cases taken
      rfl
    · split at taken
      · cases taken
      · cases taken
        split <;> rfl

theorem commit_partition_offsets {groupId topic : Bytes} {membership : ErrorCode} {asked : AskedPartition × CommitIo}
    {given : AnsweredPartition} (taken : context.commitPartition groupId membership topic asked = some (given, after)) :
    after.offsets = context.offsets ∨ ∃ value : CommitValue, value.nextOffset = asked.1.nextOffset ∧
      after.offsets = context.offsets.update ⟨groupId, topic, asked.1.partition⟩ (some value) := by
  simp only [BrokerContext.commitPartition] at taken
  split at taken
  · cases taken
    exact .inl rfl
  split at taken
  · cases taken
  split at taken
  · next logs offsets isCommitted =>
    cases taken
    exact .inr ⟨_, rfl, (commit_committed isCommitted).2⟩
  · cases taken
    exact .inl rfl
  · cases taken
    exact .inl rfl

theorem keep_up_offsets {tp : TopicPartition} {work : Upkeep} (taken : context.keepUp tp work = some after) :
    after.offsets = context.offsets := by
  unfold BrokerContext.keepUp at taken
  split at taken
  · cases taken
    rfl
  · split at taken
    · cases taken
    · split at taken <;> cases taken <;> rfl

theorem reopen_offsets {tp : TopicPartition} {fallback : LogConfig} {clockMs : Int}
    (taken : context.reopen tp fallback clockMs = some after) : after.offsets = context.offsets := by
  unfold BrokerContext.reopen at taken
  split at taken
  · cases taken
    rfl
  · split at taken
    · cases taken
    · rcases Option.map_eq_some_iff.mp taken with ⟨_, _, rfl⟩
      rfl

theorem spared_offset {action : BrokerAction} (spares : Spares key context action)
    (taken : action.step context = some after) :
    after.offsets.committed key = context.offsets.committed key ∨ after.offsets.committed key = none := by
  cases action with
  | produce frame topic asked =>
      rcases Option.map_eq_some_iff.mp taken with ⟨⟨given, next⟩, answered, rfl⟩
      rw [produce_partition_offsets answered]
      exact .inl rfl
  | commit groupId membership topic asked =>
      rcases Option.map_eq_some_iff.mp taken with ⟨⟨given, next⟩, answered, rfl⟩
      rcases commit_partition_offsets answered with same | ⟨value, _, put⟩
      · rw [same]
        exact .inl rfl
      · rw [put]
        exact .inl (if_neg (Ne.symm spares))
  | upkeep other work =>
      rw [keep_up_offsets taken]
      exact .inl rfl
  | reopen other fallback clockMs =>
      rw [reopen_offsets taken]
      exact .inl rfl
  | aside change =>
      cases taken
      exact spares

end Offsets

/-- What a member has got to, and what it will have got to with the answer it has. -/
def Reading.Stands (printed : List Printed) (log : Log) : Reading → Prop
  | .away => True
  | .reading position => Behind printed log position
  | .committing position => Behind printed log position
  | .answered position _ => Behind printed log position
  | .fetched position answer => Behind printed log position ∧
      ∀ printing, fetchOnce answer position = some printing →
        Behind (printed ++ printing.printed) log printing.offset

/-- Wherever the group stands, or may be put by a commit on its way, everything in
front of it has been printed. -/
structure GroupReading.Stands {ι : Type} (key : CommitKey) (state : GroupReading ι) (log : Log) : Prop where
  starts : 0 ≤ log.logStartOffset
  members : ∀ member, (state.members member).Stands state.printed log
  commits : ∀ pending ∈ state.commits, Behind state.printed log pending.2
  committed : ∀ value ∈ state.context.offsets.committed key, Behind state.printed log value.nextOffset

section Standing

variable {log next : Log} {printed lines : List Printed} {reading : Reading}

theorem Reading.Stands.grows (holds : ConsumeHolds log) (nextHolds : ConsumeHolds next) (grows : log.Grows next)
    (stands : reading.Stands printed log) : reading.Stands printed next := by
  cases reading with
  | away => trivial
  | reading position => exact Behind.grows holds nextHolds grows stands
  | committing position => exact Behind.grows holds nextHolds grows stands
  | answered position => exact Behind.grows holds nextHolds grows stands
  | fetched position answer =>
      exact ⟨stands.1.grows holds nextHolds grows,
        fun printing once => (stands.2 printing once).grows holds nextHolds grows⟩

theorem Behind.reordered {position : Int} {first second : List Printed}
    (behind : Behind (first ++ second) log position) :
    Behind (first ++ lines ++ second) log position where
  within := behind.within
  done := by
    intro batch member record inside below
    rcases List.mem_append.mp (behind.done batch member record inside below) with early | late
    · exact List.mem_append_left _ (List.mem_append_left _ early)
    · exact List.mem_append_right _ late

theorem Reading.Stands.printing (stands : reading.Stands printed log) : reading.Stands (printed ++ lines) log := by
  cases reading with
  | away => trivial
  | reading position => exact Behind.printing stands
  | committing position => exact Behind.printing stands
  | answered position => exact Behind.printing stands
  | fetched position answer =>
      exact ⟨stands.1.printing, fun printing once => (stands.2 printing once).reordered⟩

variable {ι : Type} {key : CommitKey} {state : GroupReading ι}

theorem GroupReading.Stands.grows (holds : ConsumeHolds log) (nextHolds : ConsumeHolds next) (grows : log.Grows next)
    (stands : state.Stands key log) : state.Stands key next where
  starts := le_trans stands.starts (grows_keeps holds.toWholeHolds nextHolds.toWholeHolds grows).1
  members := fun member => (stands.members member).grows holds nextHolds grows
  commits := fun pending isPending => (stands.commits pending isPending).grows holds nextHolds grows
  committed := fun value stored => (stands.committed value stored).grows holds nextHolds grows

theorem GroupReading.Stands.moved (stands : state.Stands key log) {context : BrokerContext}
    (offsets : ∀ value ∈ context.offsets.committed key, Behind state.printed log value.nextOffset) :
    ({ state with context := context } : GroupReading ι).Stands key log :=
  ⟨stands.starts, stands.members, stands.commits, offsets⟩

variable [DecidableEq ι]

theorem GroupReading.Stands.become (stands : state.Stands key log) {member : ι}
    (standsThere : reading.Stands state.printed log) :
    (state.become member reading).Stands key log where
  starts := stands.starts
  commits := stands.commits
  committed := stands.committed
  members := by
    intro other
    by_cases same : other = member
    · subst same
      simpa [GroupReading.become] using standsThere
    · simpa [GroupReading.become, same] using stands.members other

theorem GroupReading.Stands.printedBy (stands : state.Stands key log) {member : ι} {position : Int}
    {printing : Printing}
    (behind : Behind (state.printed ++ printing.printed) log printing.offset) :
    (state.printedBy member position printing).Stands key log := by
  have after : ({ state with printed := state.printed ++ printing.printed } : GroupReading ι).Stands key log :=
    ⟨stands.starts, fun other => (stands.members other).printing,
      fun pending isPending => (stands.commits pending isPending).printing,
      fun value stored => (stands.committed value stored).printing⟩
  unfold GroupReading.printedBy
  split
  · next same =>
    rw [← same]
    exact after.become behind
  · have asked : (⟨state.context, state.members, state.commits ++ [(some member, printing.offset)],
        state.printed ++ printing.printed⟩ : GroupReading ι).Stands key log := by
      refine ⟨after.starts, after.members, ?_, after.committed⟩
      intro pending isPending
      rcases List.mem_append.mp isPending with old | new
      · exact after.commits pending old
      · rw [List.mem_singleton.mp new]
        exact behind
    exact asked.become behind

theorem GroupReading.Stands.orphan (stands : state.Stands key log) (member : ι) :
    (state.orphan member).Stands key log where
  starts := stands.starts
  members := stands.members
  committed := stands.committed
  commits := by
    intro pending isPending
    rcases List.mem_map.mp isPending with ⟨sent, isSent, rfl⟩
    exact stands.commits sent isSent

theorem GroupReading.Stands.settled (stands : state.Stands key log) {pending : Option ι × Int}
    (behind : Behind state.printed log pending.2) (error : ErrorCode) :
    (state.settled pending error).Stands key log := by
  unfold GroupReading.settled
  split
  · exact stands
  · exact stands.become behind

end Standing

/-- What goes on holding of a log as it grows. -/
def Lasting (kept : Log → Prop) : Prop :=
  ∀ log next, ConsumeHolds log → ConsumeHolds next → log.Grows next → kept log → kept next

def GroupReading.Holds {ι : Type} (groupId : Bytes) (tp : TopicPartition) (kept : Log → Prop) (state : GroupReading ι) :
    Prop :=
  state.context.Keeps tp fun log =>
    (ConsumeHolds log ∧ kept log) ∧ state.Stands ⟨groupId, tp.topic, tp.partition⟩ log

/-- The group has got past an offset: it has committed that, a member is behind it, or
a member that asks from where it is finds nothing more. -/
inductive GroupReading.GotPast {ι : Type} (groupId : Bytes) (tp : TopicPartition) (state : GroupReading ι)
    (offset : Int) :
    Prop where
  | committed (value : CommitValue)
      (stored : state.context.offsets.committed ⟨groupId, tp.topic, tp.partition⟩ = some value)
      (past : offset < value.nextOffset)
  | behind (member : ι) (position : Int) (there : state.members member = .reading position ∨
      state.members member = .committing position ∨ ∃ error, state.members member = .answered position error)
      (past : offset < position)
  | caughtUp (member : ι) (position : Int) (there : state.members member = .reading position)
      (fetched : FetchedPartition) (context : BrokerContext)
      (answered : state.context.fetchPartition tp.topic ⟨tp.partition, position, kFetchBytes⟩ = some (fetched, context))
      (nothing : fetchOnce fetched.received position = some ⟨[], position⟩)

/-- What one member does of itself as long as it stays, and what becomes of its
commits, each of which finds the world like this. -/
def ReadingAction.OwnRound {ι : Type} (world : BrokerContext → ErrorCode × CommitIo) (member : ι)
    (state : GroupReading ι) : ReadingAction ι → Prop
  | .resume other | .fetch other | .print other | .goOn other => other = member
  | .commit place membership io => (state.commits[place]?).bind (·.1) = some member ∧
      (membership, io) = world state.context
  | .broker _ | .leave _ => False

section Run

variable {ι : Type} {groupId : Bytes} {tp : TopicPartition} {kept : Log → Prop} {state next : GroupReading ι}

theorem between_readable {action : LogAction} (between : BetweenAppends action) : ProducesReadable action := by
  cases action with
  | append | clean => exact between.elim
  | maybeRoll | applyRetention | sweepGraveyard | reopen => trivial

theorem lasting_log_keeps (lasting : Lasting kept) :
    LogKeeps ProducesReadable fun log => ConsumeHolds log ∧ kept log := by
  have goes : ∀ log action, ConsumeHolds log ∧ kept log → ProducesReadable action →
      ∃ next, Log.step action log = some next ∧ ConsumeHolds next ∧ kept next := by
    rintro log action ⟨holds, keptLog⟩ produces
    rcases plain_grows holds.toWholeHolds produces.plain with ⟨next, stepped, _, grows⟩
    have nextHolds := consume_step holds produces stepped
    exact ⟨next, stepped, nextHolds, lasting log next holds nextHolds grows keptLog⟩
  exact ⟨goes, fun log action holds between => goes log action holds (between_readable between)⟩

theorem reading_log_keeps (lasting : Lasting kept) (key : CommitKey) :
    LogKeeps ProducesReadable fun log => (ConsumeHolds log ∧ kept log) ∧ state.Stands key log := by
  have both : Lasting fun log => kept log ∧ state.Stands key log := by
    rintro log next holds nextHolds grows ⟨keptLog, stands⟩
    exact ⟨lasting log next holds nextHolds grows keptLog, stands.grows holds nextHolds grows⟩
  simpa only [and_assoc] using lasting_log_keeps both

theorem keeps_weaken {context : BrokerContext} {strong weak : Log → Prop} (keeps : context.Keeps tp strong)
    (weaken : ∀ log, strong log → weak log) : context.Keeps tp weak := by
  rcases keeps.hosted with ⟨log, hosted, holds⟩
  exact ⟨⟨log, hosted, weaken log holds⟩, keeps.whole⟩

theorem broker_holds (data : tp.topic ≠ kOffsetsTopic) (lasting : Lasting kept) (holds : state.Holds groupId tp kept)
    {action : BrokerAction} {context : BrokerContext} (admitted : action.Admits tp ProducesReadable state.context)
    (spares : Spares ⟨groupId, tp.topic, tp.partition⟩ state.context action)
    (taken : action.step state.context = some context) :
    ({ state with context := context } : GroupReading ι).Holds groupId tp kept := by
  have kept := broker_action_keeps data (reading_log_keeps lasting _) holds admitted taken
  refine keeps_weaken kept ?_
  rintro log ⟨known, stands⟩
  refine ⟨known, stands.moved ?_⟩
  intro value stored
  rcases spared_offset spares taken with same | forgotten
  · exact stands.committed value (same ▸ stored)
  · rw [forgotten] at stored
    cases stored

theorem settled_context [DecidableEq ι] (state : GroupReading ι) (pending : Option ι × Int) (error : ErrorCode) :
    (state.settled pending error).context = state.context := by
  unfold GroupReading.settled
  split <;> rfl

theorem commit_holds [DecidableEq ι] (data : tp.topic ≠ kOffsetsTopic) (holds : state.Holds groupId tp kept)
    {place : Nat} {pending : Option ι × Int} (isPending : state.commits[place]? = some pending)
    {membership : ErrorCode} {io : CommitIo} {given : AnsweredPartition} {context : BrokerContext}
    (taken : state.context.commitPartition groupId membership tp.topic (⟨tp.partition, pending.2, []⟩, io) =
      some (given, context)) :
    (({ state with context := context, commits := state.commits.eraseIdx place } : GroupReading ι).settled pending
      given.error).Holds groupId tp kept := by
  unfold GroupReading.Holds
  rw [settled_context]
  refine keeps_weaken (commit_keeps data holds taken) ?_
  rintro log ⟨known, stands⟩
  have behind := stands.commits pending (List.mem_of_getElem? isPending)
  have left : ({ state with context := context, commits := state.commits.eraseIdx place } : GroupReading ι).Stands
      ⟨groupId, tp.topic, tp.partition⟩ log := by
    refine ⟨stands.starts, stands.members,
      fun other stays => stands.commits other (List.mem_of_mem_eraseIdx stays), ?_⟩
    intro value stored
    rcases commit_partition_offsets taken with same | ⟨own, offset, put⟩
    · exact stands.committed value (same ▸ stored)
    · simp only [put, OffsetStore.update, if_true, Option.mem_def, Option.some.injEq] at stored
      rw [← stored, offset]
      exact behind
  exact ⟨known, left.settled behind given.error⟩

/-- Where a member starts is where a commit was, or the beginning. -/
theorem resume_stands {log : Log} (holds : ConsumeHolds log)
    (stands : state.Stands ⟨groupId, tp.topic, tp.partition⟩ log)
    {found : FetchedOffset} {context : BrokerContext}
    (answered : state.context.fetchOffset groupId tp.topic tp.partition = some (found, context)) :
    context = state.context ∧ Behind state.printed log ((committed found.received).getD 0) := by
  have zero : Behind state.printed log 0 := behind_start holds stands.starts
  simp only [BrokerContext.fetchOffset, OffsetStore.fetch] at answered
  cases stored : state.context.offsets.committed ⟨groupId, tp.topic, tp.partition⟩ with
  | none =>
      simp only [stored] at answered
      cases answered
      exact ⟨rfl, by simpa [committed, FetchedOffset.received, kUnknownOffset] using zero⟩
  | some value =>
      simp only [stored] at answered
      cases answered
      refine ⟨rfl, ?_⟩
      by_cases negative : value.nextOffset < 0
      · simpa [committed, FetchedOffset.received, ErrorCode.number, negative] using zero
      · simpa [committed, FetchedOffset.received, ErrorCode.number, negative] using stands.committed value stored

theorem start_holds {context : BrokerContext} (fresh : context.HostsFresh tp)
    (uncommitted : context.offsets.committed ⟨groupId, tp.topic, tp.partition⟩ = none) :
    (GroupReading.start context : GroupReading ι).Holds groupId tp fun _ => True := by
  rcases fresh.hosted with ⟨dir, config, log, hosted, named, storable, deletes, made⟩
  rcases created_whole named storable deletes made with ⟨whole, empty⟩
  have consumes : ConsumeHolds log := ⟨whole, by simp [empty]⟩
  rcases create_spec named storable made with ⟨_, _, unsealed, _, _, _, base, _⟩
  have starts : log.logStartOffset = 0 := by
    rw [← base]
    simp [Log.logStartOffset, unsealed]
  refine ⟨⟨log, hosted, ⟨consumes, trivial⟩, by omega, fun _ => trivial, by simp [GroupReading.start], ?_⟩, fresh.whole⟩
  intro value stored
  exact absurd stored (by simp [GroupReading.start, uncommitted])

/-- A fetch of a member is answered, and with the answer it gets on, or it has got to
the end. -/
theorem round_gets_on (holds : state.Holds groupId tp kept) {member : ι} {position : Int}
    (there : state.members member = .reading position) :
    ∃ log fetched printing, state.context.logs.get tp = some log ∧ ConsumeHolds log ∧
      state.context.fetchPartition tp.topic ⟨tp.partition, position, kFetchBytes⟩ = some (fetched, state.context) ∧
      fetchOnce fetched.received position = some printing ∧
      Behind (state.printed ++ printing.printed) log printing.offset ∧
      (position < printing.offset ∨ printing.offset = position ∧ position = log.logEndOffset) ∧
      ∀ topic : Bytes, topic.length < 2 ^ 15 → AnswersFit topic log kFetchBytes position →
        ReplyFits topic fetched.answer.records.length := by
  rcases holds.hosted with ⟨log, hosted, ⟨consumes, _⟩, standing⟩
  have behind := standing.members member
  rw [there] at behind
  rcases fetch_partition_view hosted holds.whole position kFetchBytes with ⟨fetched, answered, answer, records⟩
  rcases fetch_once_gets_on consumes behind answer records with ⟨printing, once, done, getsOn⟩
  exact ⟨log, fetched, printing, hosted, consumes, answered, once, done, getsOn,
    fun topic short fits => answer_fits consumes answer short fits⟩

theorem got_past_printed (holds : state.Holds groupId tp kept) {log : Log}
    (hosted : state.context.logs.get tp = some log)
    {batch : Bytes} (member : batch ∈ log.batches) {record : LogRecord} (inside : record ∈ recordsOf batch)
    (past : state.GotPast groupId tp record.offset) : LogRecord.printed record ∈ state.printed := by
  rcases holds.hosted with ⟨known, isKnown, ⟨consumes, _⟩, standing⟩
  rw [hosted] at isKnown
  cases isKnown
  cases past with
  | committed value stored past => exact (standing.committed value stored).done batch member record inside past
  | behind reader position there past =>
      have stands := standing.members reader
      rcases there with there | there | ⟨error, there⟩
      all_goals
        rw [there] at stands
        exact stands.done batch member record inside past
  | caughtUp reader position there fetched context answered nothing =>
      rcases round_gets_on holds there with ⟨same, _, printing, isSame, _, isAnswer, once, done, getsOn⟩
      rw [hosted] at isSame
      cases isSame
      rw [answered] at isAnswer
      cases isAnswer
      rw [nothing] at once
      cases once
      rcases log_consecutive consumes.tiled with ⟨consecutive, reaches⟩
      have ends := last_lt_end consecutive.ascending member
      have within := (record_within (consumes.readable batch member) inside).2
      rcases getsOn.1 with further | ⟨_, atEnd⟩
      · exact absurd further (lt_irrefl _)
      · simpa using done.done batch member record inside (by omega)

variable [DecidableEq ι]

theorem become_holds (holds : state.Holds groupId tp kept) {member : ι} {reading : Reading}
    (stands : ∀ log, ConsumeHolds log → state.Stands ⟨groupId, tp.topic, tp.partition⟩ log →
      state.context.logs.get tp = some log →
      reading.Stands state.printed log) : (state.become member reading).Holds groupId tp kept := by
  rcases holds.hosted with ⟨log, hosted, known, standing⟩
  exact ⟨⟨log, hosted, known, standing.become (stands log known.1 standing hosted)⟩, holds.whole⟩

theorem group_step_holds (data : tp.topic ≠ kOffsetsTopic) (lasting : Lasting kept)
    (holds : state.Holds groupId tp kept)
    {action : ReadingAction ι} (admitted : state.Admits groupId tp action)
    (taken : GroupReading.step groupId tp action state = some next) : next.Holds groupId tp kept := by
  cases action with
  | broker action =>
      rcases Option.map_eq_some_iff.mp taken with ⟨context, moved, rfl⟩
      exact broker_holds data lasting holds admitted.1 admitted.2 moved
  | resume member =>
      rcases holds.hosted with ⟨log, _, known, stands⟩
      simp only [GroupReading.step] at taken
      split at taken
      · rcases Option.bind_eq_some_iff.mp taken with ⟨⟨found, context⟩, answered, moved⟩
        cases moved
        cases (resume_stands known.1 stands answered).1
        exact become_holds holds fun log consumes standing _ => (resume_stands consumes standing answered).2
      · cases taken
  | fetch member =>
      simp only [GroupReading.step] at taken
      split at taken
      · next position here =>
        rcases Option.bind_eq_some_iff.mp taken with ⟨⟨fetched, context⟩, answered, moved⟩
        cases moved
        rcases holds.hosted with ⟨log, hosted, _, _⟩
        rcases fetch_partition_view hosted holds.whole position kFetchBytes with ⟨known, isKnown, answer, records⟩
        rw [answered] at isKnown
        cases isKnown
        refine become_holds holds ?_
        intro other consumes standing isOther
        rw [hosted] at isOther
        cases isOther
        have behind : Behind state.printed log position := by
          have stands := standing.members member
          rwa [here] at stands
        unfold Reading.ofReply
        split
        · trivial
        refine ⟨behind, ?_⟩
        intro printing once
        rcases fetch_once_gets_on consumes behind answer records with ⟨printed, isPrinted, done, _⟩
        rw [once] at isPrinted
        cases isPrinted
        exact done
      · cases taken
  | print member =>
      simp only [GroupReading.step] at taken
      split at taken
      · next position answer here =>
        split at taken
        · cases taken
          exact become_holds holds fun _ _ _ _ => trivial
        · next printing once =>
          cases taken
          rcases holds.hosted with ⟨log, hosted, known, standing⟩
          have stands := standing.members member
          rw [here] at stands
          have after : (state.printedBy member position printing).Stands ⟨groupId, tp.topic, tp.partition⟩ log :=
            standing.printedBy (stands.2 printing once)
          have unchanged : (state.printedBy member position printing).context = state.context := by
            unfold GroupReading.printedBy
            split <;> rfl
          exact ⟨⟨log, unchanged ▸ hosted, known, after⟩, unchanged ▸ holds.whole⟩
      · cases taken
  | commit place membership io =>
      rcases Option.bind_eq_some_iff.mp taken with ⟨pending, isPending, moved⟩
      rcases Option.bind_eq_some_iff.mp moved with ⟨⟨given, context⟩, answered, done⟩
      cases done
      exact commit_holds data holds isPending answered
  | goOn member =>
      simp only [GroupReading.step] at taken
      split at taken
      · next position error here =>
        cases taken
        refine become_holds holds ?_
        intro log _ standing _
        have stands := standing.members member
        rw [here] at stands
        split
        · exact stands
        · trivial
      · cases taken
  | leave member =>
      cases taken
      rcases holds.hosted with ⟨log, hosted, known, standing⟩
      exact ⟨⟨log, hosted, known, (standing.orphan member).become trivial⟩, holds.whole⟩

theorem group_run_holds (data : tp.topic ≠ kOffsetsTopic) (lasting : Lasting kept) (holds : state.Holds groupId tp kept)
    (reached : Reaches (GroupReading.step groupId tp) (GroupReading.Admits groupId tp) state next) :
    next.Holds groupId tp kept :=
  reached.invariant _ _ (GroupReading.Holds groupId tp kept) holds
    fun _ _ _ before admitted taken => group_step_holds data lasting before admitted taken

theorem remembers_lasting (batch : Bytes) : Lasting fun log => log.Remembers batch :=
  fun _ _ holds nextHolds grows remembers => remembers_grows holds.toWholeHolds nextHolds.toWholeHolds grows remembers

/-- Once a batch has been acknowledged, the members of a group do not get past a record
of it that none of them has printed, unless retention went over the batch first:
however many read the partition at once, whoever of them is gone when, and whatever
becomes of their commits. -/
theorem acknowledged_records_reach_the_group {started after : BrokerContext} {final : GroupReading ι} {frame : Bytes}
    {asked : ProduceAsked × CommitIo} {given : ProducedPartition} (data : tp.topic ≠ kOffsetsTopic)
    (fresh : started.HostsFresh tp)
    (uncommitted : started.offsets.committed ⟨groupId, tp.topic, tp.partition⟩ = none)
    (reached : Reaches (GroupReading.step groupId tp) (GroupReading.Admits groupId tp) (.start started) state)
    (admitted : BrokerAction.Admits tp ProducesReadable state.context (.produce frame tp.topic asked))
    (named : asked.1.partition = tp.partition)
    (answered : state.context.producePartition frame tp.topic asked = some (given, after))
    (accepted : given.error = .none)
    (later : Reaches (GroupReading.step groupId tp)
      (GroupReading.Admits groupId tp) { state with context := after } final) :
    ∃ batch log, mutableBatch asked.1 frame = .ok batch ∧ baseOf (stamped batch given.baseOffset) = given.baseOffset ∧
      final.context.logs.get tp = some log ∧
      (lastOf (stamped batch given.baseOffset) < log.logStartOffset ∨
        ∀ record ∈ recordsOf (stamped batch given.baseOffset), final.GotPast groupId tp record.offset →
          LogRecord.printed record ∈ final.printed) := by
  have always : Lasting fun _ => True := fun _ _ _ _ _ _ => trivial
  have before := group_run_holds data always (start_holds fresh uncommitted) reached
  rcases before.hosted with ⟨log, hosted, ⟨consumes, _⟩, _⟩
  have plainly : BrokerAction.Admits tp LogAction.Plain state.context (.produce frame tp.topic asked) :=
    fun here batch isBatch verified => (admitted here batch isBatch verified).plain
  rcases accepted_behind consumes.toWholeHolds hosted plainly named answered accepted with
    ⟨batch, next, isBatch, _, based, nextHosted, _, remembers⟩
  have moved : BrokerAction.step (.produce frame tp.topic asked) state.context = some after := by
    simp [BrokerAction.step, answered]
  have produced := broker_holds data always before admitted trivial moved
  have remembering : ({ state with context := after } : GroupReading ι).Holds groupId tp
      fun log => log.Remembers (stamped batch given.baseOffset) := by
    rcases produced.hosted with ⟨known, isKnown, ⟨knownHolds, _⟩, standing⟩
    have same : next = known := Option.some.inj (nextHosted.symm.trans isKnown)
    exact ⟨⟨known, isKnown, ⟨knownHolds, same ▸ remembers⟩, standing⟩, produced.whole⟩
  have kept := group_run_holds data (remembers_lasting _) remembering later
  rcases kept.hosted with ⟨last, lastHosted, ⟨_, lastRemembers⟩, _⟩
  refine ⟨batch, last, isBatch, based, lastHosted, ?_⟩
  rcases lastRemembers.kept with there | gone
  · exact .inr fun record inside past => got_past_printed kept lastHosted there inside past
  · exact .inl gone

end Run

/-- The members whose commits have not been answered wait for commits that are on
their way. -/
def GroupReading.Waits {ι : Type} (state : GroupReading ι) : Prop :=
  ∀ member position, state.members member = .committing position → (some member, position) ∈ state.commits

section Waiting

variable {ι : Type} [DecidableEq ι] {groupId : Bytes} {tp : TopicPartition} {state next : GroupReading ι}

theorem GroupReading.Waits.become (waits : state.Waits) {member : ι} {reading : Reading}
    (sent : ∀ position, reading = .committing position → (some member, position) ∈ state.commits) :
    (state.become member reading).Waits := by
  intro other position there
  by_cases same : other = member
  · subst same
    exact sent position (by simpa [GroupReading.become] using there)
  · exact waits other position (by simpa [GroupReading.become, same] using there)

theorem GroupReading.Waits.printedBy (waits : state.Waits) (member : ι) (position : Int) (printing : Printing) :
    (state.printedBy member position printing).Waits := by
  unfold GroupReading.printedBy
  split
  · apply GroupReading.Waits.become
    · exact waits
    · simp
  · apply GroupReading.Waits.become
    · intro other offset there
      exact List.mem_append_left _ (waits other offset there)
    · intro offset same
      cases same
      simp

/-- A commit that has been taken is one that nobody waits for any more. -/
theorem GroupReading.Waits.settled (waits : state.Waits) {place : Nat} {pending : Option ι × Int}
    (isPending : state.commits[place]? = some pending) (context : BrokerContext) (error : ErrorCode) :
    (({ state with context := context, commits := state.commits.eraseIdx place } : GroupReading ι).settled pending
      error).Waits := by
  have left : ∀ other position, state.members other = .committing position → pending.1 ≠ some other →
      (some other, position) ∈ state.commits.eraseIdx place := by
    intro other position there apart
    rcases List.getElem?_of_mem (waits other position there) with ⟨at_, isAt⟩
    refine List.mem_eraseIdx_iff_getElem?.mpr ⟨at_, ?_, isAt⟩
    rintro rfl
    rw [isPending] at isAt
    cases isAt
    exact apart rfl
  unfold GroupReading.settled
  split
  · next nobody =>
    intro other position there
    exact left other position there (by simp [nobody])
  · next member waiting =>
    intro other position there
    by_cases same : other = member
    · subst same
      simp [GroupReading.become] at there
    · refine left other position (by simpa [GroupReading.become, same] using there) ?_
      rw [waiting]
      exact fun equal => same (Option.some.inj equal).symm

theorem GroupReading.Waits.gone (waits : state.Waits) (member : ι) :
    ((state.orphan member).become member .away).Waits := by
  intro other position there
  by_cases same : other = member
  · subst same
    simp [GroupReading.become] at there
  · have sent := waits other position (by simpa [GroupReading.become, GroupReading.orphan, same] using there)
    exact List.mem_map.mpr ⟨_, sent, by simp [Option.filter, same]⟩

theorem of_reply_not_committing (topic : Bytes) (position : Int) (fetched : FetchedPartition) (other : Int) :
    Reading.ofReply topic position fetched ≠ .committing other := by
  unfold Reading.ofReply
  split <;> simp

theorem group_step_waits (waits : state.Waits) {action : ReadingAction ι}
    (taken : GroupReading.step groupId tp action state = some next) : next.Waits := by
  cases action with
  | broker action =>
      rcases Option.map_eq_some_iff.mp taken with ⟨context, _, rfl⟩
      exact waits
  | resume member =>
      simp only [GroupReading.step] at taken
      split at taken
      · rcases Option.bind_eq_some_iff.mp taken with ⟨⟨found, context⟩, _, moved⟩
        cases moved
        apply GroupReading.Waits.become
        · exact waits
        · simp
      · cases taken
  | fetch member =>
      simp only [GroupReading.step] at taken
      split at taken
      · next position _ =>
        rcases Option.bind_eq_some_iff.mp taken with ⟨⟨fetched, context⟩, _, moved⟩
        cases moved
        apply GroupReading.Waits.become
        · exact waits
        · exact fun other same => absurd same (of_reply_not_committing _ _ _ other)
      · cases taken
  | print member =>
      simp only [GroupReading.step] at taken
      split at taken
      · split at taken
        · cases taken
          exact waits.become (by simp)
        · cases taken
          exact waits.printedBy _ _ _
      · cases taken
  | commit place membership io =>
      rcases Option.bind_eq_some_iff.mp taken with ⟨pending, isPending, moved⟩
      rcases Option.bind_eq_some_iff.mp moved with ⟨⟨given, context⟩, _, done⟩
      cases done
      exact waits.settled isPending context given.error
  | goOn member =>
      simp only [GroupReading.step] at taken
      split at taken
      · cases taken
        refine waits.become fun other same => ?_
        split at same <;> cases same
      · cases taken
  | leave member =>
      cases taken
      exact waits.gone member

end Waiting

section Alone

variable {ι : Type} {groupId : Bytes} {tp : TopicPartition} {world : BrokerContext → ErrorCode × CommitIo}
  {kept : Log → Prop} {start state next : GroupReading ι} {member : ι} {position : Int}

theorem own_round_admitted {action : ReadingAction ι} (own : action.OwnRound world member state) :
    state.Admits groupId tp action := by
  cases action with
  | broker action => exact own.elim
  | resume | fetch | print | commit | goOn | leave => trivial

structure GroupReading.Apart (groupId : Bytes) (tp : TopicPartition) (log : Log) (state : GroupReading ι) : Prop where
  holds : state.Holds groupId tp fun _ => True
  waits : state.Waits
  same : state.context.Keeps tp (· = log)

theorem apart_hosted {log : Log} (apart : state.Apart groupId tp log) : state.context.logs.get tp = some log := by
  rcases apart.same.hosted with ⟨_, hosted, rfl⟩
  exact hosted

theorem reading_within {log : Log} (apart : state.Apart groupId tp log)
    (there : state.members member = .reading position) : position ≤ log.logEndOffset := by
  rcases apart.holds.hosted with ⟨known, isKnown, _, standing⟩
  rw [apart_hosted apart] at isKnown
  cases isKnown
  have stands := standing.members member
  rw [there] at stands
  exact stands.within

variable [DecidableEq ι]

/-- The runs of one member and of its commits, with nobody else there. -/
abbrev Alone (groupId : Bytes) (tp : TopicPartition) (world : BrokerContext → ErrorCode × CommitIo) (member : ι) :
    GroupReading ι → GroupReading ι → Prop :=
  Reaches (GroupReading.step groupId tp) fun state action => action.OwnRound world member state

/-- The broker does not take the commit that a member waits for: it answers with an
error, or not at all. -/
def GroupReading.Refused (groupId : Bytes) (tp : TopicPartition) (world : BrokerContext → ErrorCode × CommitIo)
    (member : ι) (state : GroupReading ι) : Prop :=
  ∃ position, state.members member = .committing position ∧
    ∀ given context, state.context.commitPartition groupId (world state.context).1 tp.topic
      (⟨tp.partition, position, []⟩, (world state.context).2) = some (given, context) → given.error ≠ .none

theorem own_round_same (data : tp.topic ≠ kOffsetsTopic) {log : Log} (same : state.context.Keeps tp (· = log))
    {action : ReadingAction ι} (own : action.OwnRound world member state)
    (taken : GroupReading.step groupId tp action state = some next) : next.context.Keeps tp (· = log) := by
  cases action with
  | broker | leave => exact own.elim
  | resume other =>
      simp only [GroupReading.step] at taken
      split at taken
      · rcases Option.bind_eq_some_iff.mp taken with ⟨⟨found, context⟩, answered, moved⟩
        cases moved
        unfold BrokerContext.fetchOffset at answered
        split at answered <;> cases answered <;> exact same
      · cases taken
  | fetch other =>
      simp only [GroupReading.step] at taken
      split at taken
      · rcases Option.bind_eq_some_iff.mp taken with ⟨⟨fetched, context⟩, answered, moved⟩
        cases moved
        simp only [BrokerContext.fetchPartition] at answered
        split at answered
        · cases answered
          exact same
        · rcases Option.bind_eq_some_iff.mp answered with ⟨_, _, rest⟩
          rcases Option.bind_eq_some_iff.mp rest with ⟨_, _, given⟩
          cases given
          exact same
      · cases taken
  | print other =>
      simp only [GroupReading.step] at taken
      split at taken
      · split at taken
        · cases taken
          exact same
        · cases taken
          unfold GroupReading.printedBy
          split <;> exact same
      · cases taken
  | commit place membership io =>
      rcases Option.bind_eq_some_iff.mp taken with ⟨pending, _, moved⟩
      rcases Option.bind_eq_some_iff.mp moved with ⟨⟨given, context⟩, answered, done⟩
      cases done
      rw [settled_context]
      exact commit_keeps data same answered
  | goOn other =>
      simp only [GroupReading.step] at taken
      split at taken
      · cases taken
        exact same
      · cases taken

theorem alone_apart (data : tp.topic ≠ kOffsetsTopic) {log : Log} (apart : start.Apart groupId tp log)
    (ran : Alone groupId tp world member start state) : state.Apart groupId tp log := by
  have always : Lasting fun _ => True := fun _ _ _ _ _ _ => trivial
  exact ran.invariant _ _ (GroupReading.Apart groupId tp log) apart fun _ _ _ before own taken =>
    ⟨group_step_holds data always before.holds (own_round_admitted own) taken, group_step_waits before.waits taken,
      own_round_same data before.same own taken⟩

theorem away_comes_to_read (ran : Alone groupId tp world member start state) (there : state.members member = .away) :
    ∃ next position, Alone groupId tp world member start next ∧ next.members member = .reading position := by
  have answered : ∃ found, state.context.fetchOffset groupId tp.topic tp.partition = some (found, state.context) := by
    unfold BrokerContext.fetchOffset
    split
    · exact ⟨_, rfl⟩
    · exact ⟨_, rfl⟩
  rcases answered with ⟨found, answered⟩
  refine ⟨state.become member (.reading ((committed found.received).getD 0)), (committed found.received).getD 0,
    .step ran (.resume member) rfl ?_, by simp [GroupReading.become]⟩
  simp [GroupReading.step, there, answered]

theorem answered_goes_on {error : ErrorCode} (ran : Alone groupId tp world member start state)
    (there : state.members member = .answered position error) :
    Alone groupId tp world member start (state.become member (if error = .none then .reading position else .away)) :=
  .step ran (.goOn member) rfl (by simp [GroupReading.step, there])

theorem committing_comes_to_read (ran : Alone groupId tp world member start state) (waits : state.Waits)
    (there : state.members member = .committing position) :
    state.Refused groupId tp world member ∨
      ∃ next, Alone groupId tp world member start next ∧ next.members member = .reading position := by
  by_cases accepted : ∃ given context, state.context.commitPartition groupId (world state.context).1 tp.topic
      (⟨tp.partition, position, []⟩, (world state.context).2) = some (given, context) ∧ given.error = .none
  · rcases accepted with ⟨given, context, answered, fine⟩
    rcases List.getElem?_of_mem (waits member position there) with ⟨place, isPending⟩
    have taken : GroupReading.step groupId tp (.commit place (world state.context).1 (world state.context).2) state =
        some (({ state with context := context, commits := state.commits.eraseIdx place } : GroupReading ι).become
          member (.answered position .none)) := by
      simp [GroupReading.step, isPending, answered, GroupReading.settled, fine]
    have committed := Reaches.step ran (.commit place (world state.context).1 (world state.context).2)
      (⟨by simp [isPending], rfl⟩ : ReadingAction.OwnRound world member state (.commit place _ _)) taken
    have there : (({ state with context := context, commits := state.commits.eraseIdx place } : GroupReading ι).become
        member (.answered position .none)).members member = .answered position .none := by simp [GroupReading.become]
    have goes := answered_goes_on committed there
    exact .inr ⟨_, goes, by simp [GroupReading.become]⟩
  · refine .inl ⟨position, there, ?_⟩
    intro given context answered fine
    exact accepted ⟨given, context, answered, fine⟩

/-- One that has printed goes on from where that took it, unless its commit is refused. -/
theorem printed_comes_to_read {answer : ReceivedFetch} {printing : Printing} (waits : state.Waits)
    (ran : Alone groupId tp world member start state)
    (there : state.members member = .fetched position answer) (once : fetchOnce answer position = some printing) :
    ∃ next, Alone groupId tp world member start next ∧
      (next.Refused groupId tp world member ∨ next.members member = .reading printing.offset) := by
  have printed : Alone groupId tp world member start (state.printedBy member position printing) :=
    .step ran (.print member) rfl (by simp [GroupReading.step, there, once])
  by_cases same : printing.offset = position
  · refine ⟨_, printed, .inr ?_⟩
    simp [GroupReading.printedBy, GroupReading.become, same]
  · have committing : (state.printedBy member position printing).members member = .committing printing.offset := by
      simp [GroupReading.printedBy, GroupReading.become, same]
    rcases committing_comes_to_read printed (waits.printedBy member position printing) committing with
      refused | ⟨next, gone, reads⟩
    · exact ⟨_, printed, .inl refused⟩
    · exact ⟨next, gone, .inr reads⟩

theorem comes_to_read (waits : state.Waits) (member : ι) :
    ∃ next, Alone groupId tp world member state next ∧
      (next.Refused groupId tp world member ∨ ∃ position, next.members member = .reading position) := by
  cases there : state.members member with
  | away =>
      rcases away_comes_to_read .start there with ⟨next, position, ran, reads⟩
      exact ⟨next, ran, .inr ⟨position, reads⟩⟩
  | reading position => exact ⟨state, .start, .inr ⟨position, there⟩⟩
  | committing position =>
      rcases committing_comes_to_read .start waits there with refused | ⟨next, ran, reads⟩
      · exact ⟨state, .start, .inl refused⟩
      · exact ⟨next, ran, .inr ⟨position, reads⟩⟩
  | answered position error =>
      have gone : Alone groupId tp world member state
          (state.become member (if error = .none then .reading position else .away)) := answered_goes_on .start there
      by_cases fine : error = .none
      · exact ⟨_, gone, .inr ⟨position, by simp [GroupReading.become, fine]⟩⟩
      · rcases away_comes_to_read gone (by simp [GroupReading.become, fine]) with ⟨next, position, ran, reads⟩
        exact ⟨next, ran, .inr ⟨position, reads⟩⟩
  | fetched position answer =>
      cases once : fetchOnce answer position with
      | none =>
          have gone : Alone groupId tp world member state (state.become member .away) :=
            .step .start (.print member) rfl (by simp [GroupReading.step, there, once])
          rcases away_comes_to_read gone (by simp [GroupReading.become]) with ⟨next, position, ran, reads⟩
          exact ⟨next, ran, .inr ⟨position, reads⟩⟩
      | some printing =>
          rcases printed_comes_to_read waits .start there once with ⟨next, ran, refused | reads⟩
          · exact ⟨next, ran, .inl refused⟩
          · exact ⟨next, ran, .inr ⟨_, reads⟩⟩

/-- A member that is not at the end gets further, unless its commit is refused. -/
theorem alone_gets_on {log : Log} (apart : state.Apart groupId tp log) (short : tp.topic.length < 2 ^ 15)
    (fits : ∀ batch ∈ log.batches, ReplyFits tp.topic batch.length)
    (ran : Alone groupId tp world member start state) (there : state.members member = .reading position)
    (before : position ≠ log.logEndOffset) :
    ∃ next, Alone groupId tp world member start next ∧ (next.Refused groupId tp world member ∨
      ∃ further, next.members member = .reading further ∧ position < further) := by
  rcases round_gets_on apart.holds there with ⟨known, fetched, printing, isKnown, _, answered, once, _, getsOn, replied⟩
  rw [apart_hosted apart] at isKnown
  cases isKnown
  have small := replied tp.topic short ((answers_fit_short short le_rfl).mpr fun batch member _ => fits batch member)
  rcases getsOn with forward | ⟨_, atEnd⟩
  · have asked : Alone groupId tp world member start (state.become member (.fetched position fetched.received)) := by
      refine .step ran (.fetch member) rfl ?_
      simp [GroupReading.step, there, answered, Reading.ofReply, takes_iff.mpr small]
    have waits : (state.become member (.fetched position fetched.received)).Waits := apart.waits.become (by simp)
    rcases printed_comes_to_read waits asked (by simp [GroupReading.become]) once with ⟨next, gone, refused | reads⟩
    · exact ⟨next, gone, .inl refused⟩
    · exact ⟨next, gone, .inr ⟨printing.offset, reads, forward⟩⟩
  · exact absurd atEnd before

theorem alone_reaches_end (data : tp.topic ≠ kOffsetsTopic) {log : Log} (apart : start.Apart groupId tp log)
    (short : tp.topic.length < 2 ^ 15) (fits : ∀ batch ∈ log.batches, ReplyFits tp.topic batch.length) (left : Nat)
    (ran : Alone groupId tp world member start state) (there : state.members member = .reading position)
    (enough : log.logEndOffset - position ≤ left) :
    ∃ final, Alone groupId tp world member start final ∧
      (final.Refused groupId tp world member ∨ final.members member = .reading log.logEndOffset) := by
  induction left generalizing state position with
  | zero =>
      have within := reading_within (alone_apart data apart ran) there
      have atEnd : position = log.logEndOffset := by omega
      exact ⟨state, ran, .inr (atEnd ▸ there)⟩
  | succ left ih =>
      by_cases atEnd : position = log.logEndOffset
      · exact ⟨state, ran, .inr (atEnd ▸ there)⟩
      · rcases alone_gets_on (alone_apart data apart ran) short fits ran there atEnd with
          ⟨next, gone, refused | ⟨further, reads, forward⟩⟩
        · exact ⟨next, gone, .inl refused⟩
        · exact ih gone reads (by omega)

/-- Out of every state that the group and the broker can get into, any member that is
left alone with a log whose batches fit into frames gets to its end, and everything in
it has been printed then; or the broker does not take one of the member's commits. -/
theorem members_catch_up {started : BrokerContext} {log : Log} (data : tp.topic ≠ kOffsetsTopic)
    (fresh : started.HostsFresh tp)
    (uncommitted : started.offsets.committed ⟨groupId, tp.topic, tp.partition⟩ = none)
    (reached : Reaches (GroupReading.step groupId tp) (GroupReading.Admits groupId tp) (.start started) state)
    (hosted : state.context.logs.get tp = some log) (fits : ∀ batch ∈ log.batches, ReplyFits tp.topic batch.length)
    (world : BrokerContext → ErrorCode × CommitIo) (member : ι) :
    ∃ final, Alone groupId tp world member state final ∧ final.context.logs.get tp = some log ∧
      (final.Refused groupId tp world member ∨ final.members member = .reading log.logEndOffset ∧
        ∀ record ∈ log.batches.flatMap recordsOf, LogRecord.printed record ∈ final.printed) := by
  have always : Lasting fun _ => True := fun _ _ _ _ _ _ => trivial
  have holds := group_run_holds data always (start_holds fresh uncommitted) reached
  have waits : state.Waits := reached.invariant _ _ GroupReading.Waits (by simp [GroupReading.Waits, GroupReading.start])
    fun _ _ _ before _ taken => group_step_waits before taken
  have short : tp.topic.length < 2 ^ 15 := by
    rcases fresh.hosted with ⟨_, _, _, _, named, _⟩
    exact named.short
  have apart : state.Apart groupId tp log := ⟨holds, waits, ⟨log, hosted, rfl⟩, holds.whole⟩
  rcases comes_to_read waits member with ⟨reading, ran, refused | ⟨position, there⟩⟩
  · exact ⟨reading, ran, apart_hosted (alone_apart data apart ran), .inl refused⟩
  have enough := Int.self_le_toNat (log.logEndOffset - position)
  rcases alone_reaches_end data apart short fits _ ran there enough with ⟨final, gone, refused | atEnd⟩
  · exact ⟨final, gone, apart_hosted (alone_apart data apart gone), .inl refused⟩
  have finalApart := alone_apart data apart gone
  refine ⟨final, gone, apart_hosted finalApart, .inr ⟨atEnd, ?_⟩⟩
  intro record inLog
  rcases List.mem_flatMap.mp inLog with ⟨batch, inBatches, inside⟩
  rcases finalApart.holds.hosted with ⟨known, isKnown, ⟨consumes, _⟩, _⟩
  rw [apart_hosted finalApart] at isKnown
  cases isKnown
  rcases log_consecutive consumes.tiled with ⟨consecutive, reaches⟩
  have ends := last_lt_end consecutive.ascending inBatches
  have upTo := (record_within (consumes.readable batch inBatches) inside).2
  exact got_past_printed finalApart.holds (apart_hosted finalApart) inBatches inside
    (.behind member log.logEndOffset (.inl atEnd) (by omega))

end Alone

instance {ι : Type} [DecidableEq ι] (world : BrokerContext → ErrorCode × CommitIo) (member : ι)
    (state : GroupReading ι) (action : ReadingAction ι) : Decidable (action.OwnRound world member state) :=
  match action with
  | .resume other | .fetch other | .print other | .goOn other => inferInstanceAs (Decidable (other = member))
  | .commit _ _ _ => inferInstanceAs (Decidable (_ ∧ _))
  | .broker _ | .leave _ => inferInstanceAs (Decidable False)

def hostingBoth (log offsets : Log) : BrokerContext :=
  { hostingOne log with
    logs := { dataDir := "data", defaults := {}, logs := [(⟨[116], 0⟩, log), (⟨kOffsetsTopic, 0⟩, offsets)] } }

/-- The member is one of the group and the write of its commit does not fail. -/
def commitsTaken (_ : BrokerContext) : ErrorCode × CommitIo := (.none, { rollMs := 0, clockMs := 0, nowMs := 0 })

/-- A broker that has taken one record, and a member that has read it and has committed
behind it. -/
theorem one_record_read :
    ∃ (started after : BrokerContext) (given : ProducedPartition) (final : GroupReading Unit) (log : Log),
      started.HostsFresh ⟨[116], 0⟩ ∧ started.offsets.committed ⟨[103], [116], 0⟩ = none ∧
      BrokerAction.Admits ⟨[116], 0⟩ ProducesReadable started
        (.produce (recordBatchOf 10 none (some [118])) [116] oneRecordEntry) ∧
      started.producePartition (recordBatchOf 10 none (some [118])) [116] oneRecordEntry = some (given, after) ∧
      given.error = .none ∧
      Alone [103] ⟨[116], 0⟩ commitsTaken () { GroupReading.start started with context := after } final ∧
      final.printed = [⟨0, [118]⟩] ∧ final.commits = [] ∧ final.context.logs.get ⟨[116], 0⟩ = some log ∧
      ∀ batch ∈ log.batches, ReplyFits [116] batch.length := by
  rcases (⟨_, rfl⟩ : ∃ log, Log.create ⟨[116], 0⟩ "t-0" twoBatchConfig = .ok log) with ⟨log, made⟩
  rcases (⟨_, rfl⟩ : ∃ log, Log.create ⟨kOffsetsTopic, 0⟩ "o-0" {} = .ok log) with ⟨offsets, offsetsMade⟩
  have fresh : (hostingBoth log offsets).HostsFresh ⟨[116], 0⟩ :=
    ⟨⟨"t-0", twoBatchConfig, log, rfl, ⟨by decide, by decide, by decide, by decide⟩, storable_two_batch_config, rfl,
      made⟩, List.not_mem_nil⟩
  have ran : ((Log.create ⟨[116], 0⟩ "t-0" twoBatchConfig).toOption.bind fun log =>
      (Log.create ⟨kOffsetsTopic, 0⟩ "o-0" {}).toOption.bind fun offsets =>
      ((hostingBoth log offsets).producePartition (recordBatchOf 10 none (some [118])) [116] oneRecordEntry).bind
        fun answered =>
          (runAll (GroupReading.step [103] ⟨[116], 0⟩) (fun state action => action.OwnRound commitsTaken () state)
            [.resume (), .fetch (), .print (), .commit 0 .none { rollMs := 0, clockMs := 0, nowMs := 0 }, .goOn ()]
            { GroupReading.start (hostingBoth log offsets) with context := answered.2 }).map fun final =>
              decide (answered.1.error = .none ∧ final.printed = [⟨0, [118]⟩] ∧ final.commits = []) &&
                (final.context.logs.get ⟨[116], 0⟩).any fun log =>
                  decide (∀ batch ∈ log.batches, ReplyFits [116] batch.length)) = some true := by
    decide +kernel
  simp only [made, offsetsMade, Except.toOption, Option.bind_some] at ran
  rcases Option.bind_eq_some_iff.mp ran with ⟨⟨given, after⟩, answered, read⟩
  rcases found_by_run (GroupReading.step [103] ⟨[116], 0⟩)
    (fun state action => action.OwnRound commitsTaken () state) _ _ _ read with ⟨final, reached, checked⟩
  rcases Bool.and_eq_true_iff.mp checked with ⟨seen, held⟩
  rcases of_decide_eq_true seen with ⟨accepted, printed, taken⟩
  rcases hosted : final.context.logs.get ⟨[116], 0⟩ with _ | last
  · simp [hosted] at held
  rw [hosted, Option.any_some] at held
  have admitted : BrokerAction.Admits ⟨[116], 0⟩ ProducesReadable (hostingBoth log offsets)
      (.produce (recordBatchOf 10 none (some [118])) [116] oneRecordEntry) := by
    intro _ batch isBatch _
    have whole : mutableBatch oneRecordEntry.1 (recordBatchOf 10 none (some [118])) =
        .ok (recordBatchOf 10 none (some [118])) := by decide +kernel
    rw [whole] at isBatch
    cases isBatch
    exact ⟨by decide +kernel, rfl⟩
  exact ⟨hostingBoth log offsets, after, given, final, _, fresh, rfl, admitted, answered, accepted, reached, printed,
    taken, hosted, of_decide_eq_true held⟩

theorem acknowledged_records_reach_the_group_read :
    ∃ (started after : BrokerContext) (given : ProducedPartition) (final : GroupReading Unit),
      started.producePartition (recordBatchOf 10 none (some [118])) [116] oneRecordEntry = some (given, after) ∧
      given.error = .none ∧
      Alone [103] ⟨[116], 0⟩ commitsTaken () { GroupReading.start started with context := after } final ∧
      final.printed = [⟨0, [118]⟩] ∧
      ∃ batch log, mutableBatch oneRecordEntry.1 (recordBatchOf 10 none (some [118])) = .ok batch ∧
        baseOf (stamped batch given.baseOffset) = given.baseOffset ∧ final.context.logs.get ⟨[116], 0⟩ = some log ∧
        (lastOf (stamped batch given.baseOffset) < log.logStartOffset ∨
          ∀ record ∈ recordsOf (stamped batch given.baseOffset), final.GotPast [103] ⟨[116], 0⟩ record.offset →
            LogRecord.printed record ∈ final.printed) := by
  rcases one_record_read with ⟨started, after, given, final, _, fresh, uncommitted, admitted, answered, accepted,
    ran, printed, _⟩
  exact ⟨started, after, given, final, answered, accepted, ran, printed,
    acknowledged_records_reach_the_group (by decide) fresh uncommitted .start admitted rfl answered accepted
      (ran.mono _ _ fun _ _ own => own_round_admitted own)⟩

theorem members_catch_up_read :
    ∃ (state final : GroupReading Unit) (log : Log), state.printed = [⟨0, [118]⟩] ∧
      Alone [103] ⟨[116], 0⟩ commitsTaken () state final ∧ final.context.logs.get ⟨[116], 0⟩ = some log ∧
      (final.Refused [103] ⟨[116], 0⟩ commitsTaken () ∨ final.members () = .reading log.logEndOffset ∧
        ∀ record ∈ log.batches.flatMap recordsOf, LogRecord.printed record ∈ final.printed) := by
  rcases one_record_read with ⟨started, after, given, state, log, fresh, uncommitted, admitted, answered, accepted,
    ran, printed, _, hosted, fits⟩
  have produced : Reaches (GroupReading.step [103] ⟨[116], 0⟩) (GroupReading.Admits [103] ⟨[116], 0⟩)
      (.start started) ({ GroupReading.start started with context := after } : GroupReading Unit) := by
    refine .step .start (.broker (.produce _ [116] oneRecordEntry)) ⟨admitted, trivial⟩ ?_
    simp [GroupReading.step, BrokerAction.step, GroupReading.start, answered]
  have reached := produced.trans (ran.mono _ _ fun _ _ own => own_round_admitted own)
  rcases members_catch_up (by decide) fresh uncommitted reached hosted fits commitsTaken () with ⟨final, gone⟩
  exact ⟨state, final, log, printed, gone⟩

end DariyaKyu.Cli

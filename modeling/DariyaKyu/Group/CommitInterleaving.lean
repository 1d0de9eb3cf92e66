import DariyaKyu.Group.CommitCodec
import DariyaKyu.Group.OffsetReplay
import DariyaKyu.Library.GuardedRun
import DariyaKyu.Library.KeyedHistory
import DariyaKyu.Storage.BatchRoundTrip

/-!
Commits and forgets from several connections at once. Each of them appends its
record under the lock of a log and updates the map under the lock of the store,
and no lock is held from one to the other: a call that appended first may update
last. The map is what a replay would make of the logs as long as no call updates
it behind the one that wrote the newest record of the same key.
-/

namespace DariyaKyu.Groups

set_option autoImplicit false

open Storage Protocol Cli LateWrites

/-- The logs and the store, the commits in the order in which they were appended,
and the calls that have still to update the map, each by the place of its commit. -/
structure Committers where
  logs : LogManager
  store : OffsetStore
  recorded : List (CommitKey × Option CommitValue) := []
  waiting : List Nat := []

/-- What a connection does next: the append of a commit or of a forget, at these
readings of the clock, or the update that one of the calls under way has left. -/
inductive CommitterAction where
  | commit (key : CommitKey) (value : CommitValue) (rollMs clockMs : Int)
  | forget (key : CommitKey) (nowMs rollMs clockMs : Int)
  | update (place : Nat)

namespace Committers

/-- The append; a call that throws there is over. -/
def record (state : Committers) (hash : Bytes → Nat) (key : CommitKey) (value : Option CommitValue)
    (timestampMs rollMs clockMs : Int) : Option Committers :=
  match state.store.appendRecord hash state.logs key value timestampMs ⟨rollMs, clockMs, none⟩ with
  | .error _ => some state
  | .ok (_, .ruined _) => none
  | .ok (tp, .threw _ log) => some { state with logs := state.logs.put tp log }
  | .ok (tp, .returned _ log) =>
      some { state with
        logs := state.logs.put tp log
        recorded := state.recorded ++ [(key, value)]
        waiting := state.waiting ++ [state.recorded.length] }

def step (hash : Bytes → Nat) : CommitterAction → Committers → Option Committers
  | .commit key value rollMs clockMs, state =>
      state.record hash key (some value) value.commitTimestampMs rollMs clockMs
  | .forget key nowMs rollMs clockMs, state => state.record hash key none nowMs rollMs clockMs
  | .update place, state => do
      let position ← state.waiting[place]?
      let write ← state.recorded[position]?
      return { state with
        store := state.store.update write.1 write.2
        waiting := state.waiting.eraseIdx place }

def start (logs : LogManager) (partitions : Int) : Committers := ⟨logs, { partitions := partitions }, [], []⟩

/-- The commits and the map, without the logs. -/
def tabled (state : Committers) : Tabled CommitKey CommitValue :=
  ⟨state.recorded, state.waiting, state.store.committed⟩

def recordsFor (state : Committers) (hash : Bytes → Nat) (group : Bytes) : List LogRecord :=
  match state.store.partitionFor hash group with
  | .error _ => []
  | .ok partition =>
      ((state.logs.get ⟨kOffsetsTopic, partition⟩).map fun log => log.batches.flatMap recordsOf).getD []

end Committers

/-- What the types of the arguments hold. A position below zero does not come out
of the decoder of a request. -/
def CommitterAction.Typed : CommitterAction → Prop
  | .commit key value _ _ => FitsSigned 32 key.partition ∧ FitsSigned 64 value.nextOffset ∧
      0 ≤ value.nextOffset ∧ FitsSigned 64 value.commitTimestampMs
  | .forget key nowMs _ _ => FitsSigned 32 key.partition ∧ FitsSigned 64 nowMs
  | .update _ => True

/-- An update comes while the newest record of its key, which may be its own, has
not been put into the map. -/
def Committers.InTime (state : Committers) : CommitterAction → Prop
  | .update place => state.tabled.InTime (.arrive place)
  | _ => True

def committedKey (record : LogRecord) : Option CommitKey := (saidBy record).map Prod.fst

def committedValue (record : LogRecord) : Option CommitValue := (saidBy record).bind Prod.snd

/-- The map is what a replay of the logs makes, and of every key it holds what the
record at the highest offset says. -/
structure Committers.Agrees (hash : Bytes → Nat) (state : Committers) : Prop where
  replayed : ∃ enough, ∀ rounds, enough ≤ rounds →
    ({ partitions := state.store.partitions } : OffsetStore).replay state.logs rounds =
      some (.ok state.store)
  newest : ∀ key record, KeyedHistory.Newest committedKey LogRecord.offset
    (state.recordsFor hash key.group) record key → state.store.committed key = committedValue record
  absent : ∀ key, (∀ record ∈ state.recordsFor hash key.group, committedKey record ≠ some key) →
    state.store.committed key = none

def freshOffsets (logs : LogManager) : Prop :=
  ∀ partition log, logs.get ⟨kOffsetsTopic, partition⟩ = some log →
    ∃ dir config, StorableName ⟨kOffsetsTopic, partition⟩ ∧ config.Storable ∧
      Log.create ⟨kOffsetsTopic, partition⟩ dir config = .ok log

section Records

variable {key : CommitKey} {value : Option CommitValue}

theorem written_string {value bytes : Bytes} (wrote : writeString value = .ok bytes) :
    value.length < 2 ^ 15 ∧ bytes.length = value.length + 2 := by
  by_cases short : value.length < 2 ^ 15
  · rw [write_string_ok short, Except.ok.injEq] at wrote
    subst wrote
    exact ⟨short, by simp [writeInt16, writeInt]; omega⟩
  · rw [writeString, if_pos (by omega)] at wrote
    cases wrote

theorem encoded_commit_key {bytes : Bytes} (typed : FitsSigned 32 key.partition)
    (encoded : encodeCommitKey key = .ok bytes) :
    decodeCommitKey bytes = .ok key ∧ bytes.length < 2 ^ 17 := by
  obtain ⟨group, wroteGroup, rest⟩ := except_bind_ok encoded
  obtain ⟨topic, wroteTopic, shape⟩ := except_bind_ok rest
  obtain ⟨shortGroup, groupLength⟩ := written_string wroteGroup
  obtain ⟨shortTopic, topicLength⟩ := written_string wroteTopic
  obtain ⟨other, wrote, reads⟩ := commit_key_read_back ⟨shortGroup, shortTopic, typed⟩
  rw [encoded, Except.ok.injEq] at wrote
  subst wrote
  refine ⟨reads, ?_⟩
  cases shape
  simp [writeInt16, writeInt32, writeInt]
  omega

theorem encoded_commit_value {committed : CommitValue} {bytes : Bytes}
    (typed : FitsSigned 64 committed.nextOffset ∧ FitsSigned 64 committed.commitTimestampMs)
    (reached : 0 ≤ committed.nextOffset) (encoded : encodeCommitValue committed = .ok bytes) :
    decodeCommitValue bytes = .ok committed ∧ bytes.length < 2 ^ 17 := by
  obtain ⟨metadata, wrote, shape⟩ := except_bind_ok encoded
  obtain ⟨short, length⟩ := written_string wrote
  obtain ⟨other, again, reads⟩ := commit_value_read_back ⟨typed.1, reached, short, typed.2⟩
  rw [encoded, Except.ok.injEq] at again
  subst again
  refine ⟨reads, ?_⟩
  cases shape
  simp [writeInt16, writeInt64, writeInt]
  omega

structure Committable (key : CommitKey) (value : Option CommitValue) (timestampMs : Int) : Prop where
  partition : FitsSigned 32 key.partition
  value : ∀ committed ∈ value, (FitsSigned 64 committed.nextOffset ∧
    FitsSigned 64 committed.commitTimestampMs) ∧ 0 ≤ committed.nextOffset
  timestamp : FitsSigned 64 timestampMs

theorem batch_for_says {timestampMs : Int} {batch : Bytes} (committable : Committable key value timestampMs)
    (built : batchFor key value timestampMs = .ok batch) :
    ∃ record : LogRecord, WellFormedBatch batch [record] ∧
      commitOf record.key record.value = .ok (some (key, value)) := by
  obtain ⟨keyBytes, isKey, built⟩ := except_bind_ok built
  obtain ⟨valueBytes, isValue, built⟩ := except_bind_ok built
  obtain ⟨builder, appended, built⟩ := except_bind_ok built
  obtain ⟨readsKey, shortKey⟩ := encoded_commit_key committable.partition isKey
  obtain ⟨readsValue, shortValue⟩ : valueBytes.mapM decodeCommitValue = .ok value ∧
      (valueBytes.getD []).length < 2 ^ 17 := by
    cases value with
    | none =>
        cases isValue
        exact ⟨rfl, by decide⟩
    | some committed =>
        obtain ⟨bytes, encoded, isBytes⟩ := except_bind_ok isValue
        cases isBytes
        obtain ⟨typed, reached⟩ := committable.value committed rfl
        obtain ⟨reads, short⟩ := encoded_commit_value typed reached encoded
        exact ⟨by rw [Option.mapM_some, reads]; rfl, short⟩
  have fit : RecordsFit 0 [⟨0, timestampMs, some keyBytes, valueBytes, []⟩] :=
    { ordered := by simp
      lower := by simp
      upper := by simp
      timestamps := by simpa using committable.timestamp
      small := by
        simp only [List.map_cons, List.map_nil, List.sum_cons, List.sum_nil, recordBound, kBatchHeaderSize,
          Option.getD_some]
        omega }
  obtain ⟨next, again, holds⟩ := @append_at_holds 0 {} []
    ⟨0, timestampMs, some keyBytes, valueBytes, []⟩ (builder_holds_fresh 0) fit
  have same : next = builder := by
    have both : (Except.ok next : Except Error RecordBatchBuilder) = .ok builder := again.symm.trans appended
    exact Except.ok.inj both
  subst same
  have formed := built_well_formed holds fit (by simp)
  rw [build_eq next (by rw [holds.count]; simp), Except.ok.injEq] at built
  subst built
  refine ⟨_, formed, ?_⟩
  simp only [commitOf, readsKey, readsValue, except_ok_bind]
  rfl

theorem stamped_says {batch : Bytes} {record : LogRecord} (formed : WellFormedBatch batch [record])
    {write : CommitKey × Option CommitValue} (isWrite : commitOf record.key record.value = .ok (some write))
    {base : Int} (range : FitsSigned 64 base) :
    Replayable (stamped batch base) ∧ commitsIn (stamped batch base) = [write] := by
  have moved := formed.stamp base range
  have records := records_of_formed moved
  simp only [List.map_cons, List.map_nil] at moved records
  refine ⟨⟨records ▸ moved, ?_⟩, ?_⟩
  · intro other member
    rw [records] at member
    rw [List.mem_singleton.mp member]
    exact ⟨_, isWrite⟩
  · have said : commitOf (record.shift (base - (headerOf batch).baseOffset)).key
        (record.shift (base - (headerOf batch).baseOffset)).value = .ok (some write) := isWrite
    simp [commitsIn, records, saidBy, said, Except.toOption]

end Records

def partitionOf (hash : Bytes → Nat) (partitions : Int) (key : CommitKey) : Int :=
  (hash key.group % partitions.toNat : Nat)

/-- The invariant: every log of `__offsets` replays and holds its share of the
commits in their order, and the map is behind only on what is still to come. -/
structure Committers.Holds (hash : Bytes → Nat) (state : Committers) : Prop where
  whole : ∀ partition log, state.logs.get ⟨kOffsetsTopic, partition⟩ = some log → ReplaysWhole log
  shared : ∀ partition, LogManager.commitsOf state.logs partition =
    state.recorded.filter (partitionOf hash state.store.partitions ·.1 = partition)
  numbered : ∀ write ∈ state.recorded,
    partitionOf hash state.store.partitions write.1 ∈ state.store.partitionNumbers
  current : state.tabled.Current fun _ => none

section Steps

variable {hash : Bytes → Nat} {state next : Committers} {logs : LogManager}

theorem partition_for_ok {store : OffsetStore} {group : Bytes} {partition : Int}
    (routed : store.partitionFor hash group = .ok partition) :
    partition = (hash group % store.partitions.toNat : Nat) ∧ partition ∈ store.partitionNumbers := by
  unfold OffsetStore.partitionFor coordinatorPartition at routed
  split at routed
  · cases routed
  · next positive =>
    cases routed
    refine ⟨rfl, List.mem_map_of_mem (List.mem_range.mpr (Nat.mod_lt _ ?_))⟩
    omega

theorem whole_put {partition : Int} {after : Log} (afterWhole : ReplaysWhole after)
    (whole : ∀ partition log, logs.get ⟨kOffsetsTopic, partition⟩ = some log → ReplaysWhole log) :
    ∀ other log, (logs.put ⟨kOffsetsTopic, partition⟩ after).get ⟨kOffsetsTopic, other⟩ = some log →
      ReplaysWhole log := by
  intro other log found
  rw [LogManager.get_put] at found
  split at found
  · obtain ⟨_, _, rfl⟩ := Option.map_eq_some_iff.mp found
    exact afterWhole
  · exact whole other log found

theorem commits_of_put {partition : Int} {log : Log} (hosted : logs.get ⟨kOffsetsTopic, partition⟩ = some log)
    (after : Log) (other : Int) :
    LogManager.commitsOf (logs.put ⟨kOffsetsTopic, partition⟩ after) other =
      if other = partition then after.batches.flatMap commitsIn else LogManager.commitsOf logs other := by
  unfold LogManager.commitsOf
  rw [LogManager.get_put]
  by_cases same : other = partition
  · subst same
    simp [hosted]
  · simp [same]

/-- An append that returns puts the commit into its partition and on its way to the map. -/
theorem record_holds (holds : state.Holds hash) {key : CommitKey} {value : Option CommitValue}
    {timestampMs rollMs clockMs : Int} (committable : Committable key value timestampMs)
    (taken : state.record hash key value timestampMs rollMs clockMs = some next) : next.Holds hash := by
  unfold Committers.record OffsetStore.appendRecord at taken
  cases routed : state.store.partitionFor hash key.group with
  | error failure =>
      simp only [routed, Option.some.injEq] at taken
      exact taken ▸ holds
  | ok partition =>
      cases hosted : state.logs.get ⟨kOffsetsTopic, partition⟩ with
      | none =>
          simp only [routed, hosted, Option.some.injEq] at taken
          exact taken ▸ holds
      | some log =>
          cases built : batchFor key value timestampMs with
          | error failure =>
              simp only [routed, hosted, built, Option.some.injEq] at taken
              exact taken ▸ holds
          | ok batch =>
              obtain ⟨record, formed, isWrite⟩ := batch_for_says committable built
              have whole := holds.whole partition log hosted
              have here : log.batches.flatMap commitsIn =
                  state.recorded.filter (partitionOf hash state.store.partitions ·.1 = partition) := by
                rw [← holds.shared, LogManager.commitsOf, hosted]
              obtain ⟨isPartition, numbered⟩ := partition_for_ok routed
              rcases tiled_append whole.toTiledHolds formed.toIntactBatch rollMs clockMs with
                ⟨after, returned, tiled, range, batches⟩ | ⟨failure, after, threw, tiled, batches⟩
              · simp only [routed, hosted, built, returned, Option.some.injEq] at taken
                subst taken
                obtain ⟨replayable, commits⟩ := stamped_says formed isWrite range
                have afterWhole : ReplaysWhole after := by
                  refine ⟨tiled, ?_⟩
                  intro other member
                  rw [batches] at member
                  rcases List.mem_append.mp member with old | new
                  · exact whole.replayable other old
                  · rw [List.mem_singleton.mp new]
                    exact replayable
                refine ⟨whole_put afterWhole holds.whole, ?_, ?_, Tabled.append_current holds.current key value rfl⟩
                · intro other
                  rw [commits_of_put hosted, List.filter_append, ← holds.shared]
                  by_cases same : other = partition
                  · subst same
                    have own : partitionOf hash state.store.partitions key = other := isPartition.symm
                    rw [if_pos rfl, batches, List.flatMap_append, here, ← holds.shared]
                    simp [commits, own]
                  · have elsewhere : partitionOf hash state.store.partitions key ≠ other :=
                      fun own => same (own ▸ isPartition.symm)
                    simp [same, elsewhere]
                · intro write member
                  rcases List.mem_append.mp member with old | new
                  · exact holds.numbered write old
                  · rw [List.mem_singleton.mp new]
                    exact isPartition ▸ numbered
              · simp only [routed, hosted, built, threw, Option.some.injEq] at taken
                subst taken
                have afterWhole : ReplaysWhole after := ⟨tiled, batches ▸ whole.replayable⟩
                refine ⟨whole_put afterWhole holds.whole, ?_, holds.numbered, holds.current⟩
                intro other
                rw [commits_of_put hosted]
                split
                · next same => rw [batches, here, same]
                · exact holds.shared other

theorem update_holds (holds : state.Holds hash) {place : Nat}
    (inTime : state.tabled.InTime (.arrive place))
    (taken : Committers.step hash (.update place) state = some next) : next.Holds hash := by
  obtain ⟨position, waits, taken⟩ := Option.bind_eq_some_iff.mp taken
  obtain ⟨write, found, taken⟩ := Option.bind_eq_some_iff.mp taken
  cases taken
  refine ⟨holds.whole, holds.shared, holds.numbered, Tabled.arrive_current holds.current inTime ?_⟩
  simp only [Tabled.step, Committers.tabled, waits, found, Option.bind_eq_bind, Option.bind_some]
  rfl

theorem committers_step (holds : state.Holds hash) {action : CommitterAction} (typed : action.Typed)
    (inTime : state.InTime action) (taken : Committers.step hash action state = some next) :
    next.Holds hash := by
  cases action with
  | commit key value rollMs clockMs =>
      obtain ⟨partition, nextOffset, reached, timestamp⟩ := typed
      refine record_holds holds ⟨partition, ?_, timestamp⟩ taken
      rintro committed ⟨⟩
      exact ⟨⟨nextOffset, timestamp⟩, reached⟩
  | forget key nowMs rollMs clockMs => exact record_holds holds ⟨typed.1, by simp, typed.2⟩ taken
  | update place => exact update_holds holds inTime taken

theorem start_holds (fresh : freshOffsets logs) (partitions : Int) :
    (Committers.start logs partitions).Holds hash where
  whole := by
    intro partition log hosted
    obtain ⟨dir, config, named, storable, made⟩ := fresh partition log hosted
    obtain ⟨tiled, empty⟩ := created_tiled named storable made
    exact ⟨tiled, by simp [empty]⟩
  shared := by
    intro partition
    unfold LogManager.commitsOf
    cases hosted : (Committers.start logs partitions).logs.get ⟨kOffsetsTopic, partition⟩ with
    | none => rfl
    | some log =>
        obtain ⟨dir, config, named, storable, made⟩ := fresh partition log hosted
        simp [(created_tiled named storable made).2, Committers.start]
  numbered := by simp [Committers.start]
  current := Tabled.current_start

end Steps

section Agreement

variable {hash : Bytes → Nat} {state : Committers}

theorem commits_of_records {group : Bytes} {partition : Int}
    (routed : state.store.partitionFor hash group = .ok partition) :
    LogManager.commitsOf state.logs partition = (state.recordsFor hash group).filterMap saidBy := by
  unfold LogManager.commitsOf Committers.recordsFor
  cases hosted : state.logs.get ⟨kOffsetsTopic, partition⟩ with
  | none => simp [routed, hosted]
  | some log =>
      simp only [routed, hosted, Option.map_some, Option.getD_some, List.filterMap_flatMap]
      rfl

theorem newest_recorded (holds : state.Holds hash) (key : CommitKey) :
    newest state.recorded key = newest ((state.recordsFor hash key.group).filterMap saidBy) key := by
  cases routed : state.store.partitionFor hash key.group with
  | error failure =>
      have nothing : state.recorded = [] := by
        apply List.eq_nil_iff_forall_not_mem.mpr
        intro write member
        have numbered := holds.numbered write member
        unfold OffsetStore.partitionFor coordinatorPartition at routed
        split at routed
        · next without => simp [OffsetStore.partitionNumbers, Int.toNat_of_nonpos without] at numbered
        · cases routed
      simp [nothing, Committers.recordsFor, routed]
  | ok partition =>
      obtain ⟨isPartition, _⟩ := partition_for_ok routed
      rw [← commits_of_records routed, holds.shared, newest, newest, List.filter_filter]
      congr 2
      apply List.filter_congr
      intro write _
      by_cases named : write.1 = key <;> simp [named, partitionOf, isPartition]

theorem records_ascending (holds : state.Holds hash) (group : Bytes) :
    (state.recordsFor hash group).Pairwise fun earlier later => earlier.offset < later.offset := by
  unfold Committers.recordsFor
  split
  · exact List.Pairwise.nil
  · next partition routed =>
    cases hosted : state.logs.get ⟨kOffsetsTopic, partition⟩ with
    | none => exact List.Pairwise.nil
    | some log =>
        have whole := holds.whole partition log hosted
        have formed : ∀ batch ∈ log.batches, FormedBatch batch := by
          intro batch member
          have wellFormed := (whole.replayable batch member).toWellFormedBatch
          exact ⟨wellFormed.toIntactBatch, fun _ => ⟨_, wellFormed⟩⟩
        exact ascending_records (log_consecutive whole.toTiledHolds).1.ascending formed

theorem newest_of_highest {records : List LogRecord} {record : LogRecord} {key : CommitKey}
    (ascending : records.Pairwise fun earlier later => earlier.offset < later.offset)
    (highest : KeyedHistory.Newest committedKey LogRecord.offset records record key) :
    newest (records.filterMap saidBy) key = some (committedValue record) := by
  obtain ⟨write, isWrite, rfl⟩ := Option.map_eq_some_iff.mp highest.keyed
  obtain ⟨before, after, rfl⟩ := List.append_of_mem highest.member
  have value : committedValue record = write.2 := by rw [committedValue, isWrite, Option.bind_some]
  rw [List.filterMap_append, List.filterMap_cons_some isWrite, value]
  apply newest_middle
  intro other member same
  obtain ⟨later, behind, isOther⟩ := List.mem_filterMap.mp member
  have above := (List.pairwise_append.mp ascending).2.1
  have beyond := (List.pairwise_cons.mp above).1 later behind
  have below := highest.highest later (List.mem_append_right _ (List.mem_cons_of_mem _ behind))
    (by rw [committedKey, isOther, Option.map_some, same])
  omega

theorem replay_restores (holds : state.Holds hash) (finished : state.waiting = []) :
    ∃ enough, ∀ rounds, enough ≤ rounds →
      ({ partitions := state.store.partitions } : OffsetStore).replay state.logs rounds =
        some (.ok state.store) := by
  let lengthOf (partition : Int) : Nat :=
    ((state.logs.get ⟨kOffsetsTopic, partition⟩).map (·.batches.length)).getD 0
  refine ⟨(state.store.partitionNumbers.map lengthOf).sum + 1, ?_⟩
  intro rounds enough
  have whole : ∀ partition ∈ state.store.partitionNumbers, ∀ log,
      state.logs.get ⟨kOffsetsTopic, partition⟩ = some log →
        ReplaysWhole log ∧ log.batches.length < rounds := by
    intro partition member log hosted
    refine ⟨holds.whole partition log hosted, ?_⟩
    have within := List.le_sum_of_mem (List.mem_map_of_mem (f := lengthOf) member)
    have own : lengthOf partition = log.batches.length := by simp [lengthOf, hosted]
    rw [own] at within
    omega
  have replayed := replay_partitions_spec whole { partitions := state.store.partitions }
  rw [OffsetStore.replay]
  refine replayed.trans (congrArg (fun store => some (Except.ok store)) ?_)
  have distinct : state.store.partitionNumbers.Nodup :=
    List.Nodup.map Nat.cast_injective List.nodup_range
  have settled := holds.current.settled finished
  rw [OffsetStore.behind, funext holds.shared,
    replay_parts (partitionOf hash state.store.partitions) distinct holds.numbered]
  exact congrArg (OffsetStore.mk _) settled.symm

theorem Committers.Holds.agrees (holds : state.Holds hash) (finished : state.waiting = []) :
    state.Agrees hash := by
  have settled : ∀ key, state.store.committed key = (newest state.recorded key).getD none := by
    intro key
    have whole : state.store.committed = _ := holds.current.settled finished
    rw [whole, replay_key]
    rfl
  refine ⟨replay_restores holds finished, ?_, ?_⟩
  · intro key record highest
    rw [settled, newest_recorded holds, newest_of_highest (records_ascending holds key.group) highest,
      Option.getD_some]
  · intro key absent
    rw [settled, newest_recorded holds, newest, List.filter_eq_nil_iff.mpr]
    · rfl
    · intro write member named
      obtain ⟨record, inside, isWrite⟩ := List.mem_filterMap.mp member
      apply absent record inside
      rw [committedKey, isWrite, Option.map_some, decide_eq_true_eq.mp named]

end Agreement

/-- Whatever commits and forgets run at once: as long as no update comes behind that
of the newest record of its key, the map agrees with the logs when they have all
finished. -/
theorem commits_agree_with_log {hash : Bytes → Nat} {logs : LogManager} {partitions : Int}
    {final : Committers} (fresh : freshOffsets logs)
    (reached : GuardedRun.Reaches (Committers.step hash)
      (fun state action => action.Typed ∧ state.InTime action) (.start logs partitions) final)
    (finished : final.waiting = []) : final.Agrees hash := by
  have holds := reached.invariant _ _ (Committers.Holds hash) (start_holds fresh partitions)
    fun state action next before admitted taken => committers_step before admitted.1 admitted.2 taken
  exact holds.agrees finished

instance (action : CommitterAction) : Decidable action.Typed :=
  match action with
  | .commit key value _ _ => inferInstanceAs (Decidable (FitsSigned 32 key.partition ∧
      FitsSigned 64 value.nextOffset ∧ 0 ≤ value.nextOffset ∧ FitsSigned 64 value.commitTimestampMs))
  | .forget key nowMs _ _ => inferInstanceAs (Decidable (FitsSigned 32 key.partition ∧ FitsSigned 64 nowMs))
  | .update _ => .isTrue trivial

instance (state : Committers) (action : CommitterAction) : Decidable (state.InTime action) :=
  match action with
  | .commit _ _ _ _ | .forget _ _ _ _ => .isTrue trivial
  | .update place => inferInstanceAs (Decidable (state.tabled.InTime (.arrive place)))

/-- A store over the one partition of `__offsets` there is. -/
def committersOf (log : Log) : Committers := .start ⟨"data", {}, [(⟨kOffsetsTopic, 0⟩, log)], []⟩ 1

theorem fresh_offsets_of {log : Log} {dir : String} {config : LogConfig} (storable : config.Storable)
    (made : Log.create ⟨kOffsetsTopic, 0⟩ dir config = .ok log) : freshOffsets (committersOf log).logs := by
  intro partition other hosted
  by_cases zero : partition = 0
  · subst zero
    cases hosted
    exact ⟨dir, config, ⟨by decide, by decide, by decide, by decide⟩, storable, made⟩
  · have apart : ¬ (0 : Int) = partition := fun same => zero same.symm
    simp [committersOf, Committers.start, LogManager.get, apart] at hosted

def groupKey : CommitKey := ⟨[103], [116], 0⟩

/-- Two commits of one key are appended before the first of them gets to the map,
and a key is forgotten that nobody has committed. -/
def commitsInTurn : List CommitterAction :=
  [.commit groupKey ⟨10, [], 1⟩ 0 0, .commit groupKey ⟨20, [], 2⟩ 0 0, .forget ⟨[104], [116], 0⟩ 3 0 0,
    .update 0, .update 1, .update 0]

theorem commits_agree_with_log_in_turn :
    ∃ logs final, freshOffsets logs ∧ final.Agrees (fun _ => 0) ∧ final.recorded.length = 3 ∧
      GuardedRun.Reaches (Committers.step fun _ => 0)
        (fun state action => action.Typed ∧ state.InTime action) (.start logs 1) final := by
  obtain ⟨created, final, made, reached, checked⟩ := found_from_creation (Committers.step fun _ => 0)
    (fun state action => action.Typed ∧ state.InTime action) committersOf ⟨kOffsetsTopic, 0⟩
    "data/__offsets-0" twoBatchConfig
    (fun state => decide (state.waiting = [] ∧ state.recorded.length = 3)) commitsInTurn (by decide +kernel)
  obtain ⟨finished, three⟩ := of_decide_eq_true checked
  have fresh := fresh_offsets_of storable_two_batch_config made
  exact ⟨_, final, fresh, commits_agree_with_log fresh reached finished, three, reached⟩

def commitsOutOfTurn : List CommitterAction :=
  [.commit groupKey ⟨10, [], 1⟩ 0 0, .commit groupKey ⟨20, [], 2⟩ 0 0, .update 1, .update 0]

theorem older_commit_lands_last :
    ¬ ∀ (hash : Bytes → Nat) (logs : LogManager) (partitions : Int) (final : Committers), freshOffsets logs →
      GuardedRun.Reaches (Committers.step hash) (fun _ action => action.Typed) (.start logs partitions) final →
      final.waiting = [] → final.Agrees hash := by
  intro all
  obtain ⟨created, final, made, reached, checked⟩ := found_from_creation (Committers.step fun _ => 0)
    (fun _ action => action.Typed) committersOf ⟨kOffsetsTopic, 0⟩ "data/__offsets-0" twoBatchConfig
    (fun state => decide (state.waiting = [] ∧ ∃ record ∈ state.recordsFor (fun _ => 0) [103],
      committedKey record = some groupKey ∧
      (∀ other ∈ state.recordsFor (fun _ => 0) [103],
        committedKey other = some groupKey → other.offset ≤ record.offset) ∧
      state.store.committed groupKey ≠ committedValue record)) commitsOutOfTurn (by decide +kernel)
  obtain ⟨finished, record, member, keyed, highest, differs⟩ := of_decide_eq_true checked
  have fresh := fresh_offsets_of storable_two_batch_config made
  exact differs ((all _ _ 1 final fresh reached finished).newest groupKey record ⟨member, keyed, highest⟩)

/-- The store serves the older position until the broker is restarted. -/
example : (((Log.create ⟨kOffsetsTopic, 0⟩ "data/__offsets-0" twoBatchConfig).toOption.map
    committersOf).bind (GuardedRun.runAll (Committers.step fun _ => 0) (fun _ action => action.Typed)
      commitsOutOfTurn)).map (fun state =>
        ((state.store.fetch groupKey).map (·.nextOffset),
          ((state.store.replay state.logs 9).bind Except.toOption).map fun store =>
            (store.fetch groupKey).map (·.nextOffset))) = some (some 10, some (some 20)) := by
  decide +kernel

end DariyaKyu.Groups

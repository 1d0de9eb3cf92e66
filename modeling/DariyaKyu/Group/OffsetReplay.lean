import DariyaKyu.Cli.Consume
import DariyaKyu.Group.OffsetStore
import DariyaKyu.Library.LateWrites

/-!
`OffsetStore::replay`: the map is built anew from the partitions of `__offsets`,
one after the other, each from its start to its end. Of every answer the complete
batches are gone over, as the consumer does; what is cut off comes with the next
read. The reads of a partition are counted down, and an exception ends the replay.
-/

namespace DariyaKyu.Groups

set_option autoImplicit false

open Storage Cli FrameWalk

/-- What a record of `__offsets` says. One without a key says nothing, and one
without a value is a tombstone. -/
def commitOf (key value : Option Bytes) : Except Error (Option (CommitKey × Option CommitValue)) :=
  match key with
  | none => .ok none
  | some keyBytes => do
      let key ← decodeCommitKey keyBytes
      let value ← value.mapM decodeCommitValue
      return some (key, value)

namespace OffsetStore

def replayRecord (store : OffsetStore) (record : Record) : Except Error OffsetStore := do
  let commit ← commitOf record.key record.value
  return match commit with
    | none => store
    | some (key, value) => store.update key value

/-- The store, the offset to go on from, and whether a batch has been gone over. -/
structure Replaying where
  store : OffsetStore
  offset : Int
  advanced : Bool

def replayBatch (state : Replaying) (_ : Nat) (batch : Bytes) : Except Error (Turn Replaying) := do
  let header ← parseHeader batch
  let records ← decodeRecords batch
  let store ← records.foldlM replayRecord state.store
  return .next ⟨store, header.lastOffset + 1, true⟩

def replayAnswer (bytes : Bytes) (store : OffsetStore) (offset : Int) : Except Error Replaying := do
  let (_, state) ← walk (completeBatchAt bytes) List.length replayBatch (bytes.length + 1) 0
    ⟨store, offset, false⟩
  return state

/-- `replayPartition` from an offset on; `none` when the rounds run out. -/
def replayFrom (log : Log) : Nat → Int → OffsetStore → Option (Except Error OffsetStore)
  | 0, _, _ => none
  | rounds + 1, offset, store =>
      if log.logEndOffset ≤ offset then some (.ok store)
      else
        match log.read offset (2 ^ 20) with
        | .error failure => some (.error failure)
        | .ok result =>
            if result.error ≠ .none ∨ result.range.length = 0 then some (.ok store)
            else
              match replayAnswer (log.rangeBytes offset result.range) store offset with
              | .error failure => some (.error failure)
              | .ok state =>
                  if state.advanced then replayFrom log rounds state.offset state.store
                  else some (.ok state.store)

def replayPartition (log : Log) (rounds : Nat) (store : OffsetStore) : Option (Except Error OffsetStore) :=
  replayFrom log rounds log.logStartOffset store

def replayPartitions (logs : LogManager) (rounds : Nat) :
    List Int → OffsetStore → Option (Except Error OffsetStore)
  | [], store => some (.ok store)
  | partition :: rest, store =>
      match logs.get ⟨kOffsetsTopic, partition⟩ with
      | none => replayPartitions logs rounds rest store
      | some log =>
          match replayPartition log rounds store with
          | some (.ok store) => replayPartitions logs rounds rest store
          | ended => ended

def partitionNumbers (store : OffsetStore) : List Int := (List.range store.partitions.toNat).map (↑)

def replay (store : OffsetStore) (logs : LogManager) (rounds : Nat) : Option (Except Error OffsetStore) :=
  replayPartitions logs rounds store.partitionNumbers { store with committed := fun _ => none }

end OffsetStore

/-- The commit that a record says, if it says one. -/
def saidBy (record : LogRecord) : Option (CommitKey × Option CommitValue) :=
  (commitOf record.key record.value).toOption.join

def commitsIn (batch : Bytes) : List (CommitKey × Option CommitValue) := (recordsOf batch).filterMap saidBy

structure Replayable (batch : Bytes) : Prop extends WellFormedBatch batch (recordsOf batch) where
  commits : ∀ record ∈ recordsOf batch, ∃ commit, commitOf record.key record.value = .ok commit

section OneAnswer

def OffsetStore.behind (store : OffsetStore) (commits : List (CommitKey × Option CommitValue)) : OffsetStore :=
  { store with committed := LateWrites.replay store.committed commits }

@[simp] theorem OffsetStore.behind_nil (store : OffsetStore) : store.behind [] = store := rfl

theorem OffsetStore.behind_append (store : OffsetStore) (first second : List (CommitKey × Option CommitValue)) :
    store.behind (first ++ second) = (store.behind first).behind second := by
  simp only [OffsetStore.behind, LateWrites.replay, List.foldl_append]

theorem replay_records {header : BatchHeader} {raw : List Record}
    (commits : ∀ record ∈ raw.map (·.resolve header), ∃ commit, commitOf record.key record.value = .ok commit)
    (store : OffsetStore) :
    raw.foldlM OffsetStore.replayRecord store =
      .ok (store.behind ((raw.map (·.resolve header)).filterMap saidBy)) := by
  induction raw generalizing store with
  | nil => rfl
  | cons record raw ih =>
      obtain ⟨commit, isCommit⟩ := commits (record.resolve header) List.mem_cons_self
      have later := ih fun other member => commits other (List.mem_cons_of_mem _ member)
      have said : commitOf record.key record.value = .ok commit := isCommit
      simp only [List.foldlM_cons, OffsetStore.replayRecord, said, except_ok_bind, List.map_cons,
        List.filterMap_cons, saidBy, isCommit, Except.toOption]
      cases commit with
      | none => exact later store
      | some write => exact later (store.update write.1 write.2)

def OffsetStore.Replaying.behind (state : OffsetStore.Replaying) (batch : Bytes) : OffsetStore.Replaying :=
  ⟨state.store.behind (commitsIn batch), lastOf batch + 1, true⟩

theorem replay_batch_spec {batch : Bytes} (replayable : Replayable batch) (state : OffsetStore.Replaying)
    (position : Nat) : OffsetStore.replayBatch state position batch = .ok (.next (state.behind batch)) := by
  have parsed := replayable.toIntactBatch.parsed
  have decodes := replayable.decodes
  simp only [logRecordsOf, parsed, except_ok_bind] at decodes
  obtain ⟨raw, decoded, resolved⟩ := except_bind_ok decodes
  have records := Except.ok.inj resolved
  have commits := replayable.commits
  rw [← records] at commits
  simp only [OffsetStore.replayBatch, parsed, decoded, except_ok_bind, replay_records commits state.store]
  rw [OffsetStore.Replaying.behind, commitsIn, ← records]
  rfl

theorem replaying_behind_all (batches : List Bytes) (state : OffsetStore.Replaying) :
    batches.foldl OffsetStore.Replaying.behind state =
      ⟨state.store.behind (batches.flatMap commitsIn), endOffset state.offset batches,
        state.advanced || !batches.isEmpty⟩ := by
  induction batches generalizing state with
  | nil => simp [endOffset]
  | cons batch batches ih =>
      rw [List.foldl_cons, ih, end_offset_cons, List.flatMap_cons, OffsetStore.behind_append]
      simp [OffsetStore.Replaying.behind]

theorem replay_answer_spec {batches : List Bytes} (replayable : ∀ batch ∈ batches, Replayable batch)
    {bytes : Nat} (complete : fitting bytes batches ≠ []) (store : OffsetStore) (offset : Int) :
    OffsetStore.replayAnswer (batches.flatten.take bytes) store offset =
      .ok ⟨store.behind ((fitting bytes batches).flatMap commitsIn),
        endOffset offset (fitting bytes batches), true⟩ := by
  obtain ⟨position, walked⟩ := walk_answer OffsetStore.Replaying.behind
    (fun batch member => (replayable batch member).toIntactBatch)
    (fun batch member state position => replay_batch_spec (replayable batch member) state position)
    bytes ⟨store, offset, false⟩
  have advanced : (fitting bytes batches).isEmpty = false := by simpa using complete
  rw [OffsetStore.replayAnswer, walked, replaying_behind_all, advanced]
  rfl

end OneAnswer

section WholeLog

variable {log : Log}

theorem replay_from_spec (holds : TiledHolds log) (replayable : ∀ batch ∈ log.batches, Replayable batch)
    {rounds : Nat} {offset : Int} (store : OffsetStore) (starts : log.logStartOffset ≤ offset)
    (ends : offset ≤ log.logEndOffset) (enough : (batchesFrom offset log.batches).length < rounds) :
    OffsetStore.replayFrom log rounds offset store =
      some (.ok (store.behind ((batchesFrom offset log.batches).flatMap commitsIn))) := by
  induction rounds generalizing offset store with
  | zero => cases enough
  | succ rounds ih =>
      have intact : ∀ batch ∈ log.batches, IntactBatch batch :=
        fun batch member => (replayable batch member).toIntactBatch
      by_cases caughtUp : log.logEndOffset ≤ offset
      · obtain rfl : offset = log.logEndOffset := le_antisymm ends caughtUp
        simp [OffsetStore.replayFrom, batches_from_log_end holds]
      · obtain ⟨range, answered, bytes, round⟩ := read_round holds intact starts (by omega) (2 ^ 20)
        have inside : ∀ batch ∈ answered, Replayable batch :=
          fun batch member => replayable batch (round.held batch member)
        have answer := replay_answer_spec inside round.complete store offset
        have later := ih (store.behind ((fitting bytes answered).flatMap commitsIn)) round.begins
          round.remains (round.fewer enough)
        simp only [OffsetStore.replayFrom, if_neg caughtUp, round.read, ne_eq, not_true_eq_false,
          round.occupied, or_self, if_false, round.answer, answer, if_true, later]
        rw [round.goesOn, List.flatMap_append, OffsetStore.behind_append]

theorem batches_from_start {start : Int} {batches : List Bytes} (consecutive : Consecutive start batches) :
    batchesFrom start batches = batches := by
  refine @batches_from_end _ [] _ (by simp) ?_
  intro batch isFirst
  cases batches with
  | nil => simp at isFirst
  | cons first rest =>
      cases isFirst
      obtain ⟨base, spans, _⟩ := consecutive
      omega

structure ReplaysWhole (log : Log) : Prop extends TiledHolds log where
  replayable : ∀ batch ∈ log.batches, Replayable batch

theorem replay_partition_spec (holds : ReplaysWhole log) {rounds : Nat} (store : OffsetStore)
    (enough : log.batches.length < rounds) : OffsetStore.replayPartition log rounds store =
      some (.ok (store.behind (log.batches.flatMap commitsIn))) := by
  have consecutive := log_consecutive holds.toTiledHolds
  have ends := start_le_end consecutive.1.ascending
  rw [consecutive.2] at ends
  have start := batches_from_start consecutive.1
  have replayed := replay_from_spec holds.toTiledHolds holds.replayable store le_rfl ends (by rwa [start])
  rwa [start] at replayed

end WholeLog

/-- The commits in a partition of `__offsets`, in the order of the log. -/
def LogManager.commitsOf (logs : LogManager) (partition : Int) : List (CommitKey × Option CommitValue) :=
  match logs.get ⟨kOffsetsTopic, partition⟩ with
  | none => []
  | some log => log.batches.flatMap commitsIn

theorem replay_partitions_spec {logs : LogManager} {rounds : Nat} {partitions : List Int}
    (whole : ∀ partition ∈ partitions, ∀ log, logs.get ⟨kOffsetsTopic, partition⟩ = some log →
      ReplaysWhole log ∧ log.batches.length < rounds) (store : OffsetStore) :
    OffsetStore.replayPartitions logs rounds partitions store =
      some (.ok (store.behind (partitions.flatMap (LogManager.commitsOf logs)))) := by
  induction partitions generalizing store with
  | nil => rfl
  | cons partition rest ih =>
      have later := ih fun other member => whole other (List.mem_cons_of_mem _ member)
      rw [List.flatMap_cons, OffsetStore.behind_append]
      cases hosted : logs.get ⟨kOffsetsTopic, partition⟩ with
      | none =>
          have nothing : LogManager.commitsOf logs partition = [] := by simp [LogManager.commitsOf, hosted]
          simp only [OffsetStore.replayPartitions, hosted, later, nothing, OffsetStore.behind_nil]
      | some log =>
          obtain ⟨holds, enough⟩ := whole partition List.mem_cons_self log hosted
          have here : LogManager.commitsOf logs partition = log.batches.flatMap commitsIn := by
            simp [LogManager.commitsOf, hosted]
          simp only [OffsetStore.replayPartitions, hosted, replay_partition_spec holds store enough, later, here]

end DariyaKyu.Groups

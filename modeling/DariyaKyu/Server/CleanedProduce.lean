import DariyaKyu.Server.Produce
import DariyaKyu.Storage.CleaningProgress

/-!
Produce requests and the cleaner. The handler looks at the checksum of a batch
and no further, and the cleaner decodes every record; what the one lets in and
the other cannot read stops the cleaner at that partition each time it calls.
-/

namespace DariyaKyu.Server

set_option autoImplicit false

open Storage Protocol

/-- A Produce entry that is answered without an error, a roll of one partition,
and a call of the cleaner. -/
inductive CleanedAction where
  | produce (tp : TopicPartition) (entry : Bytes) (rollMs clockMs : Int)
  | maybeRoll (tp : TopicPartition) (nowMs : Int)
  | runOnce (nowMs : Int)

section Runs

variable {ρ : Type} [LinearOrder ρ] (ratios : Ratios ρ)

def cleanedStep : CleanedAction → Compaction ρ → Option (Compaction ρ)
  | .produce tp entry rollMs clockMs, state => do
      let log ← state.logs.get tp
      let produced := produceTo log entry rollMs clockMs none
      let after ← produced.2
      if produced.1.error = .none then some { state with logs := state.logs.put tp after } else none
  | .maybeRoll tp nowMs, state => do
      let log ← state.logs.get tp
      let next ← Log.step (.maybeRoll nowMs) log
      return { state with logs := state.logs.put tp next }
  | .runOnce nowMs, state =>
      let call := state.cleaner.runOnce ratios state.logs nowMs
      some ⟨call.logs, call.cleaner⟩

/-- An accepted entry is one uncompressed batch with the records its header
tells of, and the offsets an int64 holds; the pass over a partition that is
picked meets no index entry that does not fit. -/
def CleanedAdmits (state : Compaction ρ) : CleanedAction → Prop
  | .produce tp entry _ _ => ∀ log ∈ state.logs.get tp, WellFormedBatch entry (recordsOf entry) ∧
      log.logEndOffset + (headerOf entry).lastOffsetDelta < 2 ^ 63
  | .maybeRoll _ _ => True
  | .runOnce nowMs => ∀ tp ∈ state.cleaner.pickDirtiest ratios state.logs, ∀ log ∈ state.logs.get tp,
      log.GetsThrough state.cleaner.config.maxKeyMapEntries (state.cleaner.firstDirtyOffset tp) nowMs

end Runs

/-- A log in order, all of whose batches can be decoded. -/
structure CleanedHolds (log : Log) : Prop extends Cleanable log where
  settled : LogSettled log
  plain : ∀ batch ∈ log.batches, (headerOf batch).compression = compressionNone

theorem CleanedHolds.decodable {log : Log} (holds : CleanedHolds log) : Decodable log where
  toCleanable := holds.toCleanable
  plain := by
    intro segment member batch inside
    apply holds.plain
    exact List.mem_append_left _ (List.mem_flatMap.mpr ⟨segment, member, inside⟩)

theorem produced_appends {log after : Log} {entry : Bytes} {rollMs clockMs : Int}
    (left : (produceTo log entry rollMs clockMs none).2 = some after)
    (accepted : (produceTo log entry rollMs clockMs none).1.error = .none) :
    Log.step (.append entry rollMs clockMs none) log = some after := by
  have refusal : ∀ failure, produceErrorOf failure ≠ .none := by
    intro failure
    cases failure <;> simp [produceErrorOf]
  unfold produceTo at left accepted
  cases verified : verifyCrc entry with
  | error failure =>
      rw [verified] at accepted
      exact absurd accepted (refusal failure)
  | ok valid =>
      rw [verified] at left accepted
      cases valid with
      | false => cases accepted
      | true =>
          cases appended : log.append entry rollMs clockMs none with
          | returned offset next =>
              rw [appended] at left
              cases left
              simp [Log.step, appended, Outcome.log]
          | threw failure next =>
              rw [appended] at accepted
              exact absurd accepted (refusal failure)
          | ruined failure =>
              rw [appended] at accepted
              exact absurd accepted (refusal failure)

theorem produce_holds {log after : Log} {entry : Bytes} {rollMs clockMs : Int} (holds : CleanedHolds log)
    (formed : WellFormedBatch entry (recordsOf entry)) (range : log.logEndOffset + (headerOf entry).lastOffsetDelta < 2 ^ 63)
    (taken : Log.step (.append entry rollMs clockMs none) log = some after) : CleanedHolds after := by
  have admits : log.Admits (.append entry rollMs clockMs none) :=
    ⟨⟨formed.toIntactBatch, fun _ => ⟨_, formed⟩⟩, rfl, range⟩
  obtain ⟨cleanable, settled⟩ := cleanable_step holds.toCleanable holds.settled admits taken
  refine ⟨cleanable, settled, ?_⟩
  intro batch member
  rcases append_moves holds.settled formed.toIntactBatch rollMs clockMs taken with
    ⟨same, _⟩ | ⟨fits, grown, _⟩
  · exact holds.plain batch (same ▸ member)
  · rw [grown] at member
    rcases List.mem_append.mp member with old | new
    · exact holds.plain batch old
    · have stays := formed.restamped fits
      obtain ⟨raw, decoded⟩ := decodes_of_well_formed stays
      rw [List.mem_singleton.mp new]
      exact plain_of_decoded stays.toIntactBatch decoded

theorem roll_holds {log next : Log} {nowMs : Int} (holds : CleanedHolds log)
    (taken : Log.step (.maybeRoll nowMs) log = some next) : CleanedHolds next := by
  have admits : log.Admits (.maybeRoll nowMs) := trivial
  obtain ⟨cleanable, settled⟩ := cleanable_step holds.toCleanable holds.settled admits taken
  obtain ⟨undangling, quiet⟩ := settled_clear holds.settled nowMs
  obtain ⟨rolled, moved, _, _, batches, _⟩ := maybe_roll_spec holds.settled.toLogHolds undangling quiet
  simp only [Log.step, moved, Outcome.log, Option.some.injEq] at taken
  subst taken
  exact ⟨cleanable, settled, batches ▸ holds.plain⟩

theorem pass_holds {log swap : Log} {rules : RetainRules} {front back : List SealedSegment}
    (holds : CleanedHolds log) (passed : PassedOver rules log swap front back) : CleanedHolds swap := by
  refine ⟨passed.cleanable holds.toCleanable, passed.settled holds.toCleanable holds.settled, ?_⟩
  have sealedPlain := (passed.decodable holds.decodable).plain
  have active : swap.active = log.active := by
    obtain ⟨_, _, _, _, _, rfl⟩ := passed
    rfl
  intro batch member
  rcases List.mem_append.mp member with isSealed | isActive
  · obtain ⟨segment, inside, isBatch⟩ := List.mem_flatMap.mp isSealed
    exact sealedPlain segment inside batch isBatch
  · rw [active] at isActive
    exact holds.plain batch (List.mem_append_right _ isActive)

def CleanedInOrder {ρ : Type} (state : Compaction ρ) : Prop :=
  ∀ tp log, state.logs.get tp = some log → CleanedHolds log

theorem in_order_put {ρ : Type} {state : Compaction ρ} (inOrder : CleanedInOrder state)
    {tp : TopicPartition} {log next : Log} (hosted : state.logs.get tp = some log)
    (holds : CleanedHolds next) (cleaner : LogCleaner ρ) :
    CleanedInOrder ⟨state.logs.put tp next, cleaner⟩ := by
  intro other otherLog found
  simp only [LogManager.get_put, hosted, Option.map_some] at found
  split at found
  · cases found
    exact holds
  · exact inOrder other otherLog found

section Calls

variable {ρ : Type} [LinearOrder ρ] (ratios : Ratios ρ)

theorem cleaned_step {state next : Compaction ρ} {action : CleanedAction} (inOrder : CleanedInOrder state)
    (admits : CleanedAdmits ratios state action) (taken : cleanedStep ratios action state = some next) :
    CleanedInOrder next := by
  cases action with
  | produce tp entry rollMs clockMs =>
      obtain ⟨log, hosted, taken⟩ := Option.bind_eq_some_iff.mp taken
      obtain ⟨after, left, taken⟩ := Option.bind_eq_some_iff.mp taken
      split at taken
      · next accepted =>
        cases taken
        obtain ⟨formed, range⟩ := admits log hosted
        have holds := produce_holds (inOrder tp log hosted) formed range (produced_appends left accepted)
        exact in_order_put inOrder hosted holds _
      · cases taken
  | maybeRoll tp nowMs =>
      obtain ⟨log, hosted, taken⟩ := Option.bind_eq_some_iff.mp taken
      obtain ⟨after, moved, made⟩ := Option.bind_eq_some_iff.mp taken
      cases made
      exact in_order_put inOrder hosted (roll_holds (inOrder tp log hosted) moved) _
  | runOnce nowMs =>
      cases taken
      unfold LogCleaner.runOnce
      cases picked : state.cleaner.pickDirtiest ratios state.logs with
      | none => exact inOrder
      | some tp =>
          obtain ⟨log, hosted, compacts, dirty⟩ := state.cleaner.pick_dirtiest_chosen ratios state.logs picked
          have passes := state.cleaner.clean_once_passes ratios nowMs hosted compacts dirty
          have holds := inOrder tp log hosted
          obtain ⟨rules, front, back, passed⟩ := clean_log_passes holds.toCleanable
            state.cleaner.config.maxKeyMapEntries (state.cleaner.firstDirtyOffset tp) nowMs
          simp only [passes.logs]
          exact in_order_put inOrder hosted (pass_holds holds passed) _

theorem created_in_order {tp : TopicPartition} {dir : String} {config : LogConfig} {log : Log}
    (named : StorableName tp) (storable : config.Storable)
    (room : config.roll.indexIntervalBytes + 2 ^ 31 + 12 ≤ 2 ^ 32)
    (made : Log.create tp dir config = .ok log) : CleanedHolds log := by
  obtain ⟨cleanable, settled⟩ := cleanable_reached named storable room made .start
  obtain ⟨_, batches, _⟩ := create_spec named storable made
  exact ⟨cleanable, settled, by simp [batches]⟩

def FreshPartition (log : Log) : Prop :=
  ∃ tp dir config, StorableName tp ∧ config.Storable ∧
    config.roll.indexIntervalBytes + 2 ^ 31 + 12 ≤ 2 ^ 32 ∧ Log.create tp dir config = .ok log

/-- While every entry that is accepted is a batch the cleaner can read, a call of
the cleaner throws only over an index entry that does not fit, and over none in
segments that an index can describe. -/
theorem cleaner_reads_what_is_produced (config : CleanerConfig ρ) {logs : LogManager}
    {final : Compaction ρ} (fresh : ∀ tp log, logs.get tp = some log → FreshPartition log)
    (reached : GuardedRun.Reaches (cleanedStep ratios) (CleanedAdmits ratios) ⟨logs, { config }⟩ final)
    (nowMs : Int) :
    ((∃ result, (final.cleaner.runOnce ratios final.logs nowMs).outcome = .ok result) ↔
        CleanedAdmits ratios final (.runOnce nowMs)) ∧
      ((∀ tp ∈ final.cleaner.pickDirtiest ratios final.logs, ∀ log ∈ final.logs.get tp,
          ∀ segment ∈ log.sealedMap, segment.Indexable) →
        CleanedAdmits ratios final (.runOnce nowMs)) := by
  have start : CleanedInOrder (⟨logs, { config }⟩ : Compaction ρ) := by
    intro tp log hosted
    obtain ⟨_, _, _, named, storable, room, made⟩ := fresh tp log hosted
    exact created_in_order named storable room made
  have inOrder := reached.invariant _ _ CleanedInOrder start
    fun _ _ _ inOrder admits taken => cleaned_step ratios inOrder admits taken
  constructor
  · unfold LogCleaner.runOnce CleanedAdmits
    cases picked : final.cleaner.pickDirtiest ratios final.logs with
    | none => exact ⟨by simp, fun _ => ⟨none, rfl⟩⟩
    | some tp =>
        obtain ⟨log, hosted, compacts, dirty⟩ := final.cleaner.pick_dirtiest_chosen ratios final.logs picked
        obtain ⟨_, _, returns, _⟩ := pass_returns_iff (inOrder tp log hosted).decodable
          final.cleaner.config.maxKeyMapEntries (final.cleaner.firstDirtyOffset tp) nowMs
        simp only [Option.mem_def, Option.some.injEq, forall_eq', hosted]
        rw [← returns]
        rcases (final.cleaner.clean_once_passes ratios nowMs hosted compacts dirty).ends with
          ⟨failure, failed, threw, _⟩ | ⟨result, returned, isOk, _⟩
        · simp [failed, threw]
        · simp [returned, isOk]
  · intro indexable tp picked log hosted
    exact gets_through_indexable (inOrder tp log hosted).decodable (indexable tp picked log hosted) _ _ nowMs

end Calls

instance (log : Log) (budget : Nat) (mark nowMs : Int) : Decidable (log.GetsThrough budget mark nowMs) :=
  decidable_of_iff (∀ dirty ∈ (log.mapKeys budget mark).toOption, dirty.map.entries ≠ [] →
      ∀ segment ∈ log.sealedMap, segment.baseOffset < dirty.mappedThrough →
        segment.getsPast log.dir log.config.roll (log.rulesOf dirty.map nowMs) = true)
    ⟨fun through dirty mapped => through dirty (by rw [mapped]; rfl),
      fun through dirty isDirty => through dirty (ok_of_to_option isDirty)⟩

instance {ρ : Type} [LinearOrder ρ] (ratios : Ratios ρ) (state : Compaction ρ) (action : CleanedAction) :
    Decidable (CleanedAdmits ratios state action) :=
  match action with
  | .produce tp entry _ _ =>
      inferInstanceAs (Decidable (∀ log ∈ state.logs.get tp, WellFormedBatch entry (recordsOf entry) ∧
        log.logEndOffset + (headerOf entry).lastOffsetDelta < 2 ^ 63))
  | .maybeRoll _ _ => inferInstanceAs (Decidable True)
  | .runOnce nowMs =>
      inferInstanceAs (Decidable (∀ tp ∈ state.cleaner.pickDirtiest ratios state.logs,
        ∀ log ∈ state.logs.get tp, log.GetsThrough state.cleaner.config.maxKeyMapEntries
          (state.cleaner.firstDirtyOffset tp) nowMs))

/-- Five accepted entries, and a pass over the two segments they fill. -/
def producedKeys (keys : List UInt8) : List CleanedAction :=
  keys.map fun key => .produce ⟨[116], 0⟩ (recordBatchOf 10 (some [key]) (some [118])) 0 0

theorem fresh_partition_only {created : Log}
    (made : Log.create ⟨[116], 0⟩ "data/t-0" { twoBatchConfig with cleanup := .compact } = .ok created) :
    ∀ tp log, (onlyPartition created).get tp = some log → FreshPartition log := by
  intro tp log found
  simp only [LogManager.get, onlyPartition, Option.map_eq_some_iff] at found
  obtain ⟨entry, isEntry, rfl⟩ := found
  rw [List.mem_singleton.mp (List.mem_of_find?_eq_some isEntry)]
  have named : StorableName ⟨[116], 0⟩ := ⟨by decide, by decide, by decide, by decide⟩
  have storable : ({ twoBatchConfig with cleanup := .compact } : LogConfig).Storable :=
    { storable_two_batch_config with }
  exact ⟨_, _, _, named, storable, by decide, made⟩

theorem cleaner_reads_what_is_produced_two_segments :
    ∃ final : Compaction ℚ, final.cleaner.pickDirtiest exactRatios final.logs = some ⟨[116], 0⟩ ∧
      ∃ result, (final.cleaner.runOnce exactRatios final.logs 0).outcome = .ok result := by
  obtain ⟨created, final, made, reached, checked⟩ := found_from_creation (cleanedStep exactRatios)
    (CleanedAdmits exactRatios) (fun log => (⟨onlyPartition log, { config := ⟨10, 0⟩ }⟩ : Compaction ℚ))
    ⟨[116], 0⟩ "data/t-0" { twoBatchConfig with cleanup := .compact }
    (fun state : Compaction ℚ =>
      decide (state.cleaner.pickDirtiest exactRatios state.logs = some ⟨[116], 0⟩ ∧
        CleanedAdmits exactRatios state (.runOnce 0)))
    (producedKeys [97, 98, 97, 99, 97]) (by decide +kernel)
  obtain ⟨picked, admits⟩ := of_decide_eq_true checked
  have reads := cleaner_reads_what_is_produced exactRatios ⟨10, 0⟩ (fresh_partition_only made) reached 0
  exact ⟨final, picked, reads.1.mpr admits⟩

def hollowBatch : Bytes := builtBytes { count := 1, lastDelta := 0 }

/-- Two such batches are accepted and rolled, and from then on no call of the
cleaner returns. -/
theorem cleaner_stops_at_hollow_batches :
    ¬ ∀ created final, Log.create ⟨[116], 0⟩ "data/t-0" { twoBatchConfig with cleanup := .compact } =
        .ok created →
      GuardedRun.Reaches (cleanedStep exactRatios) (fun _ _ => True)
        (⟨onlyPartition created, { config := ⟨10, 0⟩ }⟩ : Compaction ℚ) final →
      ∃ nowMs result, (final.cleaner.runOnce exactRatios final.logs nowMs).outcome = .ok result := by
  intro all
  obtain ⟨created, final, made, reached, checked⟩ := found_from_creation (cleanedStep exactRatios)
    (fun _ _ => True) (fun log => (⟨onlyPartition log, { config := ⟨10, 0⟩ }⟩ : Compaction ℚ))
    ⟨[116], 0⟩ "data/t-0" { twoBatchConfig with cleanup := .compact }
    (fun state : Compaction ℚ =>
      decide (state.cleaner.pickDirtiest exactRatios state.logs = some ⟨[116], 0⟩) &&
        (state.logs.get ⟨[116], 0⟩).any fun log : Log =>
          (log.mapKeys state.cleaner.config.maxKeyMapEntries
            (state.cleaner.firstDirtyOffset ⟨[116], 0⟩)).toOption.isNone)
    [.produce ⟨[116], 0⟩ hollowBatch 0 0, .produce ⟨[116], 0⟩ hollowBatch 0 0, .maybeRoll ⟨[116], 0⟩ 0]
    (by decide +kernel)
  obtain ⟨nowMs, result, returned⟩ := all created final made reached
  rw [Bool.and_eq_true, decide_eq_true_eq] at checked
  obtain ⟨picked, stuck⟩ := checked
  obtain ⟨log, hosted, unmapped⟩ := Option.any_eq_true _ _ |>.mp stuck
  obtain ⟨other, found, compacts, dirty⟩ := final.cleaner.pick_dirtiest_chosen exactRatios final.logs picked
  rw [hosted] at found
  cases found
  rw [LogCleaner.runOnce, picked] at returned
  rcases (final.cleaner.clean_once_passes exactRatios nowMs hosted compacts dirty).ends with
    ⟨failure, _, threw, _⟩ | ⟨ended, isOk, _⟩
  · simp [threw] at returned
  · rcases clean_log_cases log final.cleaner.config.maxKeyMapEntries
        (final.cleaner.firstDirtyOffset ⟨[116], 0⟩) nowMs with ⟨failure, _, idle⟩ | ⟨dirty, _, mapped, _⟩
    · rw [idle] at isOk
      cases isOk
    · simp [mapped, Except.toOption] at unmapped

end DariyaKyu.Server

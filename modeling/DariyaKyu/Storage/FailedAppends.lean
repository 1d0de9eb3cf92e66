import DariyaKyu.Storage.BatchCodec
import DariyaKyu.Storage.LogRuns
import DariyaKyu.Storage.ServedReads

/-!
Appends that fail in the middle of the write while the process goes on. The
log is compared with a ledger of the appends that succeeded. What a failed
append leaves behind is a torn tail in the file and perhaps an index entry for
the place where the next batch goes; both are harmless to reads and to the next
append, and harmful to a seal: the entry misleads it, and the tail becomes part
of what the sealed segment serves.
-/

namespace DariyaKyu.Storage

set_option autoImplicit false

/-- Appends of whole batches that may fail before the last byte, and no
cleaning passes. -/
def LogAction.Tearing : LogAction → Prop
  | .append batchBytes _ _ fault =>
      IntactBatch batchBytes ∧ ∀ torn ∈ fault, torn.written < batchBytes.length
  | .clean _ _ _ => False
  | _ => True

/-- A roll at this time finds no entry for the place where the next batch goes,
and nothing behind the write position. -/
def Log.RollsBare (log : Log) (nowMs : Int) : Prop :=
  log.active.shouldRoll nowMs = true →
    log.active.undangling = true ∧ log.active.log.bytes.length = log.active.log.size

/-- The action does not come upon what a failed append has left in its way. -/
def Log.Unhindered (log : Log) : LogAction → Prop
  | .append _ rollMs _ _ => log.RollsBare rollMs
  | .maybeRoll nowMs => log.RollsClean nowMs
  | .reopen _ _ => log.EndsClean
  | _ => True

instance (action : LogAction) : Decidable action.Tearing :=
  match action with
  | .append batchBytes _ _ fault => inferInstanceAs
      (Decidable (IntactBatch batchBytes ∧ ∀ torn ∈ fault, torn.written < batchBytes.length))
  | .clean _ _ _ => inferInstanceAs (Decidable False)
  | .maybeRoll _ | .applyRetention _ | .sweepGraveyard _ | .reopen _ _ =>
      inferInstanceAs (Decidable True)

instance (log : Log) (nowMs : Int) : Decidable (log.RollsBare nowMs) :=
  inferInstanceAs (Decidable (_ → _ ∧ _))

instance (log : Log) (action : LogAction) : Decidable (log.Unhindered action) :=
  match action with
  | .append _ rollMs _ _ => inferInstanceAs (Decidable (log.RollsBare rollMs))
  | .maybeRoll nowMs => inferInstanceAs (Decidable (log.RollsClean nowMs))
  | .reopen _ _ => inferInstanceAs (Decidable log.EndsClean)
  | .applyRetention _ | .sweepGraveyard _ | .clean _ _ _ => inferInstanceAs (Decidable True)

/-- A log next to what should be in it: the batches of the appends that
succeeded, without those retention took. -/
structure Ledgered where
  log : Log
  ledger : List Bytes

def Ledgered.step (action : LogAction) (state : Ledgered) : Option Ledgered := do
  let next ← Log.step action state.log
  match action with
  | .append batchBytes rollMs clockMs fault =>
      match state.log.append batchBytes rollMs clockMs fault with
      | .returned offset _ => return ⟨next, state.ledger ++ [stamped batchBytes offset]⟩
      | _ => return ⟨next, state.ledger⟩
  | .applyRetention _ => return ⟨next, state.ledger.filter (next.logStartOffset ≤ baseOf ·)⟩
  | _ => return ⟨next, state.ledger⟩

/-- What holds in every state however many appends have failed: another failure
changes nothing a reader can see, the index names batches or the place of the
next one, and an unhindered roll or startup keeps the batches. -/
structure Log.Undisturbed (log : Log) : Prop where
  failing : ∀ batchBytes rollMs clockMs fault failure after, IntactBatch batchBytes →
    log.RollsBare rollMs → log.append batchBytes rollMs clockMs fault = .threw failure after →
    after.batches = log.batches ∧ after.logEndOffset = log.logEndOffset ∧ after.ServesAs log
  sealedIndex : ∀ segment ∈ log.sealedMap, ∀ entry ∈ segment.index.entries,
    NamesBatch segment.baseOffset (batchesIn segment) entry
  activeIndex : ∀ entry ∈ log.active.index.entries,
    NamesBatch log.active.baseOffset (batchesIn log.active.toSegmentBase) entry ∨
      NamesEnd log.active.baseOffset (batchesIn log.active.toSegmentBase) entry
  rolling : ∀ nowMs, log.RollsClean nowMs → ∃ rolled, log.maybeRoll nowMs = .returned () rolled ∧
    rolled.batches = log.batches ∧ rolled.logEndOffset = log.logEndOffset
  reopening : log.EndsClean → ∀ fallback clockMs, ∃ reopened,
    Log.open log.tp log.dir log.files fallback clockMs = .ok reopened ∧
      reopened.batches = log.batches ∧ reopened.logEndOffset = log.logEndOffset

theorem Log.RollsBare.clean {log : Log} {nowMs : Int} (bare : log.RollsBare nowMs) : log.RollsClean nowMs := by
  intro rolls
  obtain ⟨undangling, tight⟩ := bare rolls
  refine ⟨undangling, ?_⟩
  rw [ActiveSegment.quietTail, batch_at_end _ tight.le]

theorem active_serves_as {dir : String} {first second : ActiveSegment} {batches : List Bytes}
    (firstHolds : ActiveHolds dir first batches) (secondHolds : ActiveHolds dir second batches)
    (base : first.baseOffset = second.baseOffset) :
    first.toSegmentBase.ServesAs second.toSegmentBase := by
  have shown : ∀ {segment : ActiveSegment}, ActiveHolds dir segment batches →
      segment.log.bytes.take segment.log.size = batches.flatten := by
    intro segment holds
    obtain ⟨behind, contents⟩ := holds.front
    rw [holds.tight, ← contents, List.take_left']
    rfl
  exact held_serves_as firstHolds.segmentHolds secondHolds.segmentHolds base
    (firstHolds.tight.trans secondHolds.tight.symm) ((shown firstHolds).trans (shown secondHolds).symm)

theorem delete_append {log : Log} (holds : DeleteHolds log) {batchBytes : Bytes}
    (intact : IntactBatch batchBytes) {rollMs : Int} (clean : log.RollsClean rollMs) (clockMs : Int)
    (fault : Option WriteFault) :
    ∃ rolled, log.maybeRoll rollMs = .returned () rolled ∧
      ((∃ next, log.append batchBytes rollMs clockMs fault = .returned log.logEndOffset next ∧
          DeleteHolds next ∧ next.batches = log.batches ++ [stamped batchBytes log.logEndOffset]) ∨
        (∃ failure next, log.append batchBytes rollMs clockMs fault = .threw failure next ∧
          DeleteHolds next ∧ next.batches = log.batches ∧ next.logEndOffset = log.logEndOffset ∧
          next.ServesAs rolled)) := by
  obtain ⟨rolled, moved, rolledHolds, same, batches, ends⟩ := delete_roll holds clean
  obtain ⟨_, again, outcomes⟩ := append_spec holds.toLogHolds intact clockMs fault
    (fun rolls => (clean rolls).1) (fun rolls => (clean rolls).2)
  rw [moved] at again
  cases again
  refine ⟨rolled, moved, ?_⟩
  rcases outcomes with ⟨active, appended, _, _, activeHolds, _, base, policy, _⟩ |
    ⟨failure, active, failed, activeHolds, _, base, policy, fd, size, next⟩
  · refine .inl ⟨_, appended, ⟨with_active_holds _ rolledHolds.toLogHolds activeHolds base policy rfl,
      rolledHolds.deletes, ?_⟩, ?_⟩
    · simp only [base]
      exact rolledHolds.joined
    · rw [← batches]
      simp only [Log.batches, batches_in_active activeHolds, List.append_assoc]
  · have sameEnd : rolled.logEndOffset = active.nextOffset := by rw [next, rolledHolds.ends]
    have nextHolds := with_active_holds rolled.highWatermark rolledHolds.toLogHolds
      activeHolds base policy sameEnd
    refine .inr ⟨failure, _, failed, ⟨nextHolds, rolledHolds.deletes, ?_⟩, ?_, ends, ?_⟩
    · simp only [base]
      exact rolledHolds.joined
    · rw [← batches]
      simp only [Log.batches, batches_in_active activeHolds]
    · exact log_serves_as rfl (active_serves_as activeHolds rolledHolds.activeHolds base)
        (sealed_serve_themselves nextHolds)

theorem delete_reopen {log : Log} (holds : DeleteHolds log) (ends : log.EndsClean)
    (fallback : LogConfig) (clockMs : Int) :
    ∃ reopened, Log.open log.tp log.dir log.files fallback clockMs = .ok reopened ∧
      DeleteHolds reopened ∧ reopened.batches = log.batches ∧
      reopened.logEndOffset = log.logEndOffset := by
  obtain ⟨reopened, opened, settled, batches, sameEnd, _, _, _, config, base, same⟩ :=
    open_spec holds.toLogHolds ends fallback clockMs
  have joined : Linked (· = ·) log.active.baseOffset reopened.sealedMap :=
    (same_linked same).mpr holds.joined
  have deletes : log.config.reloaded.compacted = false := holds.deletes
  have occupied : ∀ segment ∈ reopened.sealedMap, segment.baseOffset < segment.nextOffset :=
    fun segment member => (linked_below settled.linked member).1
  have checked := (check_contiguity_ok log.dir log.config.reloaded occupied).mpr
    (by simpa only [deletes, Bool.false_eq_true, if_false] using joined)
  refine ⟨reopened, by rw [opened, checked]; rfl, ⟨settled.toLogHolds, ?_, ?_⟩, batches, sameEnd⟩
  · rw [config]
    exact deletes
  · rw [base]
    exact joined

theorem next_base_drop {newest : Int} {segments : List SealedSegment}
    (linked : Linked (· ≤ ·) newest segments) (count : Nat) :
    nextBase newest segments ≤ nextBase newest (segments.drop count) := by
  induction segments generalizing count with
  | nil => simp
  | cons first rest ih =>
      cases count with
      | zero => simp
      | succ count =>
          obtain ⟨occupied, ends, later⟩ := linked
          have behind := ih later count
          simp only [List.drop_succ_cons]
          simp only [nextBase, List.head?_cons, Option.map_some, Option.getD_some] at ends behind ⊢
          omega

theorem buried_batches {newest : Int} {segments : List SealedSegment} {last : List Bytes}
    (holds : ∀ segment ∈ segments, SealedHolds segment (batchesIn segment))
    (linked : Linked (· ≤ ·) newest segments) (above : ∀ batch ∈ last, newest ≤ baseOf batch)
    (count : Nat) :
    (segments.flatMap batchesIn ++ last).filter
        (fun batch => decide (nextBase newest (segments.drop count) ≤ baseOf batch)) =
      (segments.drop count).flatMap batchesIn ++ last := by
  induction segments generalizing count with
  | nil =>
      simp only [List.flatMap_nil, List.nil_append, List.drop_nil, List.filter_eq_self]
      intro batch member
      exact decide_eq_true (above batch member)
  | cons first rest ih =>
      have firstHolds := holds first (by simp)
      obtain ⟨occupied, ends, later⟩ := linked
      have restHolds := fun segment member => holds segment (List.mem_cons_of_mem first member)
      cases count with
      | zero =>
          have kept := ih restHolds later 0
          simp only [List.drop_zero] at kept ⊢
          rw [List.filter_eq_self]
          intro batch member
          rw [List.flatMap_cons, List.append_assoc] at member
          have start : nextBase newest (first :: rest) = first.baseOffset := rfl
          rw [start, decide_eq_true_eq]
          rcases List.mem_append.mp member with here | behind
          · exact (start_le_base firstHolds.ascending here).1
          · have reached : batch ∈ (rest.flatMap batchesIn ++ last).filter _ := kept.symm ▸ behind
            have far := (List.mem_filter.mp reached).2
            simp only [decide_eq_true_eq] at far
            omega
      | succ count =>
          have gone : (batchesIn first).filter
              (fun batch => decide (nextBase newest (rest.drop count) ≤ baseOf batch)) = [] := by
            rw [List.filter_eq_nil_iff]
            intro batch member
            have here := last_lt_end firstHolds.ascending member
            have spans := (start_le_base firstHolds.ascending member).2
            have next := next_base_drop later count
            rw [← firstHolds.ends] at here
            simp only [decide_eq_true_eq]
            omega
          rw [List.drop_succ_cons, List.flatMap_cons, List.append_assoc, List.filter_append, gone,
            List.nil_append]
          exact ih restHolds later count

theorem delete_retention {log : Log} (holds : DeleteHolds log) (nowMs : Int) :
    DeleteHolds (log.applyRetention nowMs) ∧ (log.applyRetention nowMs).batches =
      log.batches.filter ((log.applyRetention nowMs).logStartOffset ≤ baseOf ·) := by
  obtain ⟨count, graveyard, buried⟩ := retention_buries log nowMs
  have kept := retention_holds holds.toLogHolds nowMs
  rw [buried] at kept ⊢
  refine ⟨⟨kept, holds.deletes, linked_drop holds.joined count⟩, ?_⟩
  have active := holds.activeHolds.consecutive.ascending
  exact (buried_batches holds.sealedHolds holds.linked
    (fun batch member => (start_le_base active member).1) count).symm

theorem bare_roll_serves_as {log rolled : Log} (holds : DeleteHolds log) {nowMs : Int}
    (bare : log.RollsBare nowMs) (moved : log.maybeRoll nowMs = .returned () rolled) : rolled.ServesAs log := by
  rcases maybe_roll_cases holds.toLogHolds (fun rolls => (bare rolls).1) (fun rolls => (bare.clean rolls).2)
    with ⟨_, stays⟩ | ⟨rolls, segment, active, made, moves⟩
  · cases moved.symm.trans stays
    exact log_serves_itself holds.toLogHolds
  · cases moved.symm.trans moves
    exact roll_serves_as holds.toLogHolds made (bare rolls).2 _

theorem undisturbed_of_holds {log : Log} (holds : DeleteHolds log) : log.Undisturbed where
  failing := by
    intro batchBytes rollMs clockMs fault failure after intact bare threw
    obtain ⟨rolled, moved, ⟨next, returned, _⟩ | ⟨failed, next, thrown, _, batches, ends, reads⟩⟩ :=
      delete_append holds intact bare.clean clockMs fault
    · rw [returned] at threw
      cases threw
    · rw [thrown] at threw
      cases threw
      exact ⟨batches, ends, reads.trans (bare_roll_serves_as holds bare moved)⟩
  sealedIndex := fun segment member => (holds.sealedHolds segment member).named
  activeIndex := holds.activeHolds.segmentHolds.indexed
  rolling := by
    intro nowMs clean
    obtain ⟨rolled, moved, _, _, batches, ends⟩ := delete_roll holds clean
    exact ⟨rolled, moved, batches, ends⟩
  reopening := by
    intro ends fallback clockMs
    obtain ⟨reopened, opened, _, batches, sameEnd⟩ := delete_reopen holds ends fallback clockMs
    exact ⟨reopened, opened, batches, sameEnd⟩

theorem ledgered_step {state next : Ledgered} {action : LogAction} (holds : DeleteHolds state.log)
    (equal : state.log.batches = state.ledger) (tearing : action.Tearing)
    (unhindered : state.log.Unhindered action) (taken : Ledgered.step action state = some next) :
    DeleteHolds next.log ∧ next.log.batches = next.ledger := by
  cases action with
  | append batchBytes rollMs clockMs fault =>
      obtain ⟨rolled, _, ⟨after, returned, afterHolds, batches⟩ |
        ⟨failure, after, threw, afterHolds, batches, _⟩⟩ :=
        delete_append holds tearing.1 unhindered.clean clockMs fault
      · simp only [Ledgered.step, Log.step, returned, Outcome.log] at taken
        cases taken
        exact ⟨afterHolds, by rw [batches, equal]⟩
      · simp only [Ledgered.step, Log.step, threw, Outcome.log] at taken
        cases taken
        exact ⟨afterHolds, by rw [batches, equal]⟩
  | maybeRoll nowMs =>
      obtain ⟨rolled, moved, rolledHolds, _, batches, _⟩ := delete_roll holds unhindered
      simp only [Ledgered.step, Log.step, moved, Outcome.log] at taken
      cases taken
      exact ⟨rolledHolds, by rw [batches, equal]⟩
  | applyRetention nowMs =>
      obtain ⟨kept, batches⟩ := delete_retention holds nowMs
      simp only [Ledgered.step, Log.step] at taken
      cases taken
      exact ⟨kept, by rw [batches, equal]⟩
  | sweepGraveyard nowMs =>
      simp only [Ledgered.step, Log.step] at taken
      cases taken
      exact ⟨⟨sweep_holds holds.toLogHolds nowMs, holds.deletes, holds.joined⟩, equal⟩
  | clean maxKeyMapEntries firstDirtyOffset nowMs => exact tearing.elim
  | reopen fallback clockMs =>
      obtain ⟨reopened, opened, reopenedHolds, batches, _⟩ :=
        delete_reopen holds unhindered fallback clockMs
      simp only [Ledgered.step, Log.step, opened] at taken
      cases taken
      exact ⟨reopenedHolds, by rw [batches, equal]⟩

/-- As long as no roll and no startup comes upon the remains of a failed
append, failures leave no trace: the log is the ledger in every state. -/
theorem failed_appends_leave_no_trace {tp : TopicPartition} {dir : String} {config : LogConfig}
    {created : Log} {final : Ledgered} (named : StorableName tp) (storable : config.Storable)
    (deletes : config.compacted = false) (made : Log.create tp dir config = .ok created)
    (reached : GuardedRun.Reaches Ledgered.step
      (fun state action => action.Tearing ∧ state.log.Unhindered action) ⟨created, []⟩ final) :
    final.log.batches = final.ledger ∧ final.log.Undisturbed := by
  obtain ⟨settled, empty, unsealed, _, _, same, _⟩ := create_spec named storable made
  have kept := reached.invariant Ledgered.step _
    (fun state => DeleteHolds state.log ∧ state.log.batches = state.ledger)
    ⟨⟨settled.toLogHolds, by rw [same]; exact deletes, by rw [unsealed]; trivial⟩, empty⟩
    (fun state action next ⟨holds, equal⟩ ⟨tearing, unhindered⟩ taken =>
      ledgered_step holds equal tearing unhindered taken)
  exact ⟨kept.2, undisturbed_of_holds kept.1⟩

/-- A batch; another torn after 30 of its bytes, and one again behind it. -/
def tornAndRepeated : List LogAction :=
  [.append (recordBatchOf 10 none (some [118])) 0 0 none,
    .append (recordBatchOf 20 none (some [118])) 0 0 (some ⟨30, 28⟩),
    .append (recordBatchOf 30 none (some [118])) 0 0 none, .maybeRoll 0, .reopen {} 0]

theorem failed_appends_leave_no_trace_repeated :
    ∃ (created : Log) (final : Ledgered), Log.create ⟨[116], 0⟩ "t-0" twoBatchConfig = .ok created ∧
      final.ledger.length = 2 ∧ final.log.batches = final.ledger ∧ final.log.Undisturbed := by
  obtain ⟨created, final, made, reached, two⟩ := found_from_creation Ledgered.step
    (fun state action => action.Tearing ∧ state.log.Unhindered action) (⟨·, []⟩) ⟨[116], 0⟩ "t-0"
    twoBatchConfig (fun state => state.ledger.length == 2) tornAndRepeated (by decide +kernel)
  exact ⟨created, final, made, by simpa using two,
    failed_appends_leave_no_trace ⟨by decide, by decide, by decide, by decide⟩
      storable_two_batch_config rfl made reached⟩

/-- A failed append right before a roll: the index entry it left is where the
seal starts to look, and the sealed segment seems to end where it begins. -/
def tornBeforeRoll : List LogAction :=
  [.append (recordBatchOf 10 none (some [118])) 0 0 none,
    .append (recordBatchOf 20 none (some [118])) 0 0 (some ⟨0, 28⟩), .maybeRoll 604800000]

theorem failed_append_breaks_restart :
    ¬ ∀ (tp : TopicPartition) (dir : String) (config : LogConfig) (created : Log) (final : Ledgered),
      StorableName tp → config.Storable → config.compacted = false →
      Log.create tp dir config = .ok created →
      GuardedRun.Reaches Ledgered.step (fun _ action => action.Tearing) ⟨created, []⟩ final →
      ∀ fallback clockMs, ∃ reopened,
        Log.open final.log.tp final.log.dir final.log.files fallback clockMs = .ok reopened ∧
          reopened.batches = final.ledger ∧ reopened.logEndOffset = final.log.logEndOffset := by
  intro all
  refine refuted_from_creation Ledgered.step (fun _ action => action.Tearing) (⟨·, []⟩) ⟨[116], 0⟩
    "t-0" twoBatchConfig
    (fun final => ∃ reopened,
      Log.open final.log.tp final.log.dir final.log.files {} 0 = .ok reopened)
    (fun final => (Log.open final.log.tp final.log.dir final.log.files {} 0).isOk) ?_
    tornBeforeRoll (by decide +kernel) ?_
  · rintro final ⟨reopened, opened⟩
    rw [opened]
    rfl
  · intro created final made reached
    obtain ⟨reopened, opened, _⟩ := all _ _ _ created final ⟨by decide, by decide, by decide, by decide⟩
      storable_two_batch_config rfl made reached {} 0
    exact ⟨reopened, opened⟩

end DariyaKyu.Storage

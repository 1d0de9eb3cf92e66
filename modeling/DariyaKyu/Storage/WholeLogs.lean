import DariyaKyu.Storage.AppendRoom
import DariyaKyu.Storage.FailedRemovals

/-!
A log that deletes and has never failed: its files are exactly the batches that
were appended, the oldest segments gone. The segments tile the offsets from the
log start to the log end, and a read inside is a piece of the appended bytes that
begins with the batch the offset is in. An append that finds room returns the log
end, and one that does not throws.
-/

namespace DariyaKyu.Storage

set_option autoImplicit false

/-- A log, every batch that was appended to it with the offset it was given, and
for each append the log end in front of it and what it returned. -/
structure Appending where
  log : Log
  appended : List Bytes
  answers : List (Int × Option Int)

def Appending.step (action : LogAction) (state : Appending) : Option Appending := do
  let next ← Log.step action state.log
  match action with
  | .append batchBytes rollMs clockMs fault =>
      match state.log.append batchBytes rollMs clockMs fault with
      | .returned offset _ => return ⟨next, state.appended ++ [stamped batchBytes offset],
          state.answers ++ [(state.log.logEndOffset, some offset)]⟩
      | _ => return ⟨next, state.appended, state.answers ++ [(state.log.logEndOffset, none)]⟩
  | _ => return ⟨next, state.appended, state.answers⟩

def Log.AppendFinds (log : Log) : LogAction → Prop
  | .append _ rollMs _ _ => log.HasRoom rollMs
  | _ => True

def Appending.AllReturned (state : Appending) : Prop :=
  ∀ answer ∈ state.answers, answer.2 = some answer.1

instance (log : Log) (action : LogAction) : Decidable (log.AppendFinds action) :=
  match action with
  | .append _ rollMs _ _ => inferInstanceAs (Decidable (log.HasRoom rollMs))
  | .maybeRoll _ | .applyRetention _ | .sweepGraveyard _ | .clean _ _ _ | .reopen _ _ =>
      inferInstanceAs (Decidable True)

/-- The segment's file is its batches and nothing else, and none is missing. -/
structure WholeSegment (segment : SegmentBase) : Prop where
  consecutive : Consecutive segment.baseOffset (batchesIn segment)
  ends : segment.nextOffset = endOffset segment.baseOffset (batchesIn segment)
  bytes : segment.log.bytes = (batchesIn segment).flatten
  size : segment.log.size = (batchesIn segment).flatten.length

/-- What a read of an offset in the log is answered with: a piece of what was
appended, from the batch that holds the offset on, of one segment. -/
def Log.ServesSlice (log : Log) (appended : List Bytes) (offset : Int) (maxBytes : Nat) : Prop :=
  ∃ owner ∈ log.sealedMap ++ [log.active.toSegmentBase], ∃ before batch after earlier later,
    batchesIn owner = before ++ batch :: after ∧ appended = earlier ++ batch :: after ++ later ∧
      baseOf batch ≤ offset ∧ offset ≤ lastOf batch ∧
      log.read offset maxBytes = .ok ⟨.none, ⟨owner.log.fd, before.flatten.length,
        max batch.length (min maxBytes (batch :: after).flatten.length)⟩⟩ ∧
      owner.log.readAt before.flatten.length
          (max batch.length (min maxBytes (batch :: after).flatten.length)) =
        (batch :: after).flatten.take
          (max batch.length (min maxBytes (batch :: after).flatten.length))

/-- The log is what was appended to it, from the log start on. -/
structure Log.WholeOver (log : Log) (appended : List Bytes) : Prop where
  tiled : Linked (· = ·) log.active.baseOffset log.sealedMap
  segments : ∀ segment ∈ log.sealedMap ++ [log.active.toSegmentBase], WholeSegment segment
  ends : log.logEndOffset = log.active.nextOffset
  consecutive : Consecutive log.logStartOffset log.batches
  reaches : endOffset log.logStartOffset log.batches = log.logEndOffset
  kept : ∃ gone, appended = gone ++ log.batches
  appends : ∀ batchBytes rollMs clockMs fault offset next, IntactBatch batchBytes →
    log.append batchBytes rollMs clockMs fault = .returned offset next → offset = log.logEndOffset
  returns : ∀ batchBytes rollMs clockMs, IntactBatch batchBytes →
    ((∃ next, log.append batchBytes rollMs clockMs none = .returned log.logEndOffset next) ↔ log.HasRoom rollMs)
  reads : ∀ offset maxBytes, log.logStartOffset ≤ offset → offset < log.logEndOffset →
    log.ServesSlice appended offset maxBytes

/-- A log in order of whose segments every one is whole and ends where the next begins. -/
structure TiledHolds (log : Log) : Prop extends LogSettled log where
  joined : Linked (· = ·) log.active.baseOffset log.sealedMap
  whole : ∀ segment ∈ log.sealedMap, WholeSegment segment

structure WholeHolds (log : Log) : Prop extends LogSettled log, DeleteHolds log where
  whole : ∀ segment ∈ log.sealedMap, WholeSegment segment

theorem WholeHolds.tiled {log : Log} (holds : WholeHolds log) : TiledHolds log :=
  ⟨holds.toLogSettled, holds.joined, holds.whole⟩

section Whole

variable {log : Log}

theorem whole_active {dir : String} {segment : ActiveSegment} {batches : List Bytes}
    (settled : ActiveSettled dir segment batches) : WholeSegment segment.toSegmentBase := by
  have same := batches_in_active settled.toActiveHolds
  exact ⟨same.symm ▸ settled.consecutive, same.symm ▸ settled.ends, same.symm ▸ settled.whole,
    same.symm ▸ settled.tight⟩

theorem WholeHolds.segments (holds : WholeHolds log) :
    ∀ segment ∈ log.sealedMap ++ [log.active.toSegmentBase], WholeSegment segment := by
  intro segment member
  rcases List.mem_append.mp member with old | active
  · exact holds.whole segment old
  · rw [List.mem_singleton.mp active]
    exact whole_active holds.settled

theorem whole_rolled (settled : LogSettled log) {segment : SealedSegment} {active : ActiveSegment}
    (rolled : Rolled log segment active) : WholeSegment segment := by
  obtain ⟨same, _⟩ := rolled_batches rolled
  have whole := whole_active settled.settled
  exact
    { consecutive := by
        rw [same, rolled.base]
        exact whole.consecutive
      ends := by
        rw [same, rolled.base, rolled.next]
        exact whole.ends
      bytes := by
        rw [same, rolled.bytes]
        exact whole.bytes
      size := by
        rw [rolled.holds.full, same, rolled.bytes, whole.bytes] }

theorem whole_same {first second : SegmentBase} (same : SameSegment first second)
    (whole : WholeSegment second) : WholeSegment first := by
  have batches := same_batches_in same
  exact
    { consecutive := by
        rw [batches, same.base]
        exact whole.consecutive
      ends := by
        rw [batches, same.base, same.next]
        exact whole.ends
      bytes := by
        rw [batches, same.bytes]
        exact whole.bytes
      size := by
        rw [batches, same.size]
        exact whole.size }

theorem joined_consecutive {newest : Int} {segments : List SealedSegment}
    (joined : Linked (· = ·) newest segments) (whole : ∀ segment ∈ segments, WholeSegment segment) :
    Consecutive (nextBase newest segments) (segments.flatMap batchesIn) ∧
      endOffset (nextBase newest segments) (segments.flatMap batchesIn) = newest := by
  induction segments with
  | nil => exact ⟨trivial, rfl⟩
  | cons segment rest ih =>
      obtain ⟨_, meets, later⟩ := joined
      have first := whole segment (by simp)
      have behind := ih later fun other member => whole other (by simp [member])
      have start : nextBase newest (segment :: rest) = segment.baseOffset := rfl
      rw [List.flatMap_cons, consecutive_append, end_offset_append, start, ← first.ends, meets]
      exact ⟨⟨first.consecutive, behind.1⟩, behind.2⟩

theorem log_consecutive (holds : TiledHolds log) : Consecutive log.logStartOffset log.batches ∧
    endOffset log.logStartOffset log.batches = log.logEndOffset := by
  have start : log.logStartOffset = nextBase log.active.baseOffset log.sealedMap := rfl
  obtain ⟨consecutive, reaches⟩ := joined_consecutive holds.joined holds.whole
  have active := whole_active holds.settled
  rw [Log.batches, consecutive_append, end_offset_append, start, reaches]
  exact ⟨⟨consecutive, active.consecutive⟩, by rw [holds.ends, active.ends]⟩

theorem first_reaching_holds {start offset : Int} {before after : List Bytes} {batch : Bytes}
    (consecutive : Consecutive start (before ++ batch :: after)) (starts : start ≤ offset)
    (below : ∀ earlier ∈ before, lastOf earlier < offset) : baseOf batch ≤ offset := by
  obtain ⟨_, base, _⟩ := consecutive_append.mp consecutive
  rw [base]
  by_contra beyond
  obtain ⟨earlier, member, reaches⟩ := reached_below_end starts (Int.not_le.mp beyond)
  have short := below earlier member
  omega

theorem slice_of_segment {appended earlier later : List Bytes} {owner : SegmentBase} {offset : Int}
    {maxBytes : Nat} (whole : WholeSegment owner)
    (within : appended = earlier ++ batchesIn owner ++ later) (starts : owner.baseOffset ≤ offset)
    (ends : offset < owner.nextOffset)
    (answered : log.read offset maxBytes =
      .ok ⟨.none, rangeFrom owner.log (batchesIn owner) offset maxBytes⟩) :
    ∃ before batch after earlier later, batchesIn owner = before ++ batch :: after ∧
      appended = earlier ++ batch :: after ++ later ∧ baseOf batch ≤ offset ∧ offset ≤ lastOf batch ∧
      log.read offset maxBytes = .ok ⟨.none, ⟨owner.log.fd, before.flatten.length,
        max batch.length (min maxBytes (batch :: after).flatten.length)⟩⟩ ∧
      owner.log.readAt before.flatten.length
          (max batch.length (min maxBytes (batch :: after).flatten.length)) =
        (batch :: after).flatten.take
          (max batch.length (min maxBytes (batch :: after).flatten.length)) := by
  rw [whole.ends] at ends
  obtain ⟨before, batch, after, split, below, reaches, range⟩ :=
    range_from_reaching (reached_below_end starts ends)
  have base := first_reaching_holds (split ▸ whole.consecutive) starts below
  have left : owner.log.size - before.flatten.length = (batch :: after).flatten.length := by
    rw [whole.size, split, List.flatten_append, List.length_append]
    omega
  refine ⟨before, batch, after, earlier ++ before, later, split, ?_, base, reaches, ?_, ?_⟩
  · rw [within, split]
    simp
  · rw [answered, range, left]
  · rw [FileHandle.readAt, whole.bytes, split, List.flatten_append, List.drop_left]

theorem log_batches_segments (log : Log) :
    log.batches = (log.sealedMap ++ [log.active.toSegmentBase]).flatMap batchesIn := by
  simp [Log.batches]

/-- The segment that answers a read in the log: it is whole, it holds the offset,
and the answer is a range of its file. -/
theorem log_answers (holds : TiledHolds log) {offset : Int} (starts : log.logStartOffset ≤ offset)
    (ends : offset < log.logEndOffset) (maxBytes : Nat) :
    ∃ owner before behind, log.sealedMap ++ [log.active.toSegmentBase] = before ++ owner :: behind ∧
      log.owner offset = some owner ∧ WholeSegment owner ∧ owner.baseOffset ≤ offset ∧
      offset < owner.nextOffset ∧
      log.read offset maxBytes = .ok ⟨.none, rangeFrom owner.log (batchesIn owner) offset maxBytes⟩ := by
  by_cases inActive : log.active.baseOffset ≤ offset
  · refine ⟨log.active.toSegmentBase, log.sealedMap, [], rfl, ?_, whole_active holds.settled, inActive,
      holds.ends ▸ ends, active_read holds.toLogHolds inActive ends maxBytes⟩
    rw [Log.owner, if_pos inActive]
  · obtain ⟨ahead, segment, behind, split, base, above⟩ :=
      route_split holds.linked starts (Int.not_le.mp inActive)
    have meets : segment.nextOffset = nextBase log.active.baseOffset behind :=
      linked_meets (split ▸ holds.joined)
    refine ⟨segment, ahead, behind ++ [log.active.toSegmentBase], by simp [split], ?_,
      holds.whole segment (by simp [split]), base, meets ▸ above,
      sealed_read holds.toLogHolds split base above maxBytes⟩
    rw [Log.owner, if_neg inActive, routed_to holds.linked split base above]

theorem log_serves_slices (holds : WholeHolds log) {appended gone : List Bytes}
    (kept : appended = gone ++ log.batches) {offset : Int} (starts : log.logStartOffset ≤ offset)
    (ends : offset < log.logEndOffset) (maxBytes : Nat) : log.ServesSlice appended offset maxBytes := by
  obtain ⟨owner, before, behind, segments, _, whole, base, above, answered⟩ :=
    log_answers holds.tiled starts ends maxBytes
  have within : appended = (gone ++ before.flatMap batchesIn) ++ batchesIn owner ++ behind.flatMap batchesIn := by
    rw [kept, log_batches_segments, segments]
    simp
  exact ⟨owner, by simp [segments], slice_of_segment whole within base above answered⟩

theorem WholeHolds.wholeOver (holds : WholeHolds log) {appended : List Bytes}
    (kept : ∃ gone, appended = gone ++ log.batches) : log.WholeOver appended where
  tiled := holds.joined
  segments := holds.segments
  ends := holds.ends
  consecutive := (log_consecutive holds.tiled).1
  reaches := (log_consecutive holds.tiled).2
  kept := kept
  appends := by
    intro batchBytes rollMs clockMs fault offset next intact returned
    obtain ⟨_, _, ⟨_, appended, _⟩ | ⟨_, _, threw, _⟩⟩ :=
      delete_append holds.toDeleteHolds intact (holds.rollsClean rollMs) clockMs fault
    · rw [returned] at appended
      cases appended
      rfl
    · rw [returned] at threw
      cases threw
  returns := fun _ rollMs clockMs intact => append_returns_iff holds.toLogSettled intact rollMs clockMs
  reads := by
    obtain ⟨gone, kept⟩ := kept
    intro offset maxBytes starts ends
    exact log_serves_slices holds kept starts ends maxBytes

theorem whole_moves {next : Log} (settled : LogSettled log) (whole : ∀ segment ∈ log.sealedMap, WholeSegment segment)
    {action : LogAction} (moves : SealedMoves log action next) :
    ∀ segment ∈ next.sealedMap, WholeSegment segment := by
  intro segment member
  cases moves with
  | kept same => exact whole segment (same ▸ member)
  | rolled _ made active rolled grown =>
      rw [grown] at member
      rcases List.mem_append.mp member with old | new
      · exact whole segment old
      · rw [List.mem_singleton.mp new]
        exact whole_rolled settled rolled
  | buried count dropped => exact whole segment (List.mem_of_mem_drop (dropped ▸ member))
  | reopened same =>
      obtain ⟨original, isOriginal, both⟩ := same_member same member
      exact whole_same both (whole original isOriginal)

theorem tiled_append (holds : TiledHolds log) {batchBytes : Bytes} (intact : IntactBatch batchBytes)
    (rollMs clockMs : Int) :
    (∃ next, log.append batchBytes rollMs clockMs none = .returned log.logEndOffset next ∧
      TiledHolds next ∧ FitsSigned 64 log.logEndOffset ∧
      next.batches = log.batches ++ [stamped batchBytes log.logEndOffset]) ∨
    ∃ failure next, log.append batchBytes rollMs clockMs none = .threw failure next ∧
      TiledHolds next ∧ next.batches = log.batches := by
  have follows : ∀ next, (log.append batchBytes rollMs clockMs none).log = some next → TiledHolds next := by
    intro next appends
    have plain : (LogAction.append batchBytes rollMs clockMs none).Plain := ⟨intact, rfl⟩
    obtain ⟨settled, moves, _⟩ := settled_step holds.toLogSettled plain appends
    have grows := append_grows holds.toLogHolds intact (holds.rollsClean rollMs) appends
    exact ⟨settled, grows.joined holds.joined, whole_moves holds.toLogSettled holds.whole moves⟩
  rcases settled_append holds.toLogSettled intact rollMs clockMs with
    ⟨next, returned, _, range, batches, _⟩ | ⟨failure, next, threw, _, batches, _⟩
  · exact .inl ⟨next, returned, follows next (congrArg Outcome.log returned), range, batches⟩
  · exact .inr ⟨failure, next, threw, follows next (congrArg Outcome.log threw), batches⟩

theorem created_tiled {tp : TopicPartition} {dir : String} {config : LogConfig} {created : Log}
    (named : StorableName tp) (storable : config.Storable) (made : Log.create tp dir config = .ok created) :
    TiledHolds created ∧ created.batches = [] := by
  obtain ⟨settled, empty, unsealed, _⟩ := create_spec named storable made
  exact ⟨⟨settled, by rw [unsealed]; trivial, by simp [unsealed]⟩, empty⟩

theorem whole_step {next : Log} (holds : WholeHolds log) (deleted : DeleteHolds next)
    {action : LogAction} (plain : action.Plain) (taken : Log.step action log = some next) :
    WholeHolds next := by
  obtain ⟨settled, moves, _⟩ := settled_step holds.toLogSettled plain taken
  exact ⟨settled, deleted.deletes, deleted.joined, whole_moves holds.toLogSettled holds.whole moves⟩

theorem retention_takes_front (log : Log) (nowMs : Int) :
    ∃ gone, log.batches = gone ++ (log.applyRetention nowMs).batches := by
  obtain ⟨count, graveyard, buried⟩ := retention_buries log nowMs
  refine ⟨(log.sealedMap.take count).flatMap batchesIn, ?_⟩
  have parts := log.sealedMap.take_append_drop count
  rw [buried, Log.batches, Log.batches, ← List.append_assoc, ← List.flatMap_append, parts]

/-- What an action appends is added behind, and what retention takes is taken
in front. -/
theorem appending_step {state next : Appending} {action : LogAction} (holds : WholeHolds state.log)
    (kept : ∃ gone, state.appended = gone ++ state.log.batches) (plain : action.Plain)
    (taken : Appending.step action state = some next) :
    WholeHolds next.log ∧ ∃ gone, next.appended = gone ++ next.log.batches := by
  obtain ⟨gone, kept⟩ := kept
  cases action with
  | append batchBytes rollMs clockMs fault =>
      obtain ⟨_, _, ⟨after, returned, afterHolds, batches⟩ | ⟨_, after, threw, afterHolds, batches, _⟩⟩ :=
        delete_append holds.toDeleteHolds plain.1 (holds.rollsClean rollMs) clockMs fault
      · have moved : Log.step (.append batchBytes rollMs clockMs fault) state.log = some after := by
          simp only [Log.step, returned, Outcome.log]
        simp only [Appending.step, moved, returned] at taken
        cases taken
        exact ⟨whole_step holds afterHolds plain moved, gone, by rw [kept, batches, List.append_assoc]⟩
      · have moved : Log.step (.append batchBytes rollMs clockMs fault) state.log = some after := by
          simp only [Log.step, threw, Outcome.log]
        simp only [Appending.step, moved, threw] at taken
        cases taken
        exact ⟨whole_step holds afterHolds plain moved, gone, by rw [kept, batches]⟩
  | maybeRoll nowMs =>
      obtain ⟨rolled, moved, rolledHolds, _, batches, _⟩ :=
        delete_roll holds.toDeleteHolds (holds.rollsClean nowMs)
      have stepped : Log.step (.maybeRoll nowMs) state.log = some rolled := by
        simp only [Log.step, moved, Outcome.log]
      simp only [Appending.step, stepped] at taken
      cases taken
      exact ⟨whole_step holds rolledHolds plain stepped, gone, by rw [kept, batches]⟩
  | applyRetention nowMs =>
      obtain ⟨deleted, _⟩ := delete_retention holds.toDeleteHolds nowMs
      obtain ⟨front, batches⟩ := retention_takes_front state.log nowMs
      cases taken
      exact ⟨whole_step holds deleted plain rfl, gone ++ front, by rw [kept, batches, List.append_assoc]⟩
  | sweepGraveyard nowMs =>
      cases taken
      exact ⟨whole_step holds ⟨sweep_holds holds.toLogHolds nowMs, holds.deletes, holds.joined⟩ plain rfl,
        gone, kept⟩
  | clean => exact plain.elim
  | reopen fallback clockMs =>
      obtain ⟨reopened, opened, reopenedHolds, batches, _⟩ :=
        delete_reopen holds.toDeleteHolds holds.endsClean fallback clockMs
      have stepped : Log.step (.reopen fallback clockMs) state.log = some reopened := by
        simp only [Log.step, opened]
      simp only [Appending.step, stepped] at taken
      cases taken
      exact ⟨whole_step holds reopenedHolds plain stepped, gone, by rw [kept, batches]⟩

theorem created_whole {tp : TopicPartition} {dir : String} {config : LogConfig} {created : Log}
    (named : StorableName tp) (storable : config.Storable) (deletes : config.compacted = false)
    (made : Log.create tp dir config = .ok created) : WholeHolds created ∧ created.batches = [] := by
  obtain ⟨tiled, empty⟩ := created_tiled named storable made
  obtain ⟨_, _, _, _, _, same, _⟩ := create_spec named storable made
  exact ⟨⟨tiled.toLogSettled, same ▸ deletes, tiled.joined, tiled.whole⟩, empty⟩

theorem appending_answers {state next : Appending} {action : LogAction} (settled : LogSettled state.log)
    (all : state.AllReturned) (plain : action.Plain) (room : state.log.AppendFinds action)
    (taken : Appending.step action state = some next) : next.AllReturned := by
  obtain ⟨after, moved, stepped⟩ := Option.bind_eq_some_iff.mp taken
  cases action with
  | append batchBytes rollMs clockMs fault =>
      obtain ⟨intact, rfl⟩ := plain
      obtain ⟨grown, returned⟩ := (append_returns_iff settled intact rollMs clockMs).mpr room
      simp only [returned] at stepped
      cases stepped
      intro answer member
      rcases List.mem_append.mp member with old | new
      · exact all answer old
      · rw [List.mem_singleton.mp new]
  | maybeRoll | applyRetention | sweepGraveyard | reopen =>
      cases stepped
      exact all
  | clean => exact plain.elim

end Whole

/-- Whatever is appended, rolled, retained, swept and reopened: as long as the
appends find room, each one returns the log end, and the log is what was appended
to it from the log start on, in segments that tile its offsets, and reads are
slices of it. -/
theorem delete_log_stays_whole {tp : TopicPartition} {dir : String} {config : LogConfig}
    {created : Log} {final : Appending} (named : StorableName tp) (storable : config.Storable)
    (deletes : config.compacted = false) (made : Log.create tp dir config = .ok created)
    (reached : GuardedRun.Reaches Appending.step (fun state action => action.Plain ∧ state.log.AppendFinds action)
      ⟨created, [], []⟩ final) :
    final.log.WholeOver final.appended ∧ final.AllReturned := by
  obtain ⟨whole, empty⟩ := created_whole named storable deletes made
  have kept := reached.invariant Appending.step _
    (fun state => (WholeHolds state.log ∧ ∃ gone, state.appended = gone ++ state.log.batches) ∧ state.AllReturned)
    ⟨⟨whole, [], by simp [empty]⟩, by simp [Appending.AllReturned]⟩ ?_
  · exact ⟨kept.1.1.wholeOver kept.1.2, kept.2⟩
  · rintro state action next ⟨⟨holds, kept⟩, all⟩ ⟨plain, room⟩ taken
    exact ⟨appending_step holds kept plain taken, appending_answers holds.toLogSettled all plain room taken⟩

/-- Two segments of two batches and one with one; the oldest is due for retention. -/
def appendsRollsRetains : List LogAction :=
  [.append (recordBatchOf 10 none (some [118])) 0 0 none,
    .append (recordBatchOf 10 none (some [118])) 0 0 none,
    .append (recordBatchOf 2000 none (some [118])) 0 0 none,
    .append (recordBatchOf 2000 none (some [118])) 0 0 none, .maybeRoll 0,
    .append (recordBatchOf 2000 none (some [118])) 0 0 none, .applyRetention 2000]

theorem delete_log_stays_whole_retained :
    ∃ (created : Log) (final : Appending), Log.create ⟨[116], 0⟩ "t-0" twoBatchConfig = .ok created ∧
      final.log.logStartOffset = 2 ∧ final.log.logEndOffset = 5 ∧ final.appended.length = 5 ∧
      final.answers.length = 5 ∧ final.log.WholeOver final.appended ∧ final.AllReturned := by
  obtain ⟨created, final, made, reached, checked⟩ := found_from_creation Appending.step
    (fun state action => action.Plain ∧ state.log.AppendFinds action) (⟨·, [], []⟩) ⟨[116], 0⟩ "t-0" twoBatchConfig
    (fun state => decide (state.log.logStartOffset = 2 ∧ state.log.logEndOffset = 5 ∧
      state.appended.length = 5 ∧ state.answers.length = 5)) appendsRollsRetains (by decide +kernel)
  obtain ⟨start, ends, five, answered⟩ := of_decide_eq_true checked
  exact ⟨created, final, made, start, ends, five, answered,
    delete_log_stays_whole ⟨by decide, by decide, by decide, by decide⟩ storable_two_batch_config rfl
      made reached⟩

def sparseBatch : Bytes :=
  match ({} : RecordBatchBuilder).appendAt 2147483647 10 none (some [118]) [] with
  | .error _ => []
  | .ok builder => builtBytes builder

/-- Segments that would take a million of these batches, with an entry for each. -/
def sparseConfig : LogConfig where
  roll := { indexIntervalBytes := 1 }

/-- Two of them take the log end to the place the index cannot name, and the
third one throws, in a segment of a few bytes. -/
theorem sparse_append_throws :
    ¬ ∀ (tp : TopicPartition) (dir : String) (config : LogConfig) (created : Log) (final : Appending),
      StorableName tp → config.Storable → config.compacted = false → Log.create tp dir config = .ok created →
      GuardedRun.Reaches Appending.step (fun _ action => action.Plain) ⟨created, [], []⟩ final →
      final.log.WholeOver final.appended ∧ final.AllReturned := by
  intro all
  refine refuted_from_creation Appending.step (fun _ action => action.Plain) (⟨·, [], []⟩) ⟨[116], 0⟩ "t-0"
    sparseConfig Appending.AllReturned (fun state => state.answers.all fun answer => answer.2 == some answer.1) ?_
    (List.replicate 3 (.append sparseBatch 0 0 none)) (by decide +kernel) ?_
  · intro state returned
    simpa [Appending.AllReturned] using returned
  · intro created final made reached
    exact (all _ _ _ created final ⟨by decide, by decide, by decide, by decide⟩
      ⟨by decide, by decide, by decide, by decide, by decide, by decide, by decide, by decide⟩ rfl made reached).2

end DariyaKyu.Storage

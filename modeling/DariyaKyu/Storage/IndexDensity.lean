import DariyaKyu.Storage.BatchCodec
import DariyaKyu.Storage.LogRuns

/-!
How far a lookup lands in front of its target, and how far the walk of a seal or
a reopening has to go. Both are bounded by one index interval and one batch: an
entry is due once an interval has been written, and none is ever dropped, because
the roll check in front of an append replaces a segment whose index is full.
-/

namespace DariyaKyu.Storage

set_option autoImplicit false

open FrameWalk

/-- Where the last entry points; the front of the file when there is none. -/
def lastPosition (entries : List Entry) : Nat := (entries.getLast?.map (·.position)).getD 0

@[simp] theorem last_position_concat (entries : List Entry) (entry : Entry) :
    lastPosition (entries ++ [entry]) = entry.position := by
  simp [lastPosition]

/-- At most one interval lies between the start of a batch and the last entry at
or ahead of it, and at most one interval and a batch behind the last entry. -/
structure DenseEntries (interval limit : Nat) (batches : List Bytes) (entries : List Entry) : Prop where
  covered : ∀ before batch after, batches = before ++ batch :: after →
    before.flatten.length ≤ interval ∨ ∃ entry ∈ entries,
      entry.position ≤ before.flatten.length ∧ before.flatten.length ≤ entry.position + interval
  tail : batches.flatten.length ≤ lastPosition entries + (interval + limit)

theorem dense_entries_fresh (interval limit : Nat) : DenseEntries interval limit [] [] where
  covered := by simp
  tail := by simp

theorem index_step_due {policy : RollPolicy} {state next : IndexState} {baseOffset : Int} {position : Nat}
    (room : state.index.isFull = false)
    (stepped : indexStep policy state baseOffset position = .ok next) :
    (next = state ∧ (state.since < policy.indexIntervalBytes ∨ position = 0)) ∨
      (next.since = 0 ∧ ∃ entry : Entry, entry.position = position ∧
        next.index.entries = state.index.entries ++ [entry]) := by
  unfold indexStep at stepped
  split at stepped
  · next early =>
    cases stepped
    exact .inl ⟨rfl, .inl early⟩
  split at stepped
  · next front =>
    cases stepped
    exact .inl ⟨rfl, .inr front⟩
  split at stepped
  · cases stepped
  · obtain ⟨index, appended, made⟩ := except_bind_ok stepped
    cases Except.ok.inj made
    rcases OffsetIndex.append_ok appended with ⟨_, full⟩ | ⟨entries, _⟩
    · rw [room] at full
      cases full
    · exact .inr ⟨rfl, _, rfl, entries⟩

theorem dense_step {policy : RollPolicy} {limit : Nat} {state stepped : IndexState} {batches : List Bytes}
    {batch : Bytes} (dense : DenseEntries policy.indexIntervalBytes limit batches state.index.entries)
    (since : lastPosition state.index.entries + state.since = batches.flatten.length)
    (room : state.index.isFull = false) (short : batch.length ≤ limit)
    (step : indexStep policy state (baseOf batch) batches.flatten.length = .ok stepped) :
    DenseEntries policy.indexIntervalBytes limit (batches ++ [batch]) stepped.index.entries ∧
      lastPosition stepped.index.entries + (stepped.since + batch.length) =
        (batches ++ [batch]).flatten.length := by
  have size : (batches ++ [batch]).flatten.length = batches.flatten.length + batch.length := by simp
  -- an older batch keeps its entry, only the new one needs a look
  have split : ∀ before other after, batches ++ [batch] = before ++ other :: after →
      before = batches ∨ ∃ rest, batches = before ++ other :: rest := by
    intro before other after same
    rcases List.eq_nil_or_concat after with rfl | ⟨rest, last, rfl⟩
    · exact .inl (List.append_inj' same rfl).1.symm
    · have ends : batches ++ [batch] = (before ++ other :: rest) ++ [last] := by simpa using same
      exact .inr ⟨rest, (List.append_inj' ends rfl).1⟩
  rcases index_step_due room step with ⟨rfl, early⟩ | ⟨reset, entry, place, entries⟩
  · have near : batches.flatten.length ≤ lastPosition stepped.index.entries + policy.indexIntervalBytes := by
      omega
    refine ⟨⟨?_, by rw [size]; omega⟩, by rw [size]; omega⟩
    intro before other after same
    rcases split before other after same with rfl | ⟨rest, earlier⟩
    · cases last : stepped.index.entries.getLast? with
      | none =>
          simp only [lastPosition, last, Option.map_none, Option.getD_none] at near
          exact .inl (by omega)
      | some entry =>
          simp only [lastPosition, last, Option.map_some, Option.getD_some] at near since
          exact .inr ⟨entry, List.mem_of_getLast? last, by omega, near⟩
    · exact dense.covered before other rest earlier
  · refine ⟨⟨?_, ?_⟩, ?_⟩
    · intro before other after same
      rw [entries]
      rcases split before other after same with rfl | ⟨rest, earlier⟩
      · exact .inr ⟨entry, by simp, place.le, by omega⟩
      · rcases dense.covered before other rest earlier with front | ⟨old, member, behind, near⟩
        · exact .inl front
        · exact .inr ⟨old, List.mem_append_left _ member, behind, near⟩
    · rw [entries, last_position_concat, size]
      omega
    · rw [entries, last_position_concat, size, reset]
      omega

section Bounds

variable {segment : SegmentBase} {batches : List Bytes} {interval limit : Nat}

theorem position_le_of_offset {index : OffsetIndex} {first second : Entry} (isFirst : first ∈ index.entries)
    (isSecond : second ∈ index.entries) (below : first.relativeOffset ≤ second.relativeOffset) :
    first.position ≤ second.position := by
  obtain ⟨one, oneBound, rfl⟩ := List.getElem_of_mem isFirst
  obtain ⟨other, otherBound, rfl⟩ := List.getElem_of_mem isSecond
  have ordered := List.pairwise_iff_getElem.mp index.ascending
  rcases Nat.lt_trichotomy one other with earlier | rfl | later
  · exact (ordered one other oneBound otherBound earlier).2.le
  · exact le_rfl
  · have above := (ordered other one otherBound oneBound later).1
    omega

theorem base_le_of_position (ascending : Ascending segment.baseOffset batches)
    (intact : ∀ batch ∈ batches, IntactBatch batch) {before after front behind : List Bytes} {batch other : Bytes}
    (split : batches = before ++ batch :: after) (parts : batches = front ++ other :: behind)
    (earlier : front.flatten.length ≤ before.flatten.length) : baseOf other ≤ baseOf batch := by
  have positive := (intact batch (by simp [split])).positive
  rcases List.append_eq_append_iff.mp (split.symm.trans parts) with ⟨rest, longer, same⟩ | ⟨rest, longer, same⟩
  · cases rest with
    | nil =>
        cases same
        exact le_rfl
    | cons first rest =>
        cases same
        rw [longer] at earlier
        simp only [List.flatten_append, List.flatten_cons, List.length_append] at earlier
        omega
  · cases rest with
    | nil =>
        cases same
        exact le_rfl
    | cons first rest =>
        cases same
        rw [split] at ascending
        have member : other ∈ before := by simp [longer]
        have below := last_lt_base ascending member
        have spans := (start_le_base ascending (List.mem_append_left _ member)).2
        omega

theorem lookup_near (holds : SegmentHolds segment batches)
    (dense : DenseEntries interval limit batches segment.index.entries) {before after : List Bytes}
    {batch : Bytes} (split : batches = before ++ batch :: after) {offset : Int}
    (lower : baseOf batch ≤ offset) (upper : offset ≤ lastOf batch) :
    ∃ entry, segment.index.lookup offset = .ok entry ∧ entry.position ≤ before.flatten.length ∧
      before.flatten.length ≤ entry.position + interval := by
  have inside : segment.baseOffset ≤ offset :=
    (start_le_base holds.ascending (by simp [split])).1.trans lower
  obtain ⟨entry, front, behind, found, parts, position, below⟩ :=
    entry_skips holds.ascending holds.based holds.indexed inside
  -- what the entry skips lies below the offset, and the batch does not
  have ahead : front.flatten.length ≤ before.flatten.length := by
    rcases List.append_eq_append_iff.mp (split.symm.trans parts) with ⟨rest, longer, same⟩ | ⟨rest, longer, _⟩
    · cases rest with
      | nil => rw [longer, List.append_nil]
      | cons first rest =>
          cases same
          have skipped := below batch (by simp [longer])
          omega
    · rw [longer]
      simp
  refine ⟨entry, found, position.trans_le ahead, ?_⟩
  rcases dense.covered before batch after split with close | ⟨cover, member, coverBehind, near⟩
  · omega
  have reaches : cover.relativeOffset ≤ min (offset - segment.index.baseOffset).toNat kMaxUint32 := by
    have bounded := (segment.index.bounded cover member).2
    have positive := (holds.intact batch (by simp [split])).positive
    rcases holds.indexed cover member with ⟨coverFront, other, coverRest, covers, starts, names⟩ | ⟨ends, _⟩
    · have base := base_le_of_position holds.ascending holds.intact split covers (starts ▸ coverBehind)
      rw [holds.based]
      omega
    · rw [ends, split] at coverBehind
      simp only [List.flatten_append, List.flatten_cons, List.length_append] at coverBehind
      omega
  obtain ⟨answer, answered, place⟩ := segment.index.lookup_spec offset (by rw [holds.based]; exact inside)
  rw [found] at answered
  cases answered
  rcases place with ⟨_, beyond⟩ | ⟨isEntry, _, greatest⟩
  · have above := beyond cover member
    omega
  · have closest := position_le_of_offset member isEntry (greatest cover member reaches)
    omega

end Bounds

/-- The object a seal and a reopening start from, before its end state is known. -/
def SegmentBase.opening (fd : Int) (path : String) (base : Int) (bytes : Bytes) (index : OffsetIndex) :
    SegmentBase where
  log := FileHandle.ofContents fd path bytes
  index := index.openSealed
  baseOffset := base
  nextOffset := base
  largestTimestamp := -1

def SegmentBase.walkedBytes (segment : SegmentBase) : Except Error Nat := do
  let limit := segment.log.size
  let entry ← segment.index.lookup (segment.baseOffset + kMaxUint32)
  let (ends, _) ← walk (batchAt segment.log limit) BatchAt.totalSize
    (fun state _ found => .ok (.next (EndState.advance state found)))
    (limit + 1) entry.position ⟨segment.baseOffset, -1⟩
  return ends - entry.position

theorem walked_near {fd base : Int} {path : String} {bytes : Bytes} {index : OffsetIndex}
    {batches : List Bytes} {interval limit : Nat}
    (holds : HoldsBatches (FileHandle.ofContents fd path bytes) batches) (based : index.baseOffset = base)
    (named : ∀ entry ∈ index.entries, NamesBatch base batches entry)
    (dense : DenseEntries interval limit batches index.entries) :
    ∃ walked, (SegmentBase.opening fd path base bytes index).walkedBytes = .ok walked ∧
      walked ≤ interval + limit := by
  subst based
  obtain ⟨entry, found, starts, place⟩ := index.openSealed.lookup_last
  obtain ⟨before, after, split, position⟩ : ∃ before after, batches = before ++ after ∧
      entry.position = before.flatten.length := by
    rcases place with rfl | member
    · exact ⟨[], batches, rfl, rfl⟩
    · obtain ⟨before, batch, after, split, starts, _⟩ := named entry member
      exact ⟨before, batch :: after, split, starts⟩
  have walked := walk_batches (split ▸ holds)
    (fun state _ found => .ok (.next (SegmentBase.EndState.advance state found))) ⟨index.baseOffset, -1⟩
  rw [visit_all_fold _ _ _ _ _ SegmentBase.EndState.advance (fun _ _ _ _ => rfl)] at walked
  refine ⟨after.flatten.length, ?_, ?_⟩
  · have opened : (SegmentBase.opening fd path index.baseOffset bytes index).index.lookup
        (index.baseOffset + kMaxUint32) = .ok entry := found
    simp only [SegmentBase.walkedBytes, SegmentBase.opening] at opened ⊢
    rw [opened]
    simp only [except_ok_bind, position]
    rw [walked, total_width_frames]
    simp [pure, Except.pure]
  · have tail := dense.tail
    have last : entry.position = lastPosition index.entries := starts
    rw [split, List.flatten_append, List.length_append] at tail
    omega

section Active

variable {dir : String} {segment after : ActiveSegment} {batches : List Bytes} {batch : Bytes} {limit : Nat}

/-- The index of the active segment is dense, and the bytes behind its last entry are counted. -/
structure ActiveDense (limit : Nat) (segment : ActiveSegment) (batches : List Bytes) : Prop where
  dense : DenseEntries segment.policy.indexIntervalBytes limit batches segment.index.entries
  since : lastPosition segment.index.entries + segment.bytesSinceIndexEntry = batches.flatten.length

theorem settled_fresh (settled : ActiveSettled dir segment []) (limit : Nat) :
    segment.index.isFull = false ∧ ActiveDense limit segment [] := by
  obtain ⟨fresh, created, all⟩ := settled.plain
  have same : (⟨fresh, 0⟩ : IndexState) = segment.indexState := Except.ok.inj all
  have index : fresh = segment.index := congrArg IndexState.index same
  have since : 0 = segment.bytesSinceIndexEntry := congrArg IndexState.since same
  unfold OffsetIndex.create at created
  split at created
  · cases created
  · next room =>
    cases created
    refine ⟨?_, ?_, ?_⟩
    · rw [← index]
      simp only [OffsetIndex.isFull, List.length_nil, decide_eq_false_iff_not]
      exact fun none => room (Nat.le_zero.mp none)
    · rw [← index]
      exact dense_entries_fresh _ _
    · rw [← index, ← since]
      rfl

theorem unrolled_index_room (settled : ActiveSettled dir segment batches) {nowMs : Int}
    (stays : segment.shouldRoll nowMs = false) : segment.index.isFull = false := by
  unfold ActiveSegment.shouldRoll at stays
  split at stays
  · next empty =>
    have ends : endOffset segment.baseOffset batches = segment.baseOffset := by
      rw [← settled.ends]
      simpa [SegmentBase.isEmpty] using empty
    cases batches with
    | nil => exact (settled_fresh settled 0).1
    | cons first rest =>
        obtain ⟨starts, spans, later⟩ := settled.consecutive
        have above := start_le_end later.ascending
        rw [end_offset_cons] at ends
        omega
  split at stays
  · cases stays
  split at stays
  · cases stays
  · next room => simpa using room

theorem settled_same_index (first : ActiveSettled dir segment batches) (second : ActiveSettled dir after batches)
    (base : after.baseOffset = segment.baseOffset) (policy : after.policy = segment.policy) :
    after.indexState = segment.indexState := by
  obtain ⟨fresh, created, all⟩ := first.plain
  obtain ⟨other, createdAgain, allAgain⟩ := second.plain
  rw [base, policy, created] at createdAgain
  cases createdAgain
  rw [policy, all] at allAgain
  exact (Except.ok.inj allAgain).symm

theorem settled_append_step (first : ActiveSettled dir segment batches)
    (second : ActiveSettled dir after (batches ++ [batch])) (base : after.baseOffset = segment.baseOffset)
    (policy : after.policy = segment.policy) :
    ∃ stepped, indexStep segment.policy segment.indexState (baseOf batch) batches.flatten.length = .ok stepped ∧
      after.indexState = ⟨stepped.index, stepped.since + batch.length⟩ := by
  obtain ⟨fresh, created, all⟩ := first.plain
  obtain ⟨other, createdAgain, allAgain⟩ := second.plain
  rw [base, policy, created] at createdAgain
  cases createdAgain
  rw [policy, index_all_concat, all] at allAgain
  simp only [except_ok_bind, Nat.zero_add] at allAgain
  obtain ⟨stepped, step, made⟩ := except_bind_ok allAgain
  exact ⟨stepped, step, (Except.ok.inj made).symm⟩

theorem append_active_dense (before : ActiveSettled dir segment batches)
    (later : ActiveSettled dir after (batches ++ [batch])) (base : after.baseOffset = segment.baseOffset)
    (policy : after.policy = segment.policy) (dense : ActiveDense limit segment batches)
    (room : segment.index.isFull = false) (short : batch.length ≤ limit) :
    ActiveDense limit after (batches ++ [batch]) := by
  obtain ⟨stepped, step, grown⟩ := settled_append_step before later base policy
  have index : after.index = stepped.index := congrArg IndexState.index grown
  have since : after.bytesSinceIndexEntry = stepped.since + batch.length := congrArg IndexState.since grown
  obtain ⟨entries, counted⟩ := @dense_step segment.policy limit segment.indexState stepped batches batch
    dense.dense dense.since room short step
  exact ⟨by rw [policy, index]; exact entries, by rw [index, since]; exact counted⟩

end Active

structure DenseLog (limit : Nat) (log : Log) : Prop extends LogSettled log where
  sealedDense : ∀ segment ∈ log.sealedMap,
    DenseEntries log.config.roll.indexIntervalBytes limit (batchesIn segment) segment.index.entries
  activeDense : ActiveDense limit log.active (batchesIn log.active.toSegmentBase)

theorem same_flat_batches {reopened segments : List SealedSegment}
    (same : List.Forall₂ SameSegment reopened segments) :
    reopened.flatMap batchesIn = segments.flatMap batchesIn := by
  induction same with
  | nil => rfl
  | cons first _ ih => simp only [List.flatMap_cons, same_batches_in first, ih]

section Steps

variable {limit : Nat} {log next : Log}

theorem rolled_index_room (settled : LogSettled log) {rollMs : Int}
    (moved : log.maybeRoll rollMs = .returned () next) : next.active.index.isFull = false := by
  obtain ⟨undangling, quiet⟩ := settled_clear settled rollMs
  rcases maybe_roll_cases settled.toLogHolds undangling quiet with ⟨stays, same⟩ | ⟨_, segment, active, rolled, made⟩
  · rw [moved] at same
    cases same
    exact unrolled_index_room settled.settled stays
  · rw [moved] at made
    cases made
    exact (settled_fresh rolled.fresh 0).1

theorem dense_roll (dense : DenseLog limit log) {nowMs : Int} (moved : log.maybeRoll nowMs = .returned () next) :
    DenseLog limit next := by
  obtain ⟨undangling, quiet⟩ := settled_clear dense.toLogSettled nowMs
  rcases maybe_roll_cases dense.toLogHolds undangling quiet with ⟨_, same⟩ | ⟨rolls, segment, active, rolled, made⟩
  · rw [moved] at same
    cases same
    exact dense
  · rw [moved] at made
    cases made
    have settled := rolled_settled dense.toLogHolds rolled (should_roll_occupied rolls) (log.nextFd + 2)
    obtain ⟨sealedBatches, activeBatches⟩ := rolled_batches rolled
    refine ⟨settled, ?_, ?_⟩
    · intro other member
      rcases List.mem_append.mp member with earlier | new
      · exact dense.sealedDense other earlier
      · simp only [List.mem_singleton] at new
        subst new
        rw [sealedBatches, rolled.entries, ← dense.policy]
        exact dense.activeDense.dense
    · simp only [activeBatches]
      exact (settled_fresh rolled.fresh limit).2

/-- The batches that an action appends are no longer than this. -/
def LogAction.AtMost (limit : Nat) : LogAction → Prop
  | .append batchBytes _ _ _ => batchBytes.length ≤ limit
  | _ => True

instance (limit : Nat) (action : LogAction) : Decidable (action.AtMost limit) :=
  match action with
  | .append batchBytes _ _ _ => inferInstanceAs (Decidable (batchBytes.length ≤ limit))
  | .maybeRoll _ | .applyRetention _ | .sweepGraveyard _ | .clean _ _ _ | .reopen _ _ =>
      inferInstanceAs (Decidable True)

theorem dense_log_step {action : LogAction} (dense : DenseLog limit log)
    (plain : action.Plain) (short : action.AtMost limit) (taken : Log.step action log = some next) :
    DenseLog limit next ∧ next.config.roll = log.config.roll := by
  obtain ⟨settled, _, _⟩ := settled_step dense.toLogSettled plain taken
  cases action with
  | append batchBytes rollMs clockMs fault =>
      obtain ⟨intact, faultless⟩ := plain
      obtain ⟨undangling, quiet⟩ := settled_clear dense.toLogSettled rollMs
      obtain ⟨rolled, moved, ends⟩ := append_spec dense.toLogHolds intact clockMs fault undangling quiet
      obtain ⟨_, again, _, same, _⟩ := maybe_roll_spec dense.toLogHolds undangling quiet
      rw [moved] at again
      cases again
      have rolledDense := dense_roll dense moved
      rcases ends with ⟨active, appended, _, _, holds, activeSettled, base, policy, _⟩ |
        ⟨failure, active, failed, _, unchanged, _⟩
      · simp only [Log.step, appended, Outcome.log, Option.some.injEq] at taken
        subst taken
        refine ⟨⟨settled, rolledDense.sealedDense, ?_⟩, by rw [← same.config]⟩
        simp only [batches_in_active holds]
        refine append_active_dense rolledDense.settled (activeSettled dense.toLogSettled) base policy
          rolledDense.activeDense (rolled_index_room dense.toLogSettled moved) ?_
        rw [stamped_length _ _ intact.long]
        exact short
      · simp only [Log.step, failed, Outcome.log, Option.some.injEq] at taken
        subst taken
        rw [unchanged faultless]
        exact ⟨rolledDense, by rw [← same.config]⟩
  | maybeRoll nowMs =>
      obtain ⟨undangling, quiet⟩ := settled_clear dense.toLogSettled nowMs
      obtain ⟨rolled, moved, _, same, _⟩ := maybe_roll_spec dense.toLogHolds undangling quiet
      simp only [Log.step, moved, Outcome.log, Option.some.injEq] at taken
      subst taken
      exact ⟨dense_roll dense moved, by rw [same.config]⟩
  | applyRetention nowMs =>
      obtain ⟨count, graveyard, buried⟩ := retention_buries log nowMs
      simp only [Log.step, Option.some.injEq] at taken
      subst taken
      rw [buried] at settled ⊢
      exact ⟨⟨settled, fun segment member => dense.sealedDense segment (List.mem_of_mem_drop member),
        dense.activeDense⟩, rfl⟩
  | sweepGraveyard nowMs =>
      simp only [Log.step, Option.some.injEq] at taken
      subst taken
      exact ⟨⟨settled, dense.sealedDense, dense.activeDense⟩, rfl⟩
  | clean maxKeyMapEntries firstDirtyOffset nowMs => exact plain.elim
  | reopen fallback clockMs =>
      obtain ⟨reopened, opened, reopenedSettled, batches, _, _, dir, _, config, base, same⟩ :=
        open_spec dense.toLogHolds dense.toLogSettled.endsClean fallback clockMs
      simp only [Log.step, opened] at taken
      cases checked : checkContiguity log.dir log.config.reloaded log.active.baseOffset reopened.sealedMap with
      | error failure => simp [checked] at taken
      | ok done =>
          simp only [checked, except_ok_bind, Option.some.injEq] at taken
          subst taken
          have roll : reopened.config.roll = log.config.roll := by rw [config]; rfl
          have actives : batchesIn reopened.active.toSegmentBase = batchesIn log.active.toSegmentBase := by
            simp only [Log.batches, same_flat_batches same] at batches
            exact List.append_cancel_left batches
          have policy : reopened.active.policy = log.active.policy := by
            rw [reopenedSettled.policy, dense.policy, roll]
          have again := reopenedSettled.settled
          rw [actives, dir] at again
          have index := settled_same_index dense.settled again base policy
          have sameIndex : reopened.active.index = log.active.index := congrArg IndexState.index index
          have sameSince : reopened.active.bytesSinceIndexEntry = log.active.bytesSinceIndexEntry :=
            congrArg IndexState.since index
          refine ⟨⟨settled, ?_, ?_, ?_⟩, roll⟩
          · intro segment member
            obtain ⟨original, inLog, both⟩ := same_member same member
            rw [roll, same_batches_in both, both.entries]
            exact dense.sealedDense original inLog
          · rw [actives, policy, sameIndex]
            exact dense.activeDense.dense
          · rw [actives, sameIndex, sameSince]
            exact dense.activeDense.since

end Steps

/-- The bounds the source's comments promise, for a log with batches of at most this size. -/
structure LooksClose (interval limit : Nat) (log : Log) : Prop where
  -- what the roll of an append leaves takes the entry that is due, if one is
  undropped : ∀ rollMs rolled, log.maybeRoll rollMs = .returned () rolled → rolled.active.index.isFull = false
  near : ∀ segment ∈ log.sealedMap ++ [log.active.toSegmentBase], ∀ before batch after,
    batchesIn segment = before ++ batch :: after → ∀ offset, baseOf batch ≤ offset → offset ≤ lastOf batch →
      ∃ entry, segment.index.lookup offset = .ok entry ∧ entry.position ≤ before.flatten.length ∧
        before.flatten.length - entry.position ≤ interval + limit
  walks : ∀ segment ∈ log.sealedMap ++ [log.active.toSegmentBase], ∀ fd path, ∃ walked,
    (SegmentBase.opening fd path segment.baseOffset segment.log.bytes segment.index).walkedBytes =
      .ok walked ∧ walked ≤ interval + limit

theorem DenseLog.looksClose {limit : Nat} {log : Log} (dense : DenseLog limit log) :
    LooksClose log.config.roll.indexIntervalBytes limit log where
  undropped := fun _ _ moved => rolled_index_room dense.toLogSettled moved
  near := by
    intro segment member before batch after split offset lower upper
    have holds : SegmentHolds segment (batchesIn segment) ∧
        DenseEntries log.config.roll.indexIntervalBytes limit (batchesIn segment) segment.index.entries := by
      rcases List.mem_append.mp member with inMap | isActive
      · exact ⟨(dense.sealedHolds segment inMap).toSegmentHolds, dense.sealedDense segment inMap⟩
      · rw [List.mem_singleton.mp isActive]
        exact ⟨dense.activeHolds.segmentHolds, dense.policy ▸ dense.activeDense.dense⟩
    obtain ⟨entry, found, ahead, close⟩ := lookup_near holds.1 holds.2 split lower upper
    exact ⟨entry, found, ahead, by omega⟩
  walks := by
    intro segment member fd path
    rcases List.mem_append.mp member with inMap | isActive
    · have holds := dense.sealedHolds segment inMap
      exact walked_near (holds.reopen fd path) holds.based holds.named (dense.sealedDense segment inMap)
    · rw [List.mem_singleton.mp isActive]
      have settled := dense.settled
      obtain ⟨based, named⟩ := built_index_names settled.plain settled.consecutive.ascending
      exact walked_near (holds_contents settled.intact settled.whole fd path) based named
        (dense.policy ▸ dense.activeDense.dense)

/-- In a log that is appended to, rolled and reopened, no index entry is dropped,
every lookup lands close to its target and every seal walks a short way. -/
theorem lookups_stay_close {tp : TopicPartition} {dir : String} {config : LogConfig} {created log : Log}
    {limit : Nat} (named : StorableName tp) (storable : config.Storable)
    (made : Log.create tp dir config = .ok created)
    (reached : GuardedRun.Reaches Log.step (fun _ action => action.Plain ∧ action.AtMost limit) created log) :
    LooksClose config.roll.indexIntervalBytes limit log := by
  obtain ⟨settled, batches, none, _, _, isConfig, _⟩ := create_spec named storable made
  have fresh : batchesIn created.active.toSegmentBase = [] := by
    simpa [Log.batches, none] using batches
  have active := settled.settled
  rw [fresh] at active
  have start : DenseLog limit created ∧ created.config.roll = config.roll :=
    ⟨⟨settled, by simp [none], fresh ▸ (settled_fresh active limit).2⟩, by rw [isConfig]⟩
  obtain ⟨dense, roll⟩ := reached.invariant _ _
    (fun log => DenseLog limit log ∧ log.config.roll = config.roll) start (by
      intro state action next holds allowed taken
      obtain ⟨dense, roll⟩ := dense_log_step holds.1 allowed.1 allowed.2 taken
      exact ⟨dense, roll.trans holds.2⟩)
  exact roll ▸ dense.looksClose

/-- Three batches of 69 bytes, the third in a second segment, and a restart. -/
theorem lookups_stay_close_reopened :
    ∃ created final, Log.create ⟨[116], 0⟩ "t-0" twoBatchConfig = .ok created ∧
      final.sealedMap.length = 1 ∧ final.logEndOffset = 3 ∧ LooksClose 1 69 final := by
  obtain ⟨created, final, made, reached, checked⟩ := found_from_creation Log.step
    (fun _ action => action.Plain ∧ action.AtMost 69) id ⟨[116], 0⟩ "t-0" twoBatchConfig
    (fun log => decide (log.sealedMap.length = 1 ∧ log.logEndOffset = 3))
    (List.replicate 3 (.append (recordBatchOf 10 none (some [118])) 0 0 none) ++ [.reopen {} 0])
    (by decide +kernel)
  obtain ⟨segments, ends⟩ := of_decide_eq_true checked
  exact ⟨created, final, made, segments, ends,
    lookups_stay_close ⟨by decide, by decide, by decide, by decide⟩ storable_two_batch_config made reached⟩

end DariyaKyu.Storage

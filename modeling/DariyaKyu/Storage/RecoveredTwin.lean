import DariyaKyu.Storage.Recovery
import DariyaKyu.Storage.SegmentReads

/-!
Recovery against the segment that was never closed. The index rule is kept by
two loops, the appends and the recovery scan; over the same batches they end in
the same index, the same end state and the same count of bytes since the last
entry. What is left to tell the two segments apart is a descriptor and the time
of the first append, and no append or read looks at the first.
-/

namespace DariyaKyu.Storage

set_option autoImplicit false

open FrameWalk

/-- One call of `ActiveSegment::append`. -/
structure Attempt where
  baseOffset : Int
  batchBytes : Bytes
  clockMs : Int
  fault : Option WriteFault

namespace ActiveSegment

def appendAll : ActiveSegment → List (Bytes × Int) → Except Error ActiveSegment
  | segment, [] => .ok segment
  | segment, (batchBytes, clockMs) :: rest =>
      match segment.append segment.nextOffset batchBytes clockMs none with
      | (_, .error failure) => .error failure
      | (after, .ok _) => appendAll after rest

def attemptAll : ActiveSegment → List Attempt → ActiveSegment × List (Except Error Unit)
  | segment, [] => (segment, [])
  | segment, attempt :: rest =>
      let (after, result) :=
        segment.append attempt.baseOffset attempt.batchBytes attempt.clockMs attempt.fault
      let (final, results) := attemptAll after rest
      (final, result :: results)

/-- The same segment behind another descriptor, its first append at another time. -/
def reopenedAs (segment : ActiveSegment) (fd firstAppendMs : Int) : ActiveSegment :=
  { segment with log := { segment.log with fd := fd }, firstAppendMs := firstAppendMs }

/-- The two triggers of `shouldRoll` that do not read the clock. -/
def rollsByContents (segment : ActiveSegment) : Bool :=
  !segment.isEmpty && (decide (segment.policy.maxSegmentBytes ≤ segment.sizeBytes) || segment.index.isFull)

end ActiveSegment

variable {segment live : ActiveSegment} {dir : String} {batches : List Bytes}

/-- An append that succeeds was made with a batch that begins where the segment ends. -/
theorem append_starts {after : ActiveSegment} {baseOffset : Int} {batch : Bytes} {clockMs : Int}
    {fault : Option WriteFault} (parsed : parseHeader batch = .ok (headerOf batch))
    (appended : segment.append baseOffset batch clockMs fault = (after, .ok ())) :
    baseOf batch = baseOffset ∧ baseOffset = segment.nextOffset := by
  unfold ActiveSegment.append at appended
  simp only [parsed] at appended
  split at appended
  · cases appended
  next stamp =>
  split at appended
  · cases appended
  next joins => exact ⟨not_not.mp stamp, not_not.mp joins⟩

theorem append_keeps_path (baseOffset : Int) (batch : Bytes) (clockMs : Int) (fault : Option WriteFault) :
    (segment.append baseOffset batch clockMs fault).1.log.path = segment.log.path := by
  have named : ∀ handle : FileHandle, (handle.append batch fault).1.path = handle.path := by
    intro handle
    cases fault <;> rfl
  unfold ActiveSegment.append
  split
  · rfl
  split
  · rfl
  split
  · rfl
  split
  · rfl
  next indexed step =>
  obtain ⟨state, _, rfl⟩ := maybe_add_index_entry_ok.mp step
  split
  · next log failure wrote =>
    have path := named segment.log
    rw [wrote] at path
    exact path
  · next log position wrote =>
    have path := named segment.log
    rw [wrote] at path
    exact path

theorem create_active_path {fd base : Int} {policy : RollPolicy}
    (made : ActiveSegment.create fd dir base policy false = .ok segment) :
    segment.log.path = segmentLogPath dir base := by
  simp only [ActiveSegment.create, Bool.false_eq_true, if_false] at made
  obtain ⟨index, _, made⟩ := except_bind_ok made
  cases made
  rfl

theorem append_all_settled {appends : List (Bytes × Int)} (holds : ActiveSettled dir segment batches)
    (intact : ∀ batch ∈ appends.map (·.1), IntactBatch batch)
    (ran : segment.appendAll appends = .ok live) :
    ActiveSettled dir live (batches ++ appends.map (·.1)) ∧ live.baseOffset = segment.baseOffset ∧
      live.policy = segment.policy ∧ live.log.path = segment.log.path := by
  induction appends generalizing segment batches with
  | nil =>
      cases ran
      exact ⟨by simpa using holds, rfl, rfl, rfl⟩
  | cons first rest ih =>
      obtain ⟨batch, clockMs⟩ := first
      simp only [List.map_cons, List.forall_mem_cons] at intact
      simp only [ActiveSegment.appendAll] at ran
      split at ran
      · cases ran
      next after _ appended =>
      have starts := (append_starts intact.1.parsed appended).1
      have settled := append_settled_ok holds intact.1 starts appended
      obtain ⟨_, _, _, _, _, base, policy, _⟩ :=
        append_active_ok holds.toActiveHolds intact.1 starts appended
      have path := @append_keeps_path segment segment.nextOffset batch clockMs none
      rw [appended] at path
      obtain ⟨final, finalBase, finalPolicy, finalPath⟩ := ih settled intact.2 ran
      exact ⟨by simpa using final, finalBase.trans base, finalPolicy.trans policy, finalPath.trans path⟩

theorem longest_whole {base : Int} (intact : ∀ batch ∈ batches, IntactBatch batch)
    (consecutive : Consecutive base batches) :
    LongestRecoverable none base batches.flatten batches := by
  induction batches generalizing base with
  | nil =>
      apply longest_nil
      intro batch more split complete
      have positive := complete.positive
      have size := congrArg List.length split
      simp only [List.flatten_nil, List.length_nil, List.length_append] at size
      omega
  | cons batch batches ih =>
      obtain ⟨isFirst, isRest⟩ := List.forall_mem_cons.mp intact
      obtain ⟨starts, _, later⟩ := consecutive
      exact longest_cons isFirst.complete starts rfl (ih isRest later)

theorem recover_settled (holds : ActiveSettled dir live batches)
    (named : live.log.path = segmentLogPath dir live.baseOffset) (fd clockMs : Int) :
    ∃ firstAppendMs, ActiveSegment.recover fd dir live.baseOffset live.log.bytes live.policy none clockMs =
      .ok (live.reopenedAs fd firstAppendMs) := by
  obtain ⟨fresh, created, all⟩ := holds.plain
  obtain ⟨kept, longest, recovered⟩ :=
    recover_any fd dir live.baseOffset live.log.bytes live.policy none clockMs created
  rw [holds.whole] at longest
  have same : kept = batches := longest_unique longest (longest_whole holds.intact holds.consecutive)
  subst same
  have log : FileHandle.ofContents fd (segmentLogPath dir live.baseOffset) kept.flatten =
      { live.log with fd := fd } := by
    have tight : live.log.writePosition = kept.flatten.length := holds.tight
    simp only [FileHandle.ofContents, ← named, ← holds.whole, FileHandle.mk.injEq, true_and]
    rw [holds.whole, tight]
  refine ⟨if 0 < kept.flatten.length then clockMs else -1, ?_⟩
  rw [recovered, all, log]
  simp only [Except.map, ActiveSegment.reopenedAs, ActiveSegment.indexState, ← holds.ends, ← holds.largest]

theorem append_reopened (fd firstAppendMs baseOffset : Int) (batchBytes : Bytes) (clockMs : Int)
    (fault : Option WriteFault) :
    ∃ later, (segment.reopenedAs fd firstAppendMs).append baseOffset batchBytes clockMs fault =
      ((segment.append baseOffset batchBytes clockMs fault).1.reopenedAs fd later,
        (segment.append baseOffset batchBytes clockMs fault).2) := by
  have next : (segment.reopenedAs fd firstAppendMs).nextOffset = segment.nextOffset := rfl
  have size : (segment.reopenedAs fd firstAppendMs).log.size = segment.log.size := rfl
  have index : ∀ position, (segment.reopenedAs fd firstAppendMs).maybeAddIndexEntry baseOffset position =
      (segment.maybeAddIndexEntry baseOffset position).map (·.reopenedAs fd firstAppendMs) := by
    intro position
    rw [maybe_add_index_entry_eq, maybe_add_index_entry_eq]
    have same : indexStep (segment.reopenedAs fd firstAppendMs).policy
        (segment.reopenedAs fd firstAppendMs).indexState baseOffset position =
        indexStep segment.policy segment.indexState baseOffset position := rfl
    rw [same]
    cases indexStep segment.policy segment.indexState baseOffset position <;> rfl
  unfold ActiveSegment.append
  rw [next, size]
  cases parseHeader batchBytes with
  | error failure => exact ⟨firstAppendMs, rfl⟩
  | ok header =>
      simp only
      split
      · exact ⟨firstAppendMs, rfl⟩
      split
      · exact ⟨firstAppendMs, rfl⟩
      rw [index]
      cases segment.maybeAddIndexEntry baseOffset segment.log.size with
      | error failure => exact ⟨firstAppendMs, rfl⟩
      | ok indexed =>
          cases fault with
          | none => exact ⟨if firstAppendMs < 0 then clockMs else firstAppendMs, rfl⟩
          | some fault => exact ⟨firstAppendMs, rfl⟩

theorem attempts_reopened (fd firstAppendMs : Int) (attempts : List Attempt) :
    ∃ later, (segment.reopenedAs fd firstAppendMs).attemptAll attempts =
      ((segment.attemptAll attempts).1.reopenedAs fd later, (segment.attemptAll attempts).2) := by
  induction attempts generalizing segment firstAppendMs with
  | nil => exact ⟨firstAppendMs, rfl⟩
  | cons attempt attempts ih =>
      obtain ⟨once, same⟩ := @append_reopened segment fd firstAppendMs attempt.baseOffset
        attempt.batchBytes attempt.clockMs attempt.fault
      obtain ⟨later, rest⟩ := @ih (segment.append attempt.baseOffset attempt.batchBytes attempt.clockMs
        attempt.fault).1 once
      refine ⟨later, ?_⟩
      simp only [ActiveSegment.attemptAll, same, rest]

theorem read_reopened (fd firstAppendMs offset : Int) (maxBytes : Nat) :
    (segment.reopenedAs fd firstAppendMs).read offset maxBytes =
      (segment.read offset maxBytes).map fun range => { range with fd := fd } := by
  by_cases inside : offset < segment.baseOffset
  · have reopened : offset < (segment.reopenedAs fd firstAppendMs).baseOffset := inside
    rw [SegmentBase.read, SegmentBase.read, if_pos inside, if_pos reopened]
    rfl
  have starts : segment.baseOffset ≤ offset := by omega
  have reopenedStarts : (segment.reopenedAs fd firstAppendMs).baseOffset ≤ offset := starts
  cases found : segment.index.lookup offset with
  | error failure =>
      have reopened : (segment.reopenedAs fd firstAppendMs).index.lookup offset = .error failure := found
      have route : ¬ offset < (segment.reopenedAs fd firstAppendMs).baseOffset := inside
      rw [SegmentBase.read, SegmentBase.read, if_neg inside, if_neg route, found, reopened]
      rfl
  | ok entry =>
      have reopened : (segment.reopenedAs fd firstAppendMs).index.lookup offset = .ok entry := found
      have peeks : batchAt (segment.reopenedAs fd firstAppendMs).log
          (segment.reopenedAs fd firstAppendMs).log.size = batchAt segment.log segment.log.size := by
        funext position
        exact batch_at_congr rfl _ _
      have size : (segment.reopenedAs fd firstAppendMs).log.size = segment.log.size := rfl
      rw [read_scans starts found, read_scans reopenedStarts reopened, scan_from_seek, scan_from_seek,
        peeks, size]
      cases seek (batchAt segment.log segment.log.size) BatchAt.totalSize (reaching offset)
          (segment.log.size + 1) entry.position with
      | error failure => rfl
      | ok place => cases place <;> rfl

/-- The two segments are the same to whoever appends or reads: index, end state,
bytes since the last entry, and the triggers that do not depend on the clock. -/
structure Twins (first second : ActiveSegment) : Prop where
  entries : first.index.entries = second.index.entries
  next : first.nextOffset = second.nextOffset
  largest : first.largestTimestamp = second.largestTimestamp
  since : first.bytesSinceIndexEntry = second.bytesSinceIndexEntry
  rolls : first.rollsByContents = second.rollsByContents
  reads : ∀ offset maxBytes,
    (first.read offset maxBytes).map (fun range => (range.position, range.length)) =
      (second.read offset maxBytes).map fun range => (range.position, range.length)

theorem twins_reopened (fd firstAppendMs : Int) : Twins segment (segment.reopenedAs fd firstAppendMs) where
  entries := rfl
  next := rfl
  largest := rfl
  since := rfl
  rolls := rfl
  reads := by
    intro offset maxBytes
    rw [read_reopened]
    cases segment.read offset maxBytes <;> rfl

/-- A segment appended to from its creation on and the segment that recovery
makes of its file are twins, and stay twins through every later call. -/
theorem recovery_gives_twin {fd base : Int} {policy : RollPolicy} {fresh : ActiveSegment}
    {appends : List (Bytes × Int)} (made : ActiveSegment.create fd dir base policy false = .ok fresh)
    (intact : ∀ batch ∈ appends.map (·.1), IntactBatch batch)
    (ran : fresh.appendAll appends = .ok live) (newFd clockMs : Int) :
    ∃ recovered, ActiveSegment.recover newFd dir base live.log.bytes policy none clockMs = .ok recovered ∧
      Twins live recovered ∧
      ∀ attempts, (live.attemptAll attempts).2 = (recovered.attemptAll attempts).2 ∧
        Twins (live.attemptAll attempts).1 (recovered.attemptAll attempts).1 := by
  obtain ⟨empty, isBase, _, isPolicy, _⟩ := create_active_spec made
  obtain ⟨settled, liveBase, livePolicy, livePath⟩ := append_all_settled empty intact ran
  have named : live.log.path = segmentLogPath dir live.baseOffset := by
    rw [livePath, create_active_path made, liveBase, isBase]
  obtain ⟨firstAppendMs, recovered⟩ := recover_settled settled named newFd clockMs
  rw [liveBase, isBase, livePolicy, isPolicy] at recovered
  refine ⟨_, recovered, twins_reopened newFd firstAppendMs, ?_⟩
  intro attempts
  obtain ⟨later, same⟩ := @attempts_reopened live newFd firstAppendMs attempts
  rw [same]
  exact ⟨rfl, twins_reopened newFd later⟩

theorem two_batches_intact : ∀ batch ∈ [(firstOfTwo, (5 : Int)), (secondOfTwo, 6)].map (·.1),
    IntactBatch batch := by
  intro batch member
  simp only [List.map_cons, List.map_nil, List.mem_cons, List.not_mem_nil, or_false] at member
  rcases member with rfl | rfl
  · exact ⟨by decide +kernel, by decide +kernel, by decide +kernel⟩
  · exact ⟨by decide +kernel, by decide +kernel, by decide +kernel⟩

/-- Two batches, the second of them with an index entry. -/
theorem recovery_gives_twin_two_batches :
    ∃ fresh live recovered, ActiveSegment.create 3 "t-0" 0 everyBatchPolicy false = .ok fresh ∧
      fresh.appendAll [(firstOfTwo, 5), (secondOfTwo, 6)] = .ok live ∧ live.index.entries.length = 1 ∧
      ActiveSegment.recover 4 "t-0" 0 live.log.bytes everyBatchPolicy none 7 = .ok recovered ∧
      Twins live recovered := by
  have found : ((ActiveSegment.create 3 "t-0" 0 everyBatchPolicy false >>= fun fresh =>
      fresh.appendAll [(firstOfTwo, 5), (secondOfTwo, 6)]).toOption.map
        (·.index.entries.length)) = some 1 := by decide +kernel
  obtain ⟨live, isLive, entries⟩ := Option.map_eq_some_iff.mp found
  obtain ⟨fresh, made, ran⟩ := except_bind_ok (ok_of_to_option isLive)
  obtain ⟨recovered, isRecovered, twins, _⟩ := recovery_gives_twin made two_batches_intact ran 4 7
  exact ⟨fresh, live, recovered, made, ran, entries, isRecovered, twins⟩

end DariyaKyu.Storage

import DariyaKyu.Storage.IndexFile
import DariyaKyu.Storage.RecoveredTwin

/-!
The active segment against the sealed one. The first keeps its end state as it
is appended to, the second finds it again from the last index entry; the index
file it is opened with may be cut to its entries or still have its zero tail.
-/

namespace DariyaKyu.Storage

set_option autoImplicit false

theorem index_all_fits {policy : RollPolicy} {state built : IndexState} {position : Nat}
    {batches : List Bytes} (fits : ∀ entry ∈ state.index.entries, entry.position ≤ kMaxUint32)
    (all : indexAll policy state position batches = .ok built) :
    built.index.path = state.index.path ∧ built.index.baseOffset = state.index.baseOffset ∧
      ∀ entry ∈ built.index.entries, entry.position ≤ kMaxUint32 := by
  induction batches generalizing state position with
  | nil =>
      cases all
      exact ⟨rfl, rfl, fits⟩
  | cons batch batches ih =>
      obtain ⟨stepped, step, rest⟩ := except_bind_ok all
      have kept : stepped.index.path = state.index.path ∧
          stepped.index.baseOffset = state.index.baseOffset ∧
          ∀ entry ∈ stepped.index.entries, entry.position ≤ kMaxUint32 := by
        unfold indexStep at step
        split at step
        · cases step
          exact ⟨rfl, rfl, fits⟩
        split at step
        · cases step
          exact ⟨rfl, rfl, fits⟩
        split at step
        · cases step
        next reach =>
        obtain ⟨index, appended, made⟩ := except_bind_ok step
        cases made
        rcases OffsetIndex.append_ok appended with ⟨rfl, _⟩ | ⟨entries, path, base, _⟩
        · exact ⟨rfl, rfl, fits⟩
        · refine ⟨path, base, ?_⟩
          intro entry member
          rw [entries] at member
          rcases List.mem_append.mp member with old | new
          · exact fits entry old
          · simp only [List.mem_singleton] at new
            subst new
            exact Nat.le_of_not_lt reach
      obtain ⟨path, base, bound⟩ := @ih ⟨stepped.index, stepped.since + batch.length⟩ _ kept.2.2 rest
      exact ⟨path.trans kept.1, base.trans kept.2.1, bound⟩

/-- A segment seen from outside: its bounds, what its index answers, and where
its reads lead. -/
structure SameView (active : ActiveSegment) (segment : SealedSegment) : Prop where
  base : segment.baseOffset = active.baseOffset
  next : segment.nextOffset = active.nextOffset
  size : segment.sizeBytes = active.sizeBytes
  empty : segment.isEmpty = active.isEmpty
  lookups : ∀ offset, active.baseOffset ≤ offset →
    ∃ entry, active.index.lookup offset = .ok entry ∧ segment.index.lookup offset = .ok entry
  reads : ∀ offset maxBytes, active.baseOffset ≤ offset → ∃ range other : FileRange,
    active.read offset maxBytes = .ok range ∧ segment.read offset maxBytes = .ok other ∧
      other.position = range.position ∧ other.length = range.length

theorem lookup_same_entries {first second : OffsetIndex} (entries : first.entries = second.entries)
    (base : first.baseOffset = second.baseOffset) {offset : Int} (inside : second.baseOffset ≤ offset) :
    first.lookup offset = second.lookup offset := by
  have otherRoute : ¬ offset < second.baseOffset := by omega
  have same : first.entryAt = second.entryAt := by
    funext at_
    rw [OffsetIndex.entryAt, OffsetIndex.entryAt, entries]
  simp only [OffsetIndex.lookup, otherRoute, if_false, entries, base, same]

theorem sealed_same_view {dir : String} {active : ActiveSegment} {batches : List Bytes}
    (holds : ActiveSettled dir active batches) (fd : Int) (path : String) :
    ∃ segment, SealedSegment.open fd path active.baseOffset active.log.bytes (some active.index.openSealed) =
        .ok segment ∧ SameView active segment := by
  obtain ⟨based, named⟩ := built_index_names holds.plain holds.consecutive.ascending
  have contents := holds_contents holds.intact holds.whole fd path
  obtain ⟨opened, sealedHolds⟩ := @open_sealed_spec fd path active.baseOffset active.log.bytes
    active.index.openSealed batches contents holds.consecutive.ascending based named
  refine ⟨_, opened, rfl, holds.ends.symm, ?_, ?_, ?_, ?_⟩
  · have size : active.log.size = active.log.bytes.length := by rw [holds.tight, holds.whole]
    exact size.symm
  · simp only [SegmentBase.isEmpty, sealedSegment, holds.ends]
  · intro offset inside
    obtain ⟨entry, found, _⟩ := active.index.lookup_spec offset (based.symm ▸ inside)
    exact ⟨entry, found, (lookup_same_entries rfl rfl (based.symm ▸ inside)).trans found⟩
  · intro offset maxBytes inside
    refine ⟨_, _, read_spec holds.toActiveHolds.segmentHolds inside maxBytes,
      read_spec sealedHolds.toSegmentHolds inside maxBytes, ?_⟩
    have size : (sealedSegment fd path active.baseOffset active.log.bytes active.index.openSealed
        batches).log.size = active.log.size := by
      change active.log.bytes.length = active.log.size
      rw [holds.tight, holds.whole]
    simp only [rangeFrom, size]
    split <;> exact ⟨rfl, rfl⟩

/-- For any sequence of appends: the segment that `seal` returns and the one
opened on the files of an unsealed segment look as the active segment did. -/
theorem sealed_views_agree {fd base : Int} {dir : String} {policy : RollPolicy}
    {fresh active : ActiveSegment} {appends : List (Bytes × Int)}
    (made : ActiveSegment.create fd dir base policy false = .ok fresh)
    (intact : ∀ batch ∈ appends.map (·.1), IntactBatch batch)
    (ran : fresh.appendAll appends = .ok active) (sealFd openFd : Int) :
    ∃ segment trimmed untrimmed reopened, active.sealSegment sealFd = .ok segment ∧
      OffsetIndex.openSealedFile (segmentIndexPath dir base) base active.index.trimmedBytes =
        some trimmed ∧
      SealedSegment.open sealFd (segmentLogPath dir base) base active.log.bytes (some trimmed) =
        .ok segment ∧
      OffsetIndex.openSealedFile (segmentIndexPath dir base) base active.index.mappedBytes =
        some untrimmed ∧
      SealedSegment.open openFd (segmentLogPath dir base) base active.log.bytes (some untrimmed) =
        .ok reopened ∧
      SameView active segment ∧ SameView active reopened := by
  obtain ⟨empty, isBase, _⟩ := create_active_spec made
  obtain ⟨settled, activeBase, _, path⟩ := append_all_settled empty intact ran
  have named : active.log.path = segmentLogPath dir base := path.trans (create_active_path made)
  rw [isBase] at activeBase
  obtain ⟨first, created, all⟩ := settled.plain
  have fits : first.entries = [] ∧ first.baseOffset = active.baseOffset ∧
      first.path = segmentIndexPath dir active.baseOffset := by
    unfold OffsetIndex.create at created
    split at created
    · cases created
    · cases created
      exact ⟨rfl, rfl, rfl⟩
  obtain ⟨indexPath, indexBase, positions⟩ := index_all_fits (by simp [fits.1]) all
  have isPath : active.index.path = segmentIndexPath dir base := by
    rw [← activeBase, ← fits.2.2]
    exact indexPath
  have isIndexBase : active.index.baseOffset = base := by
    rw [← activeBase, ← fits.2.1]
    exact indexBase
  have trimmed := open_trimmed active.index positions
  have untrimmed := open_mapped active.index positions
  rw [isPath, isIndexBase] at trimmed untrimmed
  obtain ⟨segment, opened, view⟩ := sealed_same_view settled sealFd (segmentLogPath dir base)
  obtain ⟨reopened, openedAgain, viewAgain⟩ := sealed_same_view settled openFd (segmentLogPath dir base)
  rw [activeBase] at opened openedAgain
  refine ⟨segment, active.index.openSealed, active.index.openSealed, reopened, ?_, trimmed, opened,
    untrimmed, openedAgain, view, viewAgain⟩
  rw [ActiveSegment.sealSegment, named, activeBase]
  exact opened

/-- Two batches, an index of one entry and room for a million more. -/
theorem sealed_views_agree_two_batches :
    ∃ active segment reopened untrimmed, active.index.entries.length = 1 ∧
      active.sealSegment 4 = .ok segment ∧
      OffsetIndex.openSealedFile (segmentIndexPath "t-0" 0) 0 active.index.mappedBytes = some untrimmed ∧
      SealedSegment.open 5 (segmentLogPath "t-0" 0) 0 active.log.bytes (some untrimmed) = .ok reopened ∧
      SameView active segment ∧ SameView active reopened := by
  have found : ((ActiveSegment.create 3 "t-0" 0 everyBatchPolicy false >>= fun fresh =>
      fresh.appendAll [(firstOfTwo, 5), (secondOfTwo, 6)]).toOption.map
        (·.index.entries.length)) = some 1 := by decide +kernel
  obtain ⟨active, isActive, entries⟩ := Option.map_eq_some_iff.mp found
  obtain ⟨fresh, made, ran⟩ := except_bind_ok (ok_of_to_option isActive)
  obtain ⟨segment, _, untrimmed, reopened, closed, _, _, mapped, opened, view, viewAgain⟩ :=
    sealed_views_agree made two_batches_intact ran 4 5
  exact ⟨active, segment, reopened, untrimmed, entries, closed, mapped, opened, view, viewAgain⟩

end DariyaKyu.Storage

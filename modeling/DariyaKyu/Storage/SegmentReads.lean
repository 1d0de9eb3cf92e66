import DariyaKyu.Storage.Landing

/-!
What a read finds, with and without the index. The read of the source is a
lookup and then a scan; the scan alone, from the front of the file, is what the
index has to agree with. Nothing is asked of the bytes behind the batches, so
this also covers a file in which a failed append has left its remains.
-/

namespace DariyaKyu.Storage

set_option autoImplicit false

open FrameWalk

theorem scan_skip {segment : SegmentBase} {before : List Bytes}
    (shaped : ∀ batch ∈ before, ShapedBatch batch) (front : before.flatten <+: segment.log.bytes)
    (within : before.flatten.length ≤ segment.log.size) {offset : Int}
    (below : ∀ batch ∈ before, lastOf batch < offset) (maxBytes : Nat) :
    segment.scanFrom before.flatten.length offset maxBytes = segment.scanFrom 0 offset maxBytes := by
  have laid := @laid_front_batches segment.log segment.log.size [] before shaped front within
  have skip := seek_skip (batchAt segment.log segment.log.size) BatchAt.totalSize (reaching offset)
    (batch_at_inside segment.log) (Nat.lt_succ_of_le (Nat.sub_le _ _)) laid (frames_unwanted below _)
  simp only [List.flatten_nil, List.length_nil, Nat.zero_add, total_width_frames] at skip
  rw [scan_from_seek, scan_from_seek, skip]

/-- The file begins with these batches, in rising order, and the index names
starts of batches or the place behind the last one. -/
structure IndexesBatches (segment : SegmentBase) (batches : List Bytes) : Prop where
  shaped : ∀ batch ∈ batches, ShapedBatch batch
  front : batches.flatten <+: segment.log.bytes
  within : batches.flatten.length ≤ segment.log.size
  ascending : Ascending segment.baseOffset batches
  based : segment.index.baseOffset = segment.baseOffset
  indexed : ∀ entry ∈ segment.index.entries,
    NamesBatch segment.baseOffset batches entry ∨ NamesEnd segment.baseOffset batches entry

theorem ActiveShape.indexesBatches {dir : String} {segment : ActiveSegment} {batches : List Bytes}
    (shape : ActiveShape dir segment batches) : IndexesBatches segment.toSegmentBase batches :=
  ⟨shape.shaped, shape.front, shape.tight.ge, shape.consecutive.ascending, shape.based, shape.indexed⟩

theorem IndexesBatches.reads {segment : SegmentBase} {batches : List Bytes}
    (indexes : IndexesBatches segment batches) {offset : Int} (inside : segment.baseOffset ≤ offset)
    (maxBytes : Nat) : segment.read offset maxBytes = segment.scanFrom 0 offset maxBytes := by
  obtain ⟨entry, before, after, found, split, starts, below⟩ :=
    entry_skips indexes.ascending indexes.based indexes.indexed inside
  have shaped := indexes.shaped
  have front := indexes.front
  have within := indexes.within
  rw [split] at shaped front within
  rw [List.flatten_append] at front
  simp only [List.flatten_append, List.length_append] at within
  rw [read_scans inside found, starts]
  exact scan_skip (fun batch member => shaped batch (List.mem_append_left _ member))
    ((List.prefix_append _ _).trans front) (by omega) below maxBytes

end DariyaKyu.Storage

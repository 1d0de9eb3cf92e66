import DariyaKyu.Storage.LogCleaner
import DariyaKyu.Storage.SegmentSteps

/-!
`scanSegment` as the reading of a segment that does not depend on its index or
on anything kept in memory. On a file that holds batches it returns exactly
those, so "the batches of a segment" is a function of the segment.
-/

namespace DariyaKyu.Storage

set_option autoImplicit false

open FrameWalk

def batchesIn (segment : SegmentBase) : List Bytes :=
  match scanSegment (segment.log.bytes.take segment.log.size) with
  | .error _ => []
  | .ok scanned => scanned.map (·.bytes)

def scannedAt : Nat → List Bytes → List ScannedBatch
  | _, [] => []
  | position, batch :: batches =>
      ⟨headerOf batch, batch, position⟩ :: scannedAt (position + batch.length) batches

@[simp] theorem scanned_at_bytes (position : Nat) (batches : List Bytes) :
    (scannedAt position batches).map (·.bytes) = batches := by
  induction batches generalizing position with
  | nil => rfl
  | cons batch batches ih => simp [scannedAt, ih]

theorem framed_at {contents before batch after : Bytes} (complete : totalSizeOf batch = .ok batch.length)
    (split : contents = before ++ (batch ++ after)) :
    ¬ contents.length < before.length + kBatchHeaderSize ∧
      totalSizeOf ((contents.drop before.length).take kBatchHeaderSize) = .ok batch.length ∧
      ¬ contents.length < before.length + batch.length ∧
      (contents.drop before.length).take batch.length = batch := by
  have long : kBatchHeaderSize ≤ batch.length := (total_size_of_ok complete).2.1
  have size : contents.length = before.length + batch.length + after.length := by
    rw [split]
    simp [Nat.add_assoc]
  have header : (contents.drop before.length).take kBatchHeaderSize = batch.take kBatchHeaderSize := by
    rw [split, List.drop_left' rfl, List.take_append_of_le_length long]
  refine ⟨by omega, ?_, by omega, ?_⟩
  · rw [header, total_size_of_take batch long, complete]
  · rw [split, List.drop_left' rfl, List.take_left' rfl]

theorem scan_at_checked {contents before batch : Bytes} (after : Bytes) (complete : CheckedBatch batch)
    (split : contents = before ++ (batch ++ after)) :
    scanAt contents before.length = .ok (some ⟨headerOf batch, batch, before.length⟩) := by
  obtain ⟨long, total, within, whole⟩ := framed_at complete.sized split
  unfold scanAt
  rw [if_neg long]
  simp only [total, whole, complete.parsed, complete.checked, except_ok_bind, if_true]
  rw [if_neg within]
  rfl

theorem scan_at_end {contents : Bytes} {position : Nat} (behind : contents.length ≤ position) :
    scanAt contents position = .ok none := by
  have positive : 0 < kBatchHeaderSize := by decide
  rw [scanAt, if_pos (by omega)]

theorem scan_at_quiet {log : FileHandle} {position : Nat}
    (quiet : batchAt log log.size position = .ok none) :
    scanAt (log.bytes.take log.size) position = .ok none := by
  have positive : 0 < kBatchHeaderSize := by decide
  have size : (log.bytes.take log.size).length = log.size := List.length_take_of_le log.within
  by_cases room : log.size < position + kBatchHeaderSize
  · rw [scanAt, size, if_pos room]
  have enough : position + kBatchHeaderSize ≤ log.bytes.length := by
    have within : log.size ≤ log.bytes.length := log.within
    omega
  have header : ((log.bytes.take log.size).drop position).take kBatchHeaderSize =
      log.readAt position kBatchHeaderSize := by
    rw [FileHandle.readAt, List.drop_take, List.take_take]
    congr 1
    omega
  have full : ¬ (log.readAt position kBatchHeaderSize).length < kBatchHeaderSize := by
    simp [FileHandle.readAt]
    omega
  unfold batchAt at quiet
  rw [if_neg (by omega), if_neg (by omega)] at quiet
  simp only [full, if_false] at quiet
  obtain ⟨parsed, _, quiet⟩ := except_bind_ok quiet
  obtain ⟨total, sized, quiet⟩ := except_bind_ok quiet
  rw [scanAt, size, if_neg room, header, sized]
  simp only
  split at quiet
  · next torn => rw [if_pos (by omega)]
  · cases quiet

theorem scan_laid_front {contents : Bytes} (before : List Bytes) {after : List Bytes}
    (complete : ∀ batch ∈ after, CheckedBatch batch) (front : (before ++ after).flatten <+: contents) :
    LaidFront (scanAt contents) (fun batch => batch.bytes.length) before.flatten.length
      (scannedAt before.flatten.length after) := by
  induction after generalizing before with
  | nil => trivial
  | cons batch after ih =>
      have shifted : before ++ batch :: after = (before ++ [batch]) ++ after := by simp
      have here : scanAt contents before.flatten.length =
          .ok (some ⟨headerOf batch, batch, before.flatten.length⟩) := by
        obtain ⟨rest, split⟩ := front
        refine scan_at_checked (after.flatten ++ rest) (complete batch (by simp)) ?_
        rw [← split]
        simp
      have later := ih (before ++ [batch])
        (fun other member => complete other (by simp [member])) (shifted ▸ front)
      refine ⟨here, ?_⟩
      simpa using later

theorem scan_width (position : Nat) (batches : List Bytes) :
    totalWidth (fun batch : ScannedBatch => batch.bytes.length) (scannedAt position batches) =
      batches.flatten.length := by
  have bytes := scanned_at_bytes position batches
  simp only [totalWidth, List.length_flatten]
  conv_rhs => rw [← bytes]
  rw [List.map_map]
  rfl

theorem scanned_at_length (position : Nat) (batches : List Bytes) :
    (scannedAt position batches).length = batches.length := by
  rw [← List.length_map (f := (·.bytes)), scanned_at_bytes]

theorem fold_visited {α : Type} (visited found : List α) :
    found.foldl (fun visited batch => visited ++ [batch]) visited = visited ++ found := by
  induction found generalizing visited with
  | nil => simp
  | cons first found ih => simp [ih]

theorem scan_segment_spec {contents : Bytes} {batches : List Bytes}
    (complete : ∀ batch ∈ batches, CheckedBatch batch) (front : batches.flatten <+: contents)
    (ends : scanAt contents batches.flatten.length = .ok none) :
    scanSegment contents = .ok (scannedAt 0 batches) := by
  have laid := scan_laid_front [] complete front
  have whole := laid_out_of_front _ _ laid
    (by simpa only [scan_width, List.flatten_nil, List.length_nil, Nat.zero_add] using ends)
  have enough : (scannedAt 0 batches).length < contents.length + 1 := by
    have := count_le_bytes fun batch member => (complete batch member).positive
    have := front.length_le
    rw [scanned_at_length]
    omega
  have walked := walk_laid_out _ _
    (fun (visited : List ScannedBatch) _ batch => .ok (.next (visited ++ [batch]))) [] whole enough
  simp only [List.flatten_nil, List.length_nil] at walked
  rw [scanSegment, walked, visit_all_fold _ _ _ _ _ (fun visited batch => visited ++ [batch]) (fun _ _ _ _ => rfl)]
  simp only [except_ok_bind, fold_visited, List.nil_append]
  rfl

theorem scan_held {log : FileHandle} {batches : List Bytes} (holds : HoldsBatches log batches) :
    scanSegment (log.bytes.take log.size) = .ok (scannedAt 0 batches) := by
  apply scan_segment_spec fun batch member => (holds.intact batch member).complete
  · obtain ⟨rest, split⟩ := holds.front
    refine ⟨rest.take (log.size - batches.flatten.length), ?_⟩
    rw [← split, List.take_append, List.take_of_length_le holds.within]
  · exact scan_at_quiet holds.quiet

theorem batches_in_eq {segment : SegmentBase} {batches : List Bytes}
    (holds : HoldsBatches segment.log batches) : batchesIn segment = batches := by
  simp [batchesIn, scan_held holds]

end DariyaKyu.Storage

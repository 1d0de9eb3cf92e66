import DariyaKyu.Storage.BatchLayout
import DariyaKyu.Storage.Segment

/-!
A segment as the list of batches it holds. The file is those batches one after
the other, and what may follow them is not read as a batch; the index names
starts of batches. Under this reading the loops of the segment have closed
forms, whatever gaps the offsets have.
-/

namespace DariyaKyu.Storage

set_option autoImplicit false

open FrameWalk

def baseOf (batch : Bytes) : Int := (headerOf batch).baseOffset

def lastOf (batch : Bytes) : Int := (headerOf batch).lastOffset

def timestampOf (batch : Bytes) : Int := (headerOf batch).maxTimestamp

/-- One past the last offset of the batches, `start` when there is none. -/
def endOffset (start : Int) (batches : List Bytes) : Int :=
  batches.foldl (fun _ batch => lastOf batch + 1) start

def largestOf (start : Int) (batches : List Bytes) : Int :=
  batches.foldl (fun largest batch => max largest (timestampOf batch)) start

/-- Every batch starts at or behind the end of the one before it. -/
def Ascending : Int → List Bytes → Prop
  | _, [] => True
  | start, batch :: batches =>
      start ≤ baseOf batch ∧ baseOf batch ≤ lastOf batch ∧ Ascending (lastOf batch + 1) batches

/-- Every batch starts exactly at the end of the one before it. -/
def Consecutive : Int → List Bytes → Prop
  | _, [] => True
  | start, batch :: batches =>
      baseOf batch = start ∧ baseOf batch ≤ lastOf batch ∧ Consecutive (lastOf batch + 1) batches

theorem end_offset_append (start : Int) (front rest : List Bytes) :
    endOffset start (front ++ rest) = endOffset (endOffset start front) rest :=
  List.foldl_append

@[simp] theorem end_offset_concat (start : Int) (front : List Bytes) (batch : Bytes) :
    endOffset start (front ++ [batch]) = lastOf batch + 1 := by
  simp [endOffset]

theorem end_offset_cons (start : Int) (batch : Bytes) (batches : List Bytes) :
    endOffset start (batch :: batches) = endOffset (lastOf batch + 1) batches := rfl

theorem end_offset_occupied (first second : Int) {batches : List Bytes} (occupied : batches ≠ []) :
    endOffset first batches = endOffset second batches := by
  cases batches with
  | nil => exact (occupied rfl).elim
  | cons batch batches => rfl

theorem largest_of_append (start : Int) (front rest : List Bytes) :
    largestOf start (front ++ rest) = largestOf (largestOf start front) rest :=
  List.foldl_append

theorem start_le_largest (start : Int) (batches : List Bytes) : start ≤ largestOf start batches := by
  induction batches generalizing start with
  | nil => exact Int.le_refl start
  | cons batch batches ih =>
      have later := ih (max start (timestampOf batch))
      simp only [largestOf, List.foldl_cons] at later ⊢
      omega

theorem timestamp_le_largest (start : Int) {batches : List Bytes} {batch : Bytes}
    (member : batch ∈ batches) : timestampOf batch ≤ largestOf start batches := by
  induction batches generalizing start with
  | nil => cases member
  | cons first batches ih =>
      rcases List.mem_cons.mp member with rfl | later
      · have bound := start_le_largest (max start (timestampOf batch)) batches
        simp only [largestOf, List.foldl_cons] at bound ⊢
        omega
      · exact ih _ later

theorem Consecutive.ascending {start : Int} {batches : List Bytes}
    (consecutive : Consecutive start batches) : Ascending start batches := by
  induction batches generalizing start with
  | nil => trivial
  | cons batch batches ih =>
      obtain ⟨base, spans, later⟩ := consecutive
      exact ⟨base.ge, spans, ih later⟩

theorem ascending_append {start : Int} {front rest : List Bytes} :
    Ascending start (front ++ rest) ↔
      Ascending start front ∧ Ascending (endOffset start front) rest := by
  induction front generalizing start with
  | nil => simp [Ascending, endOffset]
  | cons batch front ih =>
      simp only [List.cons_append, Ascending, ih, end_offset_cons]
      tauto

theorem consecutive_append {start : Int} {front rest : List Bytes} :
    Consecutive start (front ++ rest) ↔
      Consecutive start front ∧ Consecutive (endOffset start front) rest := by
  induction front generalizing start with
  | nil => simp [Consecutive, endOffset]
  | cons batch front ih =>
      simp only [List.cons_append, Consecutive, ih, end_offset_cons]
      tauto

theorem start_le_end {start : Int} {batches : List Bytes} (ascending : Ascending start batches) :
    start ≤ endOffset start batches := by
  induction batches generalizing start with
  | nil => exact Int.le_refl start
  | cons batch batches ih =>
      obtain ⟨above, spans, later⟩ := ascending
      have rest := ih later
      rw [end_offset_cons]
      omega

theorem last_lt_end {start : Int} {batches : List Bytes} (ascending : Ascending start batches)
    {batch : Bytes} (member : batch ∈ batches) : lastOf batch < endOffset start batches := by
  induction batches generalizing start with
  | nil => cases member
  | cons first batches ih =>
      obtain ⟨_, _, later⟩ := ascending
      rw [end_offset_cons]
      rcases List.mem_cons.mp member with rfl | behind
      · have := start_le_end later
        omega
      · exact ih later behind

theorem start_le_base {start : Int} {batches : List Bytes} (ascending : Ascending start batches)
    {batch : Bytes} (member : batch ∈ batches) :
    start ≤ baseOf batch ∧ baseOf batch ≤ lastOf batch := by
  induction batches generalizing start with
  | nil => cases member
  | cons first batches ih =>
      obtain ⟨above, spans, later⟩ := ascending
      rcases List.mem_cons.mp member with rfl | behind
      · exact ⟨above, spans⟩
      · have := ih later behind
        omega

theorem last_lt_base {start : Int} {before after : List Bytes} {batch : Bytes}
    (ascending : Ascending start (before ++ batch :: after)) {earlier : Bytes}
    (member : earlier ∈ before) : lastOf earlier < baseOf batch := by
  obtain ⟨front, above, _⟩ := ascending_append.mp ascending
  have := last_lt_end front member
  omega

theorem end_lt_of_occupied {start : Int} {batches : List Bytes} (ascending : Ascending start batches)
    (occupied : batches ≠ []) : start < endOffset start batches := by
  cases batches with
  | nil => exact (occupied rfl).elim
  | cons batch batches =>
      have spans := start_le_base ascending (List.mem_cons_self)
      have ends := last_lt_end ascending (List.mem_cons_self)
      omega

def NamesBatch (base : Int) (batches : List Bytes) (entry : Entry) : Prop :=
  ∃ before batch after, batches = before ++ batch :: after ∧
    entry.position = before.flatten.length ∧ baseOf batch = base + entry.relativeOffset

def NamesEnd (base : Int) (batches : List Bytes) (entry : Entry) : Prop :=
  entry.position = batches.flatten.length ∧ endOffset base batches = base + entry.relativeOffset

/-- The file holds the batches, and nothing behind them is read as one. -/
structure HoldsBatches (log : FileHandle) (batches : List Bytes) : Prop where
  intact : ∀ batch ∈ batches, IntactBatch batch
  front : batches.flatten <+: log.bytes
  within : batches.flatten.length ≤ log.size
  quiet : batchAt log log.size batches.flatten.length = .ok none

structure SegmentHolds (segment : SegmentBase) (batches : List Bytes) : Prop
    extends HoldsBatches segment.log batches where
  ascending : Ascending segment.baseOffset batches
  ends : segment.nextOffset = endOffset segment.baseOffset batches
  based : segment.index.baseOffset = segment.baseOffset
  indexed : ∀ entry ∈ segment.index.entries,
    NamesBatch segment.baseOffset batches entry ∨ NamesEnd segment.baseOffset batches entry

/-- What `batchAt` finds at the start of each batch. -/
def framesAt : Nat → List Bytes → List BatchAt
  | _, [] => []
  | position, batch :: batches =>
      ⟨headerOf batch, position, batch.length⟩ :: framesAt (position + batch.length) batches

@[simp] theorem frames_at_length (position : Nat) (batches : List Bytes) :
    (framesAt position batches).length = batches.length := by
  induction batches generalizing position with
  | nil => rfl
  | cons batch batches ih => simp [framesAt, ih]

theorem count_le_bytes {batches : List Bytes} (positive : ∀ batch ∈ batches, 0 < batch.length) :
    batches.length ≤ batches.flatten.length := by
  induction batches with
  | nil => simp
  | cons batch batches ih =>
      have here := positive batch (by simp)
      have rest := ih (fun other member => positive other (by simp [member]))
      simp only [List.length_cons, List.flatten_cons, List.length_append]
      omega

theorem batch_at_end (log : FileHandle) {limit position : Nat} (behind : limit ≤ position) :
    batchAt log limit position = .ok none := by
  simp [batchAt, behind]

theorem batch_at_sized {log : FileHandle} {limit : Nat} {before batch : Bytes} (after : Bytes)
    (sized : totalSizeOf batch = .ok batch.length) (parsed : parseHeader batch = .ok (headerOf batch))
    (contents : log.bytes = before ++ (batch ++ after)) (fits : before.length + batch.length ≤ limit) :
    batchAt log limit before.length = .ok (some ⟨headerOf batch, before.length, batch.length⟩) := by
  have long := (parse_header_ok parsed).1
  have positive : 0 < kBatchHeaderSize := by decide
  have headerBytes : log.readAt before.length kBatchHeaderSize = batch.take kBatchHeaderSize := by
    rw [FileHandle.readAt, contents, List.drop_left' rfl, List.take_append_of_le_length long]
  have header : parseHeader (batch.take kBatchHeaderSize) = .ok (headerOf batch) := by
    rw [parse_header_take batch long, parsed]
  have total : totalSizeOf (batch.take kBatchHeaderSize) = .ok batch.length := by
    rw [total_size_of_take batch long, sized]
  have full : ¬ (batch.take kBatchHeaderSize).length < kBatchHeaderSize := by simpa using long
  unfold batchAt
  rw [if_neg (by omega), if_neg (by omega)]
  simp only [headerBytes, full, if_false, header, total, except_ok_bind]
  rw [if_neg (by omega)]
  rfl

theorem batch_at_checked {log : FileHandle} {limit : Nat} {before batch : Bytes} (after : Bytes)
    (complete : CheckedBatch batch) (contents : log.bytes = before ++ (batch ++ after))
    (fits : before.length + batch.length ≤ limit) :
    batchAt log limit before.length = .ok (some ⟨headerOf batch, before.length, batch.length⟩) :=
  batch_at_sized after complete.sized complete.parsed contents fits

theorem holds_contents {bytes : Bytes} {batches : List Bytes} (intact : ∀ batch ∈ batches, IntactBatch batch)
    (written : bytes = batches.flatten) (fd : Int) (path : String) :
    HoldsBatches (FileHandle.ofContents fd path bytes) batches where
  intact := intact
  front := by simp [FileHandle.ofContents, written]
  within := by simp [FileHandle.ofContents, FileHandle.size, written]
  quiet := batch_at_end _ (by simp [FileHandle.ofContents, FileHandle.size, written])

/-- What `batchAt` finds is a header that is there, with all the bytes it declares. -/
theorem batch_at_found {log : FileHandle} {limit position : Nat} {found : BatchAt}
    (peeked : batchAt log limit position = .ok (some found)) (inside : limit ≤ log.bytes.length) :
    let batch := log.readAt position found.totalSize
    batch.length = found.totalSize ∧ totalSizeOf batch = .ok batch.length ∧
      parseHeader batch = .ok (headerOf batch) ∧ found = ⟨headerOf batch, position, batch.length⟩ ∧
      position + found.totalSize ≤ limit := by
  unfold batchAt at peeked
  split at peeked
  · cases peeked
  split at peeked
  · cases peeked
  simp only at peeked
  split at peeked
  · cases peeked
  next reaches long =>
  obtain ⟨header, parsed, peeked⟩ := except_bind_ok peeked
  obtain ⟨total, sized, peeked⟩ := except_bind_ok peeked
  split at peeked
  · cases peeked
  next fits =>
  cases peeked
  obtain ⟨_, rfl, _⟩ := parse_header_ok parsed
  obtain ⟨_, minimum, _⟩ := total_size_of_ok sized
  have length : (log.readAt position total).length = total := by
    simp only [FileHandle.readAt, List.length_take, List.length_drop]
    omega
  -- the header lies in front of what the whole read adds
  have front : log.readAt position kBatchHeaderSize =
      (log.readAt position total).take kBatchHeaderSize := by
    simp only [FileHandle.readAt, List.take_take, Nat.min_eq_left minimum]
  have enough : kBatchHeaderSize ≤ (log.readAt position total).length := by omega
  rw [front, parse_header_take _ enough] at parsed
  rw [front, total_size_of_take _ enough] at sized
  refine ⟨length, by rw [sized, length], ?_, ?_, ?_⟩
  · rw [parsed, (parse_header_ok parsed).2.1]
  · simp only [length, front, header_of_take _ _ (Nat.le_refl _) enough]
  · simp only
    omega

@[simp] theorem total_width_frames (position : Nat) (batches : List Bytes) :
    totalWidth BatchAt.totalSize (framesAt position batches) = batches.flatten.length := by
  induction batches generalizing position with
  | nil => rfl
  | cons batch batches ih =>
      have rest := ih (position + batch.length)
      simp only [totalWidth, framesAt, List.map_cons, List.sum_cons, List.flatten_cons,
        List.length_append] at rest ⊢
      rw [rest]

theorem laid_front_batches {log : FileHandle} {limit : Nat} (before : List Bytes) {after : List Bytes}
    (shaped : ∀ batch ∈ after, ShapedBatch batch) (front : (before ++ after).flatten <+: log.bytes)
    (within : (before ++ after).flatten.length ≤ limit) :
    LaidFront (batchAt log limit) BatchAt.totalSize before.flatten.length
      (framesAt before.flatten.length after) := by
  induction after generalizing before with
  | nil => trivial
  | cons batch after ih =>
      have shifted : before ++ batch :: after = (before ++ [batch]) ++ after := by simp
      have here : batchAt log limit before.flatten.length =
          .ok (some ⟨headerOf batch, before.flatten.length, batch.length⟩) := by
        obtain ⟨rest, contents⟩ := front
        have isShaped := shaped batch List.mem_cons_self
        refine batch_at_sized (after.flatten ++ rest) isShaped.sized isShaped.parsed ?_ ?_
        · rw [← contents]
          simp
        · simp only [List.flatten_append, List.flatten_cons, List.length_append] at within
          omega
      have later := ih (before ++ [batch])
        (fun other member => shaped other (by simp [member])) (shifted ▸ front) (shifted ▸ within)
      refine ⟨here, ?_⟩
      simpa using later

theorem laid_out_batches {log : FileHandle} {before after : List Bytes}
    (holds : HoldsBatches log (before ++ after)) :
    LaidOut (batchAt log log.size) BatchAt.totalSize before.flatten.length
      (framesAt before.flatten.length after) := by
  apply laid_out_of_front
  · exact laid_front_batches _ (fun batch member => (holds.intact batch (by simp [member])).shaped) holds.front
      holds.within
  · have quiet := holds.quiet
    rw [List.flatten_append, List.length_append] at quiet
    rw [total_width_frames]
    exact quiet

theorem walk_batches {σ : Type} {log : FileHandle} {before after : List Bytes}
    (holds : HoldsBatches log (before ++ after))
    (visit : σ → Nat → BatchAt → Except Error (Turn σ)) (state : σ) :
    walk (batchAt log log.size) BatchAt.totalSize visit (log.size + 1) before.flatten.length state =
      visitAll BatchAt.totalSize visit before.flatten.length state
        (framesAt before.flatten.length after) := by
  apply walk_laid_out _ _ _ _ (laid_out_batches holds)
  have count : after.length ≤ after.flatten.length :=
    count_le_bytes fun batch member => (holds.intact batch (by simp [member])).positive
  have within := holds.within
  simp only [List.flatten_append, List.length_append, frames_at_length] at within ⊢
  omega

theorem fold_frames (position : Nat) (next largest : Int) (batches : List Bytes) :
    (framesAt position batches).foldl SegmentBase.EndState.advance ⟨next, largest⟩ =
      ⟨endOffset next batches, largestOf largest batches⟩ := by
  induction batches generalizing position next largest with
  | nil => rfl
  | cons batch batches ih => exact ih _ _ _

/-- The end state of a segment whose last index entry is the start of `after`. -/
theorem derive_end_state (segment : SegmentBase) {before after : List Bytes} {entry : Entry}
    (holds : HoldsBatches segment.log (before ++ after))
    (found : segment.index.lookup (segment.baseOffset + kMaxUint32) = .ok entry)
    (starts : entry.position = before.flatten.length) :
    segment.deriveEndStateFromLog =
      .ok { segment with
        nextOffset := endOffset segment.baseOffset after
        largestTimestamp := largestOf (-1) after } := by
  simp only [SegmentBase.deriveEndStateFromLog, found, except_ok_bind, starts]
  rw [walk_batches holds, visit_all_fold _ _ _ _ _ SegmentBase.EndState.advance (fun _ _ _ _ => rfl),
    fold_frames]
  rfl

/-- What a segment answers to a read: the first batch that reaches the offset. -/
def rangeFrom (log : FileHandle) (batches : List Bytes) (offset : Int) (maxBytes : Nat) : FileRange :=
  let position := (batches.takeWhile (lastOf · < offset)).flatten.length
  match batches.dropWhile (lastOf · < offset) with
  | [] => ⟨log.fd, log.size, 0⟩
  | batch :: _ => ⟨log.fd, position, max batch.length (min maxBytes (log.size - position))⟩

theorem visit_read (log : FileHandle) (offset : Int) (maxBytes : Nat) (position : Nat)
    (batches : List Bytes) :
    visitAll BatchAt.totalSize
        (fun (_ : Option FileRange) position found =>
          if offset ≤ found.header.lastOffset then
            .ok (.stop (some ⟨log.fd, position, max found.totalSize (min maxBytes (log.size - position))⟩))
          else .ok (.next none)) position none (framesAt position batches) =
      (match batches.dropWhile (lastOf · < offset) with
        | [] => (.ok (position + batches.flatten.length, none) : Except Error _)
        | batch :: _ =>
            let start := position + (batches.takeWhile (lastOf · < offset)).flatten.length
            .ok (start, some ⟨log.fd, start, max batch.length (min maxBytes (log.size - start))⟩)) := by
  induction batches generalizing position with
  | nil => rfl
  | cons batch batches ih =>
      by_cases reached : offset ≤ lastOf batch
      · have notBelow : ¬ lastOf batch < offset := by omega
        have reachedHeader : offset ≤ (headerOf batch).lastOffset := reached
        simp [framesAt, visitAll, reachedHeader, notBelow]
      · have below : lastOf batch < offset := by omega
        have notReached : ¬ offset ≤ (headerOf batch).lastOffset := reached
        simp only [framesAt, visitAll, notReached, if_false, List.dropWhile_cons, List.takeWhile_cons,
          below, decide_true, if_true, List.flatten_cons, List.length_append, ih]
        split <;> simp [Nat.add_assoc]

/-- Batches ahead of the target do not change what a read finds. -/
theorem range_from_skip {before : List Bytes} (after : List Bytes) {offset : Int}
    (below : ∀ batch ∈ before, lastOf batch < offset) :
    (before ++ after).dropWhile (lastOf · < offset) = after.dropWhile (lastOf · < offset) ∧
      ((before ++ after).takeWhile (lastOf · < offset)).flatten.length =
        before.flatten.length + (after.takeWhile (lastOf · < offset)).flatten.length := by
  have all : ∀ batch ∈ before, decide (lastOf batch < offset) = true := by simpa using below
  rw [List.dropWhile_append_of_pos all, List.takeWhile_append_of_pos all]
  simp

/-- Whatever entry the index gives for an offset, everything ahead of the place
it points at lies below the offset. -/
theorem entry_skips {base : Int} {batches : List Bytes} {index : OffsetIndex}
    (ascending : Ascending base batches) (based : index.baseOffset = base)
    (indexed : ∀ entry ∈ index.entries, NamesBatch base batches entry ∨ NamesEnd base batches entry)
    {offset : Int} (inside : base ≤ offset) :
    ∃ entry before after, index.lookup offset = .ok entry ∧ batches = before ++ after ∧
      entry.position = before.flatten.length ∧ ∀ batch ∈ before, lastOf batch < offset := by
  obtain ⟨entry, found, place⟩ := index.lookup_spec offset (by rw [based]; exact inside)
  rcases place with ⟨rfl, _⟩ | ⟨member, reaches, _⟩
  · exact ⟨{}, [], batches, found, rfl, rfl, by simp⟩
  rw [based] at reaches
  rcases indexed entry member with ⟨before, batch, after, split, starts, names⟩ | ⟨starts, names⟩
  · refine ⟨entry, before, batch :: after, found, split, starts, ?_⟩
    intro earlier earlierMember
    rw [split] at ascending
    have := last_lt_base ascending earlierMember
    omega
  · refine ⟨entry, batches, [], found, by simp, starts, ?_⟩
    intro earlier earlierMember
    have := last_lt_end ascending earlierMember
    omega

/-- `SegmentBase::read` is routed by a sparse index and finished by a scan;
together they find the first batch of the segment that reaches the offset. -/
theorem read_spec {segment : SegmentBase} {batches : List Bytes}
    (holds : SegmentHolds segment batches) {offset : Int} (inside : segment.baseOffset ≤ offset)
    (maxBytes : Nat) :
    segment.read offset maxBytes = .ok (rangeFrom segment.log batches offset maxBytes) := by
  obtain ⟨entry, before, after, found, split, starts, below⟩ :=
    entry_skips holds.ascending holds.based holds.indexed inside
  have route : ¬ offset < segment.baseOffset := by omega
  have skip := range_from_skip after below
  have walked := walk_batches (split ▸ holds.toHoldsBatches) (fun (_ : Option FileRange) position (found : BatchAt) =>
    if offset ≤ found.header.lastOffset then
      .ok (.stop (some ⟨segment.log.fd, position,
        max found.totalSize (min maxBytes (segment.log.size - position))⟩))
    else .ok (.next none)) none
  simp only [SegmentBase.read, route, if_false, found, except_ok_bind, starts]
  rw [walked, visit_read]
  simp only [rangeFrom, split, skip.1, skip.2]
  split <;> simp [pure, Except.pure]

end DariyaKyu.Storage

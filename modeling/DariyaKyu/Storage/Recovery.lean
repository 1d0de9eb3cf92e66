import DariyaKyu.Storage.BatchCodec
import DariyaKyu.Storage.SegmentSteps

/-!
`ActiveSegment::recover` on any bytes at all. The loop keeps the longest front of
complete batches whose offsets form a sequence, and rebuilds the index as it goes.
A batch that is not like that ends the loop; an index entry that is not accepted
ends the recovery, since the exception for it is not the one the loop catches.
-/

namespace DariyaKyu.Storage

set_option autoImplicit false

open FrameWalk

/-- Complete batches in sequence from an offset on, all below the ceiling. -/
def Recoverable (truncateAt : Option Int) : Int → List Bytes → Prop
  | _, [] => True
  | next, batch :: rest =>
      (CheckedBatch batch ∧ baseOf batch = next ∧ truncateAt.any (· ≤ lastOf batch) = false) ∧
        Recoverable truncateAt (lastOf batch + 1) rest

structure LongestRecoverable (truncateAt : Option Int) (base : Int) (bytes : Bytes)
    (kept : List Bytes) : Prop where
  front : kept.flatten <+: bytes
  recoverable : Recoverable truncateAt base kept
  longest : ∀ other, Recoverable truncateAt base other → other.flatten <+: bytes → other <+: kept

theorem longest_unique {truncateAt : Option Int} {base : Int} {bytes : Bytes}
    {first second : List Bytes} (firstLongest : LongestRecoverable truncateAt base bytes first)
    (secondLongest : LongestRecoverable truncateAt base bytes second) : first = second :=
  (secondLongest.longest first firstLongest.recoverable firstLongest.front).eq_of_length_le
    (firstLongest.longest second secondLongest.recoverable secondLongest.front).length_le

/-- Nothing at the front of the bytes goes on with the sequence. -/
theorem longest_nil {truncateAt : Option Int} {next : Int} {bytes : Bytes}
    (ends : ∀ batch more, bytes = batch ++ more → CheckedBatch batch → baseOf batch = next →
      truncateAt.any (· ≤ lastOf batch) = true) :
    LongestRecoverable truncateAt next bytes [] where
  front := List.nil_prefix
  recoverable := trivial
  longest := by
    intro other recoverable front
    cases other with
    | nil => exact List.prefix_refl _
    | cons batch rest =>
        obtain ⟨⟨complete, base, below⟩, _⟩ := recoverable
        obtain ⟨more, split⟩ := front
        rw [List.flatten_cons, List.append_assoc] at split
        rw [ends batch _ split.symm complete base] at below
        cases below

theorem longest_cons {truncateAt : Option Int} {next : Int} {batch bytes : Bytes} {kept : List Bytes}
    (complete : CheckedBatch batch) (base : baseOf batch = next)
    (below : truncateAt.any (· ≤ lastOf batch) = false)
    (longest : LongestRecoverable truncateAt (lastOf batch + 1) bytes kept) :
    LongestRecoverable truncateAt next (batch ++ bytes) (batch :: kept) where
  front := by
    obtain ⟨more, split⟩ := longest.front
    exact ⟨more, by rw [List.flatten_cons, List.append_assoc, split]⟩
  recoverable := ⟨⟨complete, base, below⟩, longest.recoverable⟩
  longest := by
    intro other recoverable front
    cases other with
    | nil => exact List.nil_prefix
    | cons first rest =>
        obtain ⟨⟨firstComplete, _⟩, later⟩ := recoverable
        obtain ⟨more, split⟩ := front
        rw [List.flatten_cons, List.append_assoc] at split
        obtain ⟨rfl, same⟩ := checked_front_unique firstComplete complete split
        exact List.cons_prefix_cons.mpr ⟨rfl, longest.longest rest later ⟨more, same⟩⟩

section Walk

variable {truncateAt : Option Int} {segment : ActiveSegment} {next largest : Int}
  {before rest : Bytes}

theorem maybe_add_index_entry_eq (segment : ActiveSegment) (baseOffset : Int) (position : Nat) :
    segment.maybeAddIndexEntry baseOffset position =
      (indexStep segment.policy segment.indexState baseOffset position).map fun stepped =>
        { segment with index := stepped.index, bytesSinceIndexEntry := stepped.since } := by
  unfold ActiveSegment.maybeAddIndexEntry indexStep ActiveSegment.indexState
  split
  · rfl
  split
  · rfl
  split
  · rfl
  · cases segment.index.append baseOffset position <;> rfl

/-- The turn of the loop at a batch that goes on with the sequence: all that can
go wrong is the index entry. -/
theorem recover_batch_checked {batch more : Bytes} (complete : CheckedBatch batch)
    (contents : segment.log.bytes = before ++ (batch ++ more)) (base : baseOf batch = next)
    (below : truncateAt.any (· ≤ lastOf batch) = false) :
    ActiveSegment.recoverBatch truncateAt ⟨segment, next, largest⟩ before.length
        ⟨headerOf batch, before.length, batch.length⟩ =
      (indexStep segment.policy segment.indexState (baseOf batch) before.length).map fun stepped =>
        .next
          { segment :=
              { segment with
                index := stepped.index
                bytesSinceIndexEntry := stepped.since + batch.length }
            next := lastOf batch + 1
            largest := max largest (timestampOf batch) } := by
  have whole : segment.log.readAt before.length batch.length = batch := by
    rw [FileHandle.readAt, contents, List.drop_left' rfl, List.take_left' rfl]
  have inTime : truncateAt.any (fun ceiling => decide (ceiling ≤ (headerOf batch).lastOffset)) = false :=
    below
  have sequential : (headerOf batch).baseOffset = next := base
  simp only [ActiveSegment.recoverBatch, inTime, whole, Bool.false_eq_true, if_false, Nat.lt_irrefl,
    complete.checked, ActiveSegment.orElseCorrupt, except_ok_bind, sequential, ne_eq,
    not_true_eq_false, Bool.true_eq_false, maybe_add_index_entry_eq]
  rw [baseOf, sequential]
  cases indexStep segment.policy segment.indexState next before.length <;> rfl

/-- A visit that stops does so at bytes that do not go on with the sequence. -/
theorem recover_batch_refused {position : Nat} {found : BatchAt}
    (whole : (segment.log.readAt position found.totalSize).length = found.totalSize)
    (refused : CheckedBatch (segment.log.readAt position found.totalSize) →
      found.header.baseOffset = next → truncateAt.any (· ≤ found.header.lastOffset) = true)
    (sized : totalSizeOf (segment.log.readAt position found.totalSize) =
      .ok (segment.log.readAt position found.totalSize).length) :
    ActiveSegment.recoverBatch truncateAt ⟨segment, next, largest⟩ position found =
      .ok (.stop ⟨segment, next, largest⟩) := by
  unfold ActiveSegment.recoverBatch
  split
  · rfl
  next inTime =>
  simp only [whole, Nat.lt_irrefl, if_false]
  cases checked : verifyCrc (segment.log.readAt position found.totalSize) with
  | error failure =>
      obtain ⟨what, rfl⟩ := verify_crc_error checked
      simp [ActiveSegment.orElseCorrupt, pure, Except.pure]
  | ok intact =>
      cases intact with
      | false => simp [ActiveSegment.orElseCorrupt, pure, Except.pure]
      | true =>
          have gap : found.header.baseOffset ≠ next :=
            fun same => inTime (refused ⟨sized, checked⟩ same)
          simp [ActiveSegment.orElseCorrupt, gap, pure, Except.pure]

theorem recover_ends (fuel : Nat) (contents : segment.log.bytes = before ++ rest)
    (ends : ∀ batch more, rest = batch ++ more → CheckedBatch batch → baseOf batch = next →
      truncateAt.any (· ≤ lastOf batch) = true) :
    walk (fun position => ActiveSegment.orElseCorrupt
        (batchAt segment.log segment.log.bytes.length position) none)
      BatchAt.totalSize (ActiveSegment.recoverBatch truncateAt) (fuel + 1) before.length
      ⟨segment, next, largest⟩ = .ok (before.length, ⟨segment, next, largest⟩) := by
  cases peeked : batchAt segment.log segment.log.bytes.length before.length with
  | error failure =>
      obtain ⟨what, rfl⟩ := batch_at_error peeked
      simp only [walk, peeked, ActiveSegment.orElseCorrupt]
  | ok found =>
      cases found with
      | none => simp only [walk, peeked, ActiveSegment.orElseCorrupt]
      | some found =>
          obtain ⟨length, sized, _, same, _⟩ := batch_at_found peeked (Nat.le_refl _)
          have front : segment.log.readAt before.length found.totalSize =
              rest.take found.totalSize := by
            rw [FileHandle.readAt, contents, List.drop_left]
          have header : found.header = headerOf (segment.log.readAt before.length found.totalSize) :=
            congrArg BatchAt.header same
          have refused : ActiveSegment.recoverBatch truncateAt ⟨segment, next, largest⟩ before.length
              found = .ok (.stop ⟨segment, next, largest⟩) := by
            apply recover_batch_refused length _ sized
            intro complete base
            rw [front] at complete header
            rw [header] at base ⊢
            exact ends _ (rest.drop found.totalSize) (List.take_append_drop _ _).symm complete base
          simp only [walk, peeked, ActiveSegment.orElseCorrupt, refused]

/-- The whole loop: it keeps the longest front there is, if the index takes every
entry that falls due on the way. -/
theorem recover_walk {fuel : Nat} (contents : segment.log.bytes = before ++ rest)
    (enough : rest.length < fuel) :
    ∃ kept, LongestRecoverable truncateAt next rest kept ∧
      walk (fun position => ActiveSegment.orElseCorrupt
          (batchAt segment.log segment.log.bytes.length position) none)
        BatchAt.totalSize (ActiveSegment.recoverBatch truncateAt) fuel before.length
        ⟨segment, next, largest⟩ =
          (indexAll segment.policy segment.indexState before.length kept).map fun built =>
            (before.length + kept.flatten.length,
              ⟨{ segment with index := built.index, bytesSinceIndexEntry := built.since },
                endOffset next kept, largestOf largest kept⟩) := by
  induction fuel generalizing segment next largest before rest with
  | zero => cases enough
  | succ fuel ih =>
      by_cases ends : ∀ batch more, rest = batch ++ more → CheckedBatch batch → baseOf batch = next →
          truncateAt.any (· ≤ lastOf batch) = true
      · exact ⟨[], longest_nil ends, recover_ends fuel contents ends⟩
      · push Not at ends
        obtain ⟨batch, more, rfl, complete, base, below⟩ := ends
        rw [ne_eq, Bool.not_eq_true] at below
        have inside : before.length + batch.length ≤ segment.log.bytes.length := by
          rw [contents, List.length_append, List.length_append]
          omega
        have here := batch_at_checked more complete contents inside
        have turn := @recover_batch_checked truncateAt segment next largest before batch more complete
          contents base below
        have shorter : more.length < fuel := by
          have positive := complete.positive
          rw [List.length_append] at enough
          omega
        have regrouped : segment.log.bytes = (before ++ batch) ++ more := by
          rw [contents, List.append_assoc]
        cases stepped : indexStep segment.policy segment.indexState (baseOf batch) before.length with
        | error failure =>
            obtain ⟨kept, longest, _⟩ := @ih segment (lastOf batch + 1) largest _ more regrouped shorter
            refine ⟨batch :: kept, longest_cons complete base below longest, ?_⟩
            rw [stepped] at turn
            simp only [walk, here, ActiveSegment.orElseCorrupt, turn, indexAll, stepped]
            rfl
        | ok state =>
            obtain ⟨kept, longest, walked⟩ := @ih
              { segment with index := state.index, bytesSinceIndexEntry := state.since + batch.length }
              (lastOf batch + 1) (max largest (timestampOf batch)) (before ++ batch) more regrouped
              shorter
            refine ⟨batch :: kept, longest_cons complete base below longest, ?_⟩
            rw [stepped] at turn
            rw [List.length_append] at walked
            simp only [walk, here, ActiveSegment.orElseCorrupt, turn, indexAll, stepped, Except.map,
              except_ok_bind, List.flatten_cons, List.length_append, ← Nat.add_assoc, end_offset_cons]
            exact walked

end Walk

/-- Recovery of any file: what the index makes of the longest front decides how
it ends, and that front is what it keeps. -/
theorem recover_any (fd : Int) (dir : String) (base : Int) (bytes : Bytes) (policy : RollPolicy)
    (truncateAt : Option Int) (clockMs : Int) {fresh : OffsetIndex}
    (created : OffsetIndex.create (segmentIndexPath dir base) base policy.maxIndexBytes = .ok fresh) :
    ∃ kept, LongestRecoverable truncateAt base bytes kept ∧
      ActiveSegment.recover fd dir base bytes policy truncateAt clockMs =
        (indexAll policy ⟨fresh, 0⟩ 0 kept).map fun built =>
          { log := FileHandle.ofContents fd (segmentLogPath dir base) kept.flatten
            index := built.index
            baseOffset := base
            nextOffset := endOffset base kept
            largestTimestamp := largestOf (-1) kept
            policy := policy
            bytesSinceIndexEntry := built.since
            firstAppendMs := if 0 < kept.flatten.length then clockMs else -1 } := by
  let segment : ActiveSegment :=
    { log := FileHandle.ofContents fd (segmentLogPath dir base) bytes
      index := fresh
      baseOffset := base
      nextOffset := base
      largestTimestamp := -1
      policy
      bytesSinceIndexEntry := 0
      firstAppendMs := -1 }
  obtain ⟨kept, longest, walked⟩ := @recover_walk truncateAt segment base (-1) [] bytes
    (bytes.length + 1) rfl (Nat.lt_succ_self _)
  refine ⟨kept, longest, ?_⟩
  have cut := FileHandle.cut_of_contents fd (segmentLogPath dir base) longest.front
  simp only [ActiveSegment.recover, created, except_ok_bind]
  rw [List.length_nil, Nat.zero_add] at walked
  have walkedHere : walk (fun position => ActiveSegment.orElseCorrupt
      (batchAt (FileHandle.ofContents fd (segmentLogPath dir base) bytes)
        (FileHandle.ofContents fd (segmentLogPath dir base) bytes).size position) none)
      BatchAt.totalSize (ActiveSegment.recoverBatch truncateAt)
      ((FileHandle.ofContents fd (segmentLogPath dir base) bytes).size + 1) 0 ⟨segment, base, -1⟩ = _ :=
    walked
  rw [walkedHere]
  have fromStart : indexAll segment.policy segment.indexState 0 kept = indexAll policy ⟨fresh, 0⟩ 0 kept :=
    rfl
  rw [fromStart]
  cases indexAll policy ⟨fresh, 0⟩ 0 kept with
  | error failure => rfl
  | ok built =>
      simp only [Except.map, except_ok_bind, cut]
      rfl

def entriesDue (policy : RollPolicy) : Nat → Nat → List Bytes → List Int
  | _, _, [] => []
  | since, position, batch :: rest =>
      if since < policy.indexIntervalBytes ∨ position = 0 then
        entriesDue policy (since + batch.length) (position + batch.length) rest
      else baseOf batch :: entriesDue policy batch.length (position + batch.length) rest

/-- Each of the offsets can be written relative to the base offset, and is past
those an index with this much room holds by then. -/
def EntriesAdvance (base : Int) (room : Nat) : List Int → List Int → Prop
  | _, [] => True
  | held, offset :: rest =>
      (base ≤ offset ∧ offset - base ≤ kMaxUint32 ∧ ∀ earlier ∈ held, earlier < offset) ∧
        EntriesAdvance base room (if held.length < room then held ++ [offset] else held) rest

section Index

theorem append_iff (index : OffsetIndex) {offset : Int} {position : Nat}
    (writable : index.writable = true) (nonzero : 0 < position) :
    (∃ next, index.append offset position = .ok next) ↔
      index.baseOffset ≤ offset ∧ offset - index.baseOffset ≤ kMaxUint32 ∧
        ∀ earlier ∈ index.entries, earlier.Below ⟨(offset - index.baseOffset).toNat, position⟩ := by
  constructor
  · rintro ⟨next, appended⟩
    unfold OffsetIndex.append at appended
    split at appended
    · cases appended
    split at appended
    · cases appended
    split at appended
    · cases appended
    split at appended
    · cases appended
    split at appended
    · cases appended
    next low far checked =>
    exact ⟨Int.not_lt.mp low, Int.not_lt.mp far, OffsetIndex.not_advancing_none checked⟩
  · rintro ⟨lower, upper, advancing⟩
    exact index.append_succeeds writable nonzero lower upper
      fun last isLast => advancing last (List.mem_of_mem_getLast? isLast)

def OffsetIndex.offsets (index : OffsetIndex) : List Int :=
  index.entries.map fun entry => index.baseOffset + entry.relativeOffset

theorem append_offsets {index next : OffsetIndex} {offset : Int} {position : Nat}
    (appended : index.append offset position = .ok next) :
    next.offsets = (if index.offsets.length < index.maxEntries then index.offsets ++ [offset]
        else index.offsets) ∧
      next.baseOffset = index.baseOffset ∧ next.maxEntries = index.maxEntries ∧
      next.writable = index.writable ∧
      ∀ entry ∈ next.entries, entry ∈ index.entries ∨ entry.position = position := by
  have count : index.offsets.length = index.entries.length := by simp [OffsetIndex.offsets]
  unfold OffsetIndex.append at appended
  split at appended
  · cases appended
  split at appended
  · cases appended
  split at appended
  · cases appended
  next low =>
  split at appended
  · cases appended
  split at appended
  · cases appended
  split at appended
  · next full =>
    cases appended
    simp only [OffsetIndex.isFull, decide_eq_true_eq] at full
    exact ⟨by rw [count, if_neg (by omega)], rfl, rfl, rfl, fun entry member => .inl member⟩
  · next room =>
    cases appended
    simp only [OffsetIndex.isFull, decide_eq_true_eq] at room
    refine ⟨?_, rfl, rfl, rfl, ?_⟩
    · have back : index.baseOffset + ((offset - index.baseOffset).toNat : Int) = offset := by omega
      rw [count, if_pos (by omega)]
      simp only [OffsetIndex.offsets, OffsetIndex.publish, List.map_append, List.map_cons, List.map_nil,
        back]
    · intro entry member
      rcases List.mem_append.mp member with old | new
      · exact .inl old
      · rw [List.mem_singleton.mp new]
        exact .inr rfl

theorem append_advances (index : OffsetIndex) {offset : Int} {position : Nat}
    (writable : index.writable = true) (nonzero : 0 < position)
    (behind : ∀ entry ∈ index.entries, entry.position < position) :
    (∃ next, index.append offset position = .ok next) ↔
      index.baseOffset ≤ offset ∧ offset - index.baseOffset ≤ kMaxUint32 ∧
        ∀ earlier ∈ index.offsets, earlier < offset := by
  rw [append_iff index writable nonzero]
  apply and_congr_right
  intro lower
  apply and_congr_right
  intro _
  simp only [OffsetIndex.offsets, List.forall_mem_map]
  apply forall_congr'
  intro entry
  apply imp_congr_right
  intro member
  have position := behind entry member
  simp only [Entry.Below]
  omega

/-- The index takes every entry exactly when each one that falls due advances. -/
theorem index_all_iff {policy : RollPolicy} {state : IndexState} {position : Nat} {batches : List Bytes}
    (occupied : ∀ batch ∈ batches, 0 < batch.length) (writable : state.index.writable = true)
    (behind : ∀ entry ∈ state.index.entries, entry.position < position)
    (small : position + batches.flatten.length ≤ kMaxUint32) :
    (∃ built, indexAll policy state position batches = .ok built) ↔
      EntriesAdvance state.index.baseOffset state.index.maxEntries state.index.offsets
        (entriesDue policy state.since position batches) := by
  induction batches generalizing state position with
  | nil => simp [indexAll, entriesDue, EntriesAdvance]
  | cons batch batches ih =>
      have positive := occupied batch (by simp)
      have later := fun other member => occupied other (List.mem_cons_of_mem batch member)
      rw [List.flatten_cons, List.length_append] at small
      by_cases quiet : state.since < policy.indexIntervalBytes ∨ position = 0
      · have stepped : indexStep policy state (baseOf batch) position = .ok state := by
          unfold indexStep
          split
          · rfl
          · next long => rw [if_pos (quiet.resolve_left long)]
        rw [entriesDue, if_pos quiet]
        simp only [indexAll, stepped, except_ok_bind]
        refine ih later writable ?_ (by omega)
        intro entry member
        have := behind entry member
        omega
      · rw [entriesDue, if_neg quiet]
        rw [not_or] at quiet
        have near : ¬ kMaxUint32 < position := by omega
        have accepts := @append_advances state.index (baseOf batch) position writable
          (Nat.pos_of_ne_zero quiet.2) behind
        simp only [indexAll, indexStep, quiet, near, if_false]
        cases appended : state.index.append (baseOf batch) position with
        | error failure =>
            rw [appended] at accepts
            simp only [EntriesAdvance, ← accepts]
            simp
        | ok next =>
            rw [appended] at accepts
            obtain ⟨offsets, base, room, live, entries⟩ := append_offsets appended
            have nextBehind : ∀ entry ∈ next.entries, entry.position < position + batch.length := by
              intro entry member
              rcases entries entry member with old | new
              · have := behind entry old
                omega
              · omega
            have rest := @ih ⟨next, batch.length⟩ (position + batch.length) later (live.trans writable)
              nextBehind (by omega)
            rw [offsets, base, room] at rest
            simp only [EntriesAdvance, ← accepts, except_ok_bind, pure, Except.pure, Nat.zero_add, rest]
            simp

end Index

structure LargestTimestamp (largest : Int) (batches : List Bytes) : Prop where
  none : batches = [] → largest = -1
  attained : batches ≠ [] → ∃ batch ∈ batches, timestampOf batch = largest
  bound : ∀ batch ∈ batches, timestampOf batch ≤ largest

theorem largest_attained (start : Int) (batches : List Bytes) :
    largestOf start batches = start ∨
      ∃ batch ∈ batches, timestampOf batch = largestOf start batches := by
  induction batches generalizing start with
  | nil => exact .inl rfl
  | cons batch batches ih =>
      rcases ih (max start (timestampOf batch)) with same | ⟨other, member, attains⟩
      · have final : largestOf start (batch :: batches) = max start (timestampOf batch) := same
        rcases le_total (timestampOf batch) start with below | above
        · left
          rw [final, max_eq_left below]
        · right
          exact ⟨batch, by simp, by rw [final, max_eq_right above]⟩
      · exact .inr ⟨other, by simp [member], attains⟩

/-- The running maximum from minus one on is the maximum, unless every batch is
below minus one. -/
theorem largest_from_iff (batches : List Bytes) : LargestTimestamp (largestOf (-1) batches) batches ↔
    batches = [] ∨ ∃ batch ∈ batches, -1 ≤ timestampOf batch := by
  constructor
  · intro largest
    by_cases empty : batches = []
    · exact .inl empty
    · obtain ⟨batch, member, attains⟩ := largest.attained empty
      have := start_le_largest (-1) batches
      exact .inr ⟨batch, member, by omega⟩
  · intro stamped
    refine ⟨fun empty => by rw [empty]; rfl, ?_, fun batch member => timestamp_le_largest _ member⟩
    intro occupied
    obtain ⟨batch, member, above⟩ := stamped.resolve_left occupied
    rcases largest_attained (-1) batches with same | attained
    · have below := timestamp_le_largest (-1) member
      exact ⟨batch, member, by omega⟩
    · exact attained

/-- What a recovery is for: it ends, it keeps the longest front there is and
nothing else, its end state is that of the front, and the next one changes
nothing but the time it happens at. -/
def RecoversWell (fd : Int) (dir : String) (base : Int) (bytes : Bytes) (policy : RollPolicy)
    (truncateAt : Option Int) (clockMs : Int) : Prop :=
  ∃ segment kept, ActiveSegment.recover fd dir base bytes policy truncateAt clockMs = .ok segment ∧
    LongestRecoverable truncateAt base bytes kept ∧ segment.log.bytes = kept.flatten ∧
    segment.nextOffset = endOffset base kept ∧ LargestTimestamp segment.largestTimestamp kept ∧
    ∀ laterMs, ∃ again,
      ActiveSegment.recover fd dir base segment.log.bytes policy truncateAt laterMs = .ok again ∧
        again = { segment with firstAppendMs := again.firstAppendMs }

theorem longest_again {truncateAt : Option Int} {base : Int} {bytes : Bytes} {kept : List Bytes}
    (longest : LongestRecoverable truncateAt base bytes kept) :
    LongestRecoverable truncateAt base kept.flatten kept where
  front := List.prefix_refl _
  recoverable := longest.recoverable
  longest := fun other recoverable front =>
    longest.longest other recoverable (front.trans longest.front)

theorem recoverable_occupied {truncateAt : Option Int} {next : Int} {batches : List Bytes}
    (recoverable : Recoverable truncateAt next batches) : ∀ batch ∈ batches, 0 < batch.length := by
  induction batches generalizing next with
  | nil => simp
  | cons first batches ih =>
      intro batch member
      rcases List.mem_cons.mp member with rfl | behind
      · exact recoverable.1.1.positive
      · exact ih recoverable.2 batch behind

/-- Recovery of any file goes well exactly when every index entry that falls due
in the front it keeps advances, and not every batch there is below time minus one. -/
theorem recovers_well_iff (fd : Int) (dir : String) (base : Int) (bytes : Bytes) (policy : RollPolicy)
    (truncateAt : Option Int) (clockMs : Int) (short : bytes.length < 2 ^ 32)
    (room : kEntrySize ≤ policy.maxIndexBytes) :
    RecoversWell fd dir base bytes policy truncateAt clockMs ↔
      ∀ kept, LongestRecoverable truncateAt base bytes kept →
        EntriesAdvance base (policy.maxIndexBytes / kEntrySize) [] (entriesDue policy 0 0 kept) ∧
          (kept = [] ∨ ∃ batch ∈ kept, -1 ≤ timestampOf batch) := by
  have positive : policy.maxIndexBytes / kEntrySize ≠ 0 := by
    have := Nat.div_pos room (by decide)
    omega
  obtain ⟨fresh, created, empty, based, live, capacity⟩ :
      ∃ fresh, OffsetIndex.create (segmentIndexPath dir base) base policy.maxIndexBytes = .ok fresh ∧
        fresh.entries = [] ∧ fresh.baseOffset = base ∧ fresh.writable = true ∧
        fresh.maxEntries = policy.maxIndexBytes / kEntrySize := by
    unfold OffsetIndex.create
    rw [if_neg positive]
    exact ⟨_, rfl, rfl, rfl, rfl, rfl⟩
  obtain ⟨kept, longest, recovered⟩ := recover_any fd dir base bytes policy truncateAt clockMs created
  have within := longest.front.length_le
  have advances := @index_all_iff policy ⟨fresh, 0⟩ 0 kept (recoverable_occupied longest.recoverable)
    live (by simp [empty]) (by unfold kMaxUint32; omega)
  simp only [based, capacity, OffsetIndex.offsets, empty, List.map_nil] at advances
  constructor
  · rintro ⟨segment, other, ok, otherLongest, _, _, largest, _⟩ third thirdLongest
    cases longest_unique thirdLongest longest
    cases longest_unique otherLongest longest
    rw [recovered] at ok
    cases built : indexAll policy ⟨fresh, 0⟩ 0 kept with
    | error failure => simp [built, Except.map] at ok
    | ok state =>
        rw [built] at ok
        cases ok
        exact ⟨advances.mp ⟨state, built⟩, (largest_from_iff kept).mp largest⟩
  · intro all
    obtain ⟨advance, stamped⟩ := all kept longest
    obtain ⟨state, built⟩ := advances.mpr advance
    rw [built] at recovered
    refine ⟨_, kept, recovered, longest, rfl, rfl, (largest_from_iff kept).mpr stamped, ?_⟩
    intro laterMs
    obtain ⟨same, sameLongest, again⟩ :=
      recover_any fd dir base kept.flatten policy truncateAt laterMs created
    cases longest_unique sameLongest (longest_again longest)
    rw [built] at again
    exact ⟨_, again, rfl⟩

def everyBatchPolicy : RollPolicy := { indexIntervalBytes := 1 }

def firstOfTwo : Bytes := recordBatchOf 10 none (some [118])

def secondOfTwo : Bytes := stamped (recordBatchOf 20 none (some [118])) 1

theorem recovers_well_iff_torn :
    RecoversWell 3 "t-0" 0 (firstOfTwo ++ (secondOfTwo ++ [0, 0, 0])) everyBatchPolicy none 0 := by
  have longest : LongestRecoverable none 0 (firstOfTwo ++ (secondOfTwo ++ [0, 0, 0]))
      [firstOfTwo, secondOfTwo] := by
    apply longest_cons ⟨by decide +kernel, by decide +kernel⟩ (by decide +kernel) rfl
    apply longest_cons ⟨by decide +kernel, by decide +kernel⟩ (by decide +kernel) rfl
    apply longest_nil
    intro batch more split complete
    have long := complete.long
    have short := congrArg List.length split
    simp only [List.length_cons, List.length_nil, List.length_append] at short
    unfold kBatchHeaderSize at long
    omega
  apply (recovers_well_iff 3 "t-0" 0 _ everyBatchPolicy none 0 (by decide +kernel) (by decide)).mpr
  intro kept isLongest
  cases longest_unique isLongest longest
  have due : entriesDue everyBatchPolicy 0 0 [firstOfTwo, secondOfTwo] = [1] := by decide +kernel
  rw [due]
  exact ⟨⟨by decide, trivial⟩, .inr ⟨firstOfTwo, by simp, by decide +kernel⟩⟩

/-- A batch that ends two offsets before it begins, and one that goes on there:
the entry of the second is below the base offset of the segment. -/
theorem recover_throws_below_base :
    ¬ ∀ (fd : Int) (dir : String) (base : Int) (bytes : Bytes) (policy : RollPolicy)
      (truncateAt : Option Int) (clockMs : Int), bytes.length < 2 ^ 32 →
      kEntrySize ≤ policy.maxIndexBytes → RecoversWell fd dir base bytes policy truncateAt clockMs := by
  intro all
  let first := builtBytes { count := 1, lastDelta := -2 }
  obtain ⟨segment, _, recovered, _⟩ := all 3 "t-0" 0
    (first ++ stamped (recordBatchOf 10 none (some [118])) (-1)) everyBatchPolicy none 0
    (by decide +kernel) (by decide)
  have threw : (ActiveSegment.recover 3 "t-0" 0
      (first ++ stamped (recordBatchOf 10 none (some [118])) (-1)) everyBatchPolicy none 0).isOk =
        false := by
    decide +kernel
  rw [recovered] at threw
  cases threw

end DariyaKyu.Storage

import DariyaKyu.Storage.CompactedReads
import DariyaKyu.Storage.ServedReads

/-!
The bytes a segment serves when its index was made for another file. A lookup
lands somewhere in the file, and the scan goes on from there to the first batch
that reaches the offset. It is enough to follow every entry for the offset it
was made for: a lookup of a later offset scans on from where that one stops.
-/

namespace DariyaKyu.Storage

set_option autoImplicit false

open FrameWalk

def reaching (offset : Int) (found : BatchAt) : Bool := offset ≤ found.header.lastOffset

/-- The first batch that reaches an offset, for a scan from `start` on. -/
def landing (contents : Bytes) (offset : Int) (start : Nat) : Except Error (Option (Nat × BatchAt)) :=
  seek (batchAt (FileHandle.ofContents 0 "" contents) contents.length) BatchAt.totalSize
    (reaching offset) (contents.length + 1) start

/-- Followed for its own offset, every entry ends where a scan from the front does. -/
def OffsetIndex.LeadsInto (index : OffsetIndex) (contents : Bytes) : Prop :=
  ∀ entry ∈ index.entries,
    landing contents (index.baseOffset + entry.relativeOffset) entry.position =
      landing contents (index.baseOffset + entry.relativeOffset) 0

instance (index : OffsetIndex) (contents : Bytes) : Decidable (index.LeadsInto contents) :=
  inferInstanceAs (Decidable (∀ entry ∈ index.entries, _ = _))

def servedFrom (contents : Bytes) (maxBytes : Nat) : Option (Nat × BatchAt) → Bytes
  | none => []
  | some place => (contents.drop place.1).take
      (max place.2.totalSize (min maxBytes (contents.length - place.1)))

theorem batch_at_inside (log : FileHandle) (position : Nat) (found : BatchAt)
    (peeked : batchAt log log.size position = .ok (some found)) :
    0 < found.totalSize ∧ position + found.totalSize ≤ log.size := by
  obtain ⟨length, sized, _, _, inside⟩ := batch_at_found peeked log.within
  obtain ⟨_, minimum, _⟩ := total_size_of_ok sized
  rw [length] at minimum
  exact ⟨lt_of_lt_of_le (by decide) minimum, inside⟩

theorem batch_at_bounded (contents : Bytes) (position : Nat) (found : BatchAt)
    (peeked : batchAt (FileHandle.ofContents 0 "" contents) contents.length position = .ok (some found)) :
    0 < found.totalSize ∧ position + found.totalSize ≤ contents.length :=
  batch_at_inside (.ofContents 0 "" contents) position found peeked

/-- A scan for a later offset goes on where the one for an earlier offset stops. -/
theorem landing_later (contents : Bytes) {earlier later : Int} (ordered : earlier ≤ later) (start : Nat) :
    landing contents later start =
      match landing contents earlier start with
      | .error failure => .error failure
      | .ok none => .ok none
      | .ok (some place) => landing contents later place.1 := by
  have narrower : ∀ found, reaching later found = true → reaching earlier found = true := by
    intro found reaches
    simp only [reaching, decide_eq_true_eq] at reaches ⊢
    omega
  have narrowed := @seek_narrow _ _ _ _ (reaching earlier) _ (batch_at_bounded contents) _ narrower start _
    (Nat.lt_succ_self contents.length)
  unfold landing
  rw [narrowed]
  cases seek (batchAt (FileHandle.ofContents 0 "" contents) contents.length) BatchAt.totalSize
      (reaching earlier) (contents.length + 1) start with
  | error failure => rfl
  | ok found => cases found <;> rfl

/-- Where a lookup leads: to what a scan from the front finds, when its entry
does so for its own offset. -/
theorem landing_of_lookup {index : OffsetIndex} {contents : Bytes} (leads : index.LeadsInto contents)
    {offset : Int} {entry : Entry} (inside : index.baseOffset ≤ offset)
    (found : index.lookup offset = .ok entry) :
    landing contents offset entry.position = landing contents offset 0 := by
  obtain ⟨answer, isAnswer, place⟩ := index.lookup_spec offset inside
  rw [found] at isAnswer
  cases isAnswer
  rcases place with ⟨front, _⟩ | ⟨member, reaches, _⟩
  · rw [front]
  · have below : index.baseOffset + entry.relativeOffset ≤ offset := by omega
    rw [landing_later contents below, landing_later contents below 0, leads entry member]

/-- The forward scan of `SegmentBase::read` from a place in the file on. -/
def SegmentBase.scanFrom (segment : SegmentBase) (start : Nat) (offset : Int) (maxBytes : Nat) :
    Except Error FileRange := do
  let limit := segment.log.size
  let (_, found) ← walk (batchAt segment.log limit) BatchAt.totalSize
    (fun (_ : Option FileRange) position found =>
      if offset ≤ found.header.lastOffset then
        .ok (.stop (some ⟨segment.log.fd, position,
          max found.totalSize (min maxBytes (limit - position))⟩))
      else .ok (.next none))
    (limit + 1) start none
  return found.getD ⟨segment.log.fd, limit, 0⟩

def SegmentBase.rangeAt (segment : SegmentBase) (maxBytes : Nat) : Option (Nat × BatchAt) → FileRange
  | none => ⟨segment.log.fd, segment.log.size, 0⟩
  | some place => ⟨segment.log.fd, place.1,
      max place.2.totalSize (min maxBytes (segment.log.size - place.1))⟩

theorem read_scans {segment : SegmentBase} {offset : Int} {entry : Entry}
    (inside : segment.baseOffset ≤ offset) (found : segment.index.lookup offset = .ok entry)
    (maxBytes : Nat) : segment.read offset maxBytes = segment.scanFrom entry.position offset maxBytes := by
  have route : ¬ offset < segment.baseOffset := by omega
  simp only [SegmentBase.read, route, if_false, found, except_ok_bind, SegmentBase.scanFrom]

theorem scan_from_seek (segment : SegmentBase) (start : Nat) (offset : Int) (maxBytes : Nat) :
    segment.scanFrom start offset maxBytes =
      (seek (batchAt segment.log segment.log.size) BatchAt.totalSize (reaching offset)
        (segment.log.size + 1) start).map (segment.rangeAt maxBytes) := by
  have sought := walk_seek (batchAt segment.log segment.log.size) BatchAt.totalSize (reaching offset)
    (fun position found => (⟨segment.log.fd, position,
      max found.totalSize (min maxBytes (segment.log.size - position))⟩ : FileRange))
    (segment.log.size + 1) start
  simp only [reaching, decide_eq_true_eq] at sought
  simp only [SegmentBase.scanFrom]
  cases walked : walk (batchAt segment.log segment.log.size) BatchAt.totalSize
      (fun (_ : Option FileRange) position found =>
        if offset ≤ found.header.lastOffset then
          .ok (.stop (some ⟨segment.log.fd, position,
            max found.totalSize (min maxBytes (segment.log.size - position))⟩))
        else .ok (.next none)) (segment.log.size + 1) start none with
  | error failure =>
      rw [walked] at sought
      cases landed : seek (batchAt segment.log segment.log.size) BatchAt.totalSize (reaching offset)
          (segment.log.size + 1) start with
      | error other =>
          simp only [landed, Except.map] at sought
          cases sought
          rfl
      | ok place =>
          simp [landed, Except.map] at sought
  | ok ends =>
      rw [walked] at sought
      cases landed : seek (batchAt segment.log segment.log.size) BatchAt.totalSize (reaching offset)
          (segment.log.size + 1) start with
      | error other =>
          simp [landed, Except.map] at sought
      | ok place =>
          simp only [landed, Except.map, Except.ok.injEq] at sought
          simp only [except_ok_bind, sought, Except.map]
          cases place with
          | none => rfl
          | some place => rfl

theorem serve_landing {segment : SegmentBase} (full : segment.log.size = segment.log.bytes.length)
    {offset : Int} {entry : Entry} (inside : segment.baseOffset ≤ offset)
    (found : segment.index.lookup offset = .ok entry) (maxBytes : Nat) :
    segment.serve offset maxBytes =
      (landing segment.log.bytes offset entry.position).map (servedFrom segment.log.bytes maxBytes) := by
  have same : seek (batchAt segment.log segment.log.size) BatchAt.totalSize (reaching offset)
      (segment.log.size + 1) entry.position = landing segment.log.bytes offset entry.position := by
    rw [full]
    rfl
  rw [SegmentBase.serve, read_scans inside found, scan_from_seek, same]
  cases landing segment.log.bytes offset entry.position with
  | error failure => rfl
  | ok place =>
      cases place with
      | none => simp [servedFrom, SegmentBase.rangeAt, FileHandle.readAt, Except.map, pure, Except.pure]
      | some place =>
          simp [servedFrom, SegmentBase.rangeAt, FileHandle.readAt, full, Except.map, pure, Except.pure]

/-- With entries that lead somewhere right, a read finds what a scan from the
front finds. -/
theorem serve_leading {segment : SegmentBase} (full : segment.log.size = segment.log.bytes.length)
    (based : segment.index.baseOffset = segment.baseOffset)
    (leads : segment.index.LeadsInto segment.log.bytes) {offset : Int}
    (inside : segment.baseOffset ≤ offset) (maxBytes : Nat) :
    segment.serve offset maxBytes =
      (landing segment.log.bytes offset 0).map (servedFrom segment.log.bytes maxBytes) := by
  obtain ⟨entry, found, _⟩ := segment.index.lookup_spec offset (by omega)
  rw [serve_landing full inside found, landing_of_lookup leads (by omega) found]

theorem frames_at_append (position : Nat) (before after : List Bytes) :
    framesAt position (before ++ after) =
      framesAt position before ++ framesAt (position + before.flatten.length) after := by
  induction before generalizing position with
  | nil => simp [framesAt]
  | cons batch before ih => simp [framesAt, ih, Nat.add_assoc]

theorem frames_unwanted {offset : Int} {batches : List Bytes}
    (below : ∀ batch ∈ batches, lastOf batch < offset) (position : Nat) :
    ∀ frame ∈ framesAt position batches, reaching offset frame = false := by
  induction batches generalizing position with
  | nil => simp [framesAt]
  | cons batch batches ih =>
      simp only [List.forall_mem_cons] at below
      simp only [framesAt, List.forall_mem_cons]
      refine ⟨?_, ih below.2 _⟩
      have short : (headerOf batch).lastOffset < offset := below.1
      simp only [reaching, decide_eq_false_iff_not]
      omega

theorem landing_held {log : FileHandle} (full : log.size = log.bytes.length)
    {before after : List Bytes} (holds : HoldsBatches log (before ++ after)) (offset : Int) :
    landing log.bytes offset before.flatten.length =
      .ok (((framesAt before.flatten.length after).find? (reaching offset)).map fun frame =>
        (before.flatten.length + totalWidth BatchAt.totalSize
          ((framesAt before.flatten.length after).takeWhile (!reaching offset ·)), frame)) := by
  have laid := laid_out_batches holds
  have count : after.length ≤ after.flatten.length :=
    count_le_bytes fun batch member => (holds.intact batch (by simp [member])).positive
  have within := holds.within
  simp only [List.flatten_append, List.length_append] at within
  have sought := @seek_laid_out _ _ (batchAt log log.size) BatchAt.totalSize (reaching offset) _
    (log.size + 1) _ laid (by simp only [frames_at_length]; omega)
  rw [← sought, full]
  rfl

theorem landing_skip {log : FileHandle} (full : log.size = log.bytes.length)
    {before after : List Bytes} (holds : HoldsBatches log (before ++ after)) {offset : Int}
    (below : ∀ batch ∈ before, lastOf batch < offset) :
    landing log.bytes offset before.flatten.length = landing log.bytes offset 0 := by
  have front := @landing_held log full [] (before ++ after) holds offset
  have unwanted := frames_unwanted below 0
  have none : (framesAt 0 before).find? (reaching offset) = none :=
    List.find?_eq_none.mpr fun frame member => by simp [unwanted frame member]
  have passed : ∀ frame ∈ framesAt 0 before, (!reaching offset frame) = true :=
    fun frame member => by simp [unwanted frame member]
  simp only [List.flatten_nil, List.length_nil, frames_at_append, Nat.zero_add, List.find?_append, none,
    Option.none_or, List.takeWhile_append_of_pos passed] at front
  rw [landing_held full holds, front]
  have widths : ∀ frames : List BatchAt, totalWidth BatchAt.totalSize (framesAt 0 before ++ frames) =
      before.flatten.length + totalWidth BatchAt.totalSize frames := by
    intro frames
    rw [← total_width_frames 0 before]
    simp [totalWidth]
  simp only [widths]

theorem landing_front {log : FileHandle} (full : log.size = log.bytes.length) {batches : List Bytes}
    (holds : HoldsBatches log batches) (offset : Int) :
    ∃ found, landing log.bytes offset 0 = .ok found :=
  ⟨_, @landing_held log full [] batches holds offset⟩

theorem landing_place {log : FileHandle} (full : log.size = log.bytes.length) {batches : List Bytes}
    (holds : HoldsBatches log batches) (offset : Int) :
    landing log.bytes offset 0 = .ok none ∨
      ∃ before batch after, batches = before ++ batch :: after ∧
        landing log.bytes offset 0 = .ok (some (before.flatten.length,
          ⟨headerOf batch, before.flatten.length, batch.length⟩)) := by
  by_cases reached : ∃ batch ∈ batches, offset ≤ lastOf batch
  · obtain ⟨before, batch, after, split, below, reaches, _⟩ := range_from_reaching reached
    refine .inr ⟨before, batch, after, split, ?_⟩
    rw [← landing_skip full (split ▸ holds) below, landing_held full (split ▸ holds)]
    have here : reaching offset ⟨headerOf batch, before.flatten.length, batch.length⟩ = true :=
      decide_eq_true reaches
    simp only [framesAt, List.find?_cons, List.takeWhile_cons, here, Bool.not_true, Bool.false_eq_true,
      if_false, Option.map_some, totalWidth, List.map_nil, List.sum_nil, Nat.add_zero]
  · left
    have front := @landing_held log full [] batches holds offset
    have below : ∀ batch ∈ batches, lastOf batch < offset := by
      intro batch member
      by_contra short
      exact reached ⟨batch, member, Int.not_lt.mp short⟩
    have unwanted := frames_unwanted below 0
    have none : (framesAt 0 batches).find? (reaching offset) = none :=
      List.find?_eq_none.mpr fun frame member => by simp [unwanted frame member]
    simpa [none] using front

/-- The walk that finds the end of a file of batches, from a place that leads
where the front does. What it passes on the way there lies below the offset. -/
theorem end_state_leading {log : FileHandle} (full : log.size = log.bytes.length) {batches : List Bytes}
    (holds : HoldsBatches log batches) {base offset top : Int} {start : Nat}
    (leads : landing log.bytes offset start = landing log.bytes offset 0) (above : base ≤ top)
    (ends : endOffset base batches ≤ top) (below : offset ≤ top) :
    ∃ position state, state.next ≤ top ∧
      walk (batchAt log log.size) BatchAt.totalSize
        (fun state _ found => .ok (.next (SegmentBase.EndState.advance state found))) (log.size + 1) start
        ⟨base, -1⟩ = .ok (position, state) := by
  obtain ⟨landed, lands⟩ := landing_front full holds offset
  let onward (state : SegmentBase.EndState) : Prop := state.next ≤ top
  have passes : ∀ state found, onward state → reaching offset found = false →
      onward (SegmentBase.EndState.advance state found) := by
    intro state found _ unwanted
    simp only [reaching, decide_eq_false_iff_not] at unwanted
    simp only [onward, SegmentBase.EndState.advance]
    omega
  have bounded := batch_at_bounded log.bytes
  rw [← full] at bounded
  have sought : seek (batchAt log log.size) BatchAt.totalSize (reaching offset) (log.size + 1) start =
      .ok landed := by
    rw [← lands, ← leads, full]
    rfl
  obtain ⟨mid, low, walked⟩ := @walk_sought _ _ _ (batchAt log log.size) BatchAt.totalSize
    (fun state _ found => .ok (.next (SegmentBase.EndState.advance state found))) _ log.size bounded
    SegmentBase.EndState.advance (fun _ _ _ => rfl) onward passes start (log.size + 1) ⟨base, -1⟩ landed
    above (Nat.lt_succ_of_le (Nat.sub_le _ _)) sought
  rcases walked with ⟨_, position, walked⟩ | ⟨place, left, isPlace, enough, walked⟩
  · exact ⟨position, mid, low, walked⟩
  -- behind the place are batches of the file, and nothing else
  rcases landing_place full holds offset with none | ⟨before, batch, after, split, at_⟩
  · rw [lands, isPlace] at none
    cases none
  rw [lands, isPlace] at at_
  cases at_
  subst split
  have laid := laid_out_batches holds
  have count : (batch :: after).length ≤ (batch :: after).flatten.length :=
    count_le_bytes fun other member => (holds.intact other (List.mem_append_right _ member)).positive
  have within := holds.within
  rw [List.flatten_append, List.length_append] at within
  simp only at enough
  rw [walked, walk_laid_out _ _ _ _ laid (by rw [frames_at_length]; omega),
    visit_all_fold _ _ _ _ _ SegmentBase.EndState.advance (fun _ _ _ _ => rfl)]
  refine ⟨_, _, ?_, rfl⟩
  rw [fold_frames, end_offset_occupied mid.next (endOffset base before) (by simp), ← end_offset_append]
  exact ends

/-- A file of batches opens with any index that leads into it, and ends no
higher than its batches and the entries do. -/
theorem open_leading {fd : Int} {path : String} {base top : Int} {bytes : Bytes} {index : OffsetIndex}
    {batches : List Bytes} (holds : HoldsBatches (FileHandle.ofContents fd path bytes) batches)
    (based : index.baseOffset = base) (leads : index.LeadsInto bytes) (above : base ≤ top)
    (ends : endOffset base batches ≤ top)
    (below : ∀ entry ∈ index.entries, base + entry.relativeOffset ≤ top) :
    ∃ opened, SealedSegment.open fd path base bytes (some index) = .ok opened ∧ opened.nextOffset ≤ top := by
  subst based
  obtain ⟨entry, found, _, place⟩ := index.openSealed.lookup_last
  have own : landing bytes (index.baseOffset + entry.relativeOffset) entry.position =
        landing bytes (index.baseOffset + entry.relativeOffset) 0 ∧
      index.baseOffset + entry.relativeOffset ≤ top := by
    rcases place with rfl | member
    · exact ⟨rfl, by simpa using above⟩
    · exact ⟨leads entry member, below entry member⟩
  obtain ⟨position, state, low, walked⟩ :=
    @end_state_leading (FileHandle.ofContents fd path bytes) rfl batches holds index.baseOffset _ top
      entry.position own.1 above ends own.2
  have lastEntry : index.openSealed.lookup (index.baseOffset + kMaxUint32) = .ok entry := found
  simp only [SealedSegment.open, SegmentBase.deriveEndStateFromLog, lastEntry, except_ok_bind, walked]
  exact ⟨_, rfl, low⟩

theorem held_leads {segment : SealedSegment} {batches : List Bytes} (holds : SealedHolds segment batches) :
    segment.index.LeadsInto segment.log.bytes := by
  intro entry member
  obtain ⟨before, batch, after, split, position, names⟩ := holds.named entry member
  have ascending := holds.ascending
  have file := holds.toHoldsBatches
  rw [split] at ascending file
  rw [position, holds.based, ← names]
  exact landing_skip holds.full file fun earlier inFront => last_lt_base ascending inFront

theorem served_landing {contents : Bytes} {offset : Int} {first second : Nat}
    {firstFound secondFound : Option (Nat × BatchAt)}
    (firstLands : landing contents offset first = .ok firstFound)
    (secondLands : landing contents offset second = .ok secondFound)
    (same : servedFrom contents contents.length firstFound =
      servedFrom contents contents.length secondFound) : firstFound = secondFound := by
  have whole : ∀ {start : Nat} {place : Nat × BatchAt}, landing contents offset start = .ok (some place) →
      place.1 < contents.length ∧ servedFrom contents contents.length (some place) = contents.drop place.1 ∧
        batchAt (FileHandle.ofContents 0 "" contents) contents.length place.1 = .ok (some place.2) := by
    intro start place lands
    obtain ⟨peeked, _⟩ := seek_found _ _ _ lands
    obtain ⟨positive, inside⟩ := batch_at_bounded contents _ _ peeked
    refine ⟨by omega, ?_, peeked⟩
    simp only [servedFrom]
    rw [List.take_of_length_le]
    simp only [List.length_drop]
    omega
  cases firstFound with
  | none =>
      cases secondFound with
      | none => rfl
      | some place =>
          obtain ⟨inside, served, _⟩ := whole secondLands
          rw [served] at same
          have length := congrArg List.length same
          simp only [servedFrom, List.length_nil, List.length_drop] at length
          omega
  | some firstPlace =>
      obtain ⟨firstInside, firstServed, firstPeeked⟩ := whole firstLands
      rw [firstServed] at same
      have length := congrArg List.length same
      cases secondFound with
      | none =>
          simp only [servedFrom, List.length_nil, List.length_drop] at length
          omega
      | some secondPlace =>
          obtain ⟨secondInside, secondServed, secondPeeked⟩ := whole secondLands
          rw [secondServed] at length
          simp only [List.length_drop] at length
          have position : firstPlace.1 = secondPlace.1 := by omega
          rw [position, secondPeeked] at firstPeeked
          simp only [Except.ok.injEq, Option.some.injEq] at firstPeeked
          exact congrArg some (Prod.ext position firstPeeked.symm)

/-- A read at an entry's own offset, with no limit, tells whether the entry leads
somewhere right. -/
theorem lands_of_serving {segment : SegmentBase} (full : segment.log.size = segment.log.bytes.length)
    (based : segment.index.baseOffset = segment.baseOffset) {entry : Entry}
    (member : entry ∈ segment.index.entries) {found : Option (Nat × BatchAt)}
    (front : landing segment.log.bytes (segment.baseOffset + entry.relativeOffset) 0 = .ok found)
    (served : segment.serve (segment.baseOffset + entry.relativeOffset) segment.log.bytes.length =
      .ok (servedFrom segment.log.bytes segment.log.bytes.length found)) :
    landing segment.log.bytes (segment.baseOffset + entry.relativeOffset) entry.position =
      landing segment.log.bytes (segment.baseOffset + entry.relativeOffset) 0 := by
  have own := segment.index.lookup_own member
  rw [based] at own
  rw [serve_landing full (by omega) own] at served
  cases landed : landing segment.log.bytes (segment.baseOffset + entry.relativeOffset) entry.position with
  | error failure => simp [landed, Except.map] at served
  | ok place =>
      simp only [landed, Except.map, Except.ok.injEq] at served
      rw [front, served_landing landed front served]

/-- Two segments over the same file of batches, each with an index that leads
into it. -/
theorem leading_serves_as {first second : SegmentBase} {batches : List Bytes}
    (holds : HoldsBatches second.log batches) (full : second.log.size = second.log.bytes.length)
    (firstFull : first.log.size = first.log.bytes.length) (bytes : first.log.bytes = second.log.bytes)
    (base : first.baseOffset = second.baseOffset) (firstBased : first.index.baseOffset = first.baseOffset)
    (secondBased : second.index.baseOffset = second.baseOffset)
    (firstLeads : first.index.LeadsInto first.log.bytes)
    (secondLeads : second.index.LeadsInto second.log.bytes) : first.ServesAs second := by
  refine ⟨base, ?_⟩
  intro offset maxBytes inside
  obtain ⟨found, lands⟩ := landing_front full holds offset
  rw [serve_leading firstFull firstBased firstLeads (base ▸ inside), bytes,
    serve_leading full secondBased secondLeads inside, lands]
  exact ⟨_, rfl, rfl⟩

theorem serve_base {segment : SegmentBase} {batches : List Bytes} (holds : HoldsBatches segment.log batches)
    (full : segment.log.size = segment.log.bytes.length) (ascending : Ascending segment.baseOffset batches)
    (whole : batches = [] → segment.log.bytes = [])
    (based : segment.index.baseOffset = segment.baseOffset)
    (later : ∀ entry ∈ segment.index.entries, 0 < entry.relativeOffset) {maxBytes : Nat}
    (enough : segment.log.bytes.length ≤ maxBytes) :
    segment.serve segment.baseOffset maxBytes = .ok segment.log.bytes := by
  obtain ⟨entry, found, place⟩ := segment.index.lookup_spec segment.baseOffset based.le
  have front : entry = {} := by
    rcases place with ⟨isFront, _⟩ | ⟨member, atMost, _⟩
    · exact isFront
    · have above := later entry member
      omega
  rw [serve_landing full (Int.le_refl _) found, front]
  have landed := @landing_held segment.log full [] batches holds segment.baseOffset
  simp only [List.flatten_nil, List.length_nil, Nat.zero_add] at landed
  rw [landed]
  cases batches with
  | nil => simp [framesAt, servedFrom, Except.map, whole rfl]
  | cons batch batches =>
      obtain ⟨above, spans, _⟩ := ascending
      have here : reaching segment.baseOffset ⟨headerOf batch, 0, batch.length⟩ = true :=
        decide_eq_true (show segment.baseOffset ≤ lastOf batch by omega)
      simp only [framesAt, List.find?_cons, List.takeWhile_cons, here, Bool.not_true, Bool.false_eq_true,
        if_false, Option.map_some, totalWidth, List.map_nil, List.sum_nil, servedFrom, Except.map,
        List.drop_zero]
      rw [List.take_of_length_le]
      omega

theorem entries_later {segment : SealedSegment} {batches : List Bytes} (holds : SealedHolds segment batches) :
    ∀ entry ∈ segment.index.entries, 0 < entry.relativeOffset ∧
      segment.baseOffset + entry.relativeOffset < segment.nextOffset := by
  intro entry member
  obtain ⟨before, batch, after, split, position, names⟩ := holds.named entry member
  have inside := (segment.index.bounded entry member).1
  have ascending := holds.ascending
  have last := last_lt_end ascending (by simp [split] : batch ∈ batches)
  have spans := start_le_base ascending (by simp [split] : batch ∈ batches)
  rw [← holds.ends] at last
  rw [split] at ascending
  cases before with
  | nil => simp [position] at inside
  | cons first before =>
      have earlier := last_lt_base ascending (List.mem_cons_self)
      have starts := start_le_base ascending (List.mem_cons_self)
      omega

end DariyaKyu.Storage

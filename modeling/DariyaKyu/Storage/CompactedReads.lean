import DariyaKyu.Storage.Cleaning
import DariyaKyu.Storage.LogRuns
import Mathlib.Data.List.TakeWhile

/-!
Reading a log with holes. A read is routed to the last segment that begins at
or below the offset, and looks no further. That is the right segment as long as
every segment with batches behind it ends where the next one begins; compaction
can take the last batches of a segment and leave a hole that answers nothing.
-/

namespace DariyaKyu.Storage

set_option autoImplicit false

/-- Every segment with batches behind it ends where the next one begins. -/
def NoGapUpTo (occupied : Bool) (newest : Int) : List SealedSegment → Prop
  | [] => True
  | segment :: rest =>
      ((rest ≠ [] ∨ occupied = true) → segment.nextOffset = nextBase newest rest) ∧
        NoGapUpTo occupied newest rest

def Log.NoTailGap (log : Log) : Prop :=
  NoGapUpTo (!(batchesIn log.active.toSegmentBase).isEmpty) log.active.baseOffset log.sealedMap

/-- The range starts at this batch of one of the log's files, and holds all of it. -/
def Log.StartsAt (log : Log) (range : FileRange) (batch : Bytes) : Prop :=
  ∃ owner ∈ log.active.toSegmentBase :: log.sealedMap, ∃ before after,
    batchesIn owner = before ++ batch :: after ∧ range.fd = owner.log.fd ∧
      range.position = before.flatten.length ∧ batch.length ≤ range.length

/-- As long as a batch reaches the offset, a read there starts at the first one
that does. -/
def Log.ReadsOn (log : Log) : Prop :=
  ∀ offset maxBytes, log.logStartOffset ≤ offset → offset < log.logEndOffset →
    (∃ batch ∈ log.batches, offset ≤ lastOf batch) →
    ∃ range first, log.read offset maxBytes = .ok ⟨.none, range⟩ ∧ 0 < range.length ∧
      log.batches.find? (offset ≤ lastOf ·) = some first ∧ log.StartsAt range first

instance decidableNoGapUpTo (occupied : Bool) (newest : Int) :
    (segments : List SealedSegment) → Decidable (NoGapUpTo occupied newest segments)
  | [] => inferInstanceAs (Decidable True)
  | _ :: rest =>
      have := decidableNoGapUpTo occupied newest rest
      inferInstanceAs (Decidable ((_ ∨ _ → _) ∧ _))

instance (log : Log) : Decidable log.NoTailGap := decidableNoGapUpTo _ _ _

theorem no_gap_at {occupied : Bool} {newest : Int} {ahead behind : List SealedSegment}
    {segment : SealedSegment} (noGap : NoGapUpTo occupied newest (ahead ++ segment :: behind))
    (followed : behind ≠ [] ∨ occupied = true) : segment.nextOffset = nextBase newest behind := by
  induction ahead with
  | nil => exact noGap.1 followed
  | cons first ahead ih => exact ih noGap.2

theorem no_gap_of_at {occupied : Bool} {newest : Int} {segments : List SealedSegment}
    (joined : ∀ ahead segment behind, segments = ahead ++ segment :: behind →
      behind ≠ [] ∨ occupied = true → segment.nextOffset = nextBase newest behind) :
    NoGapUpTo occupied newest segments := by
  induction segments with
  | nil => trivial
  | cons segment rest ih =>
      refine ⟨joined [] segment rest rfl, ih ?_⟩
      intro ahead other behind split
      exact joined (segment :: ahead) other behind (by simp [split])

theorem range_from_reaching {batches : List Bytes} {offset : Int}
    (reaches : ∃ batch ∈ batches, offset ≤ lastOf batch) :
    ∃ before first after, batches = before ++ first :: after ∧
      (∀ batch ∈ before, lastOf batch < offset) ∧ offset ≤ lastOf first ∧
      ∀ log maxBytes, rangeFrom log batches offset maxBytes =
        ⟨log.fd, before.flatten.length,
          max first.length (min maxBytes (log.size - before.flatten.length))⟩ := by
  have split := List.takeWhile_append_dropWhile (p := fun batch => decide (lastOf batch < offset))
    (l := batches)
  cases reached : batches.dropWhile (fun batch => decide (lastOf batch < offset)) with
  | nil =>
      obtain ⟨batch, member, above⟩ := reaches
      have below := List.dropWhile_eq_nil_iff.mp reached batch member
      simp only [decide_eq_true_eq] at below
      omega
  | cons first after =>
      rw [reached] at split
      refine ⟨_, first, after, split.symm, ?_, ?_, ?_⟩
      · intro batch member
        simpa using List.mem_takeWhile_imp member
      · have occupied : batches.dropWhile (fun batch => decide (lastOf batch < offset)) ≠ [] := by
          simp [reached]
        have stops := List.head_dropWhile_not (fun batch => decide (lastOf batch < offset)) occupied
        simp only [reached, List.head_cons, decide_eq_false_iff_not] at stops
        omega
      · intro log maxBytes
        simp only [rangeFrom, reached]

theorem range_from_below {batches : List Bytes} {offset : Int}
    (below : ∀ batch ∈ batches, lastOf batch < offset) (log : FileHandle) (maxBytes : Nat) :
    rangeFrom log batches offset maxBytes = ⟨log.fd, log.size, 0⟩ := by
  have nothing : batches.dropWhile (fun batch => decide (lastOf batch < offset)) = [] :=
    List.dropWhile_eq_nil_iff.mpr (by simpa using below)
  simp only [rangeFrom, nothing]

theorem route_split {newest : Int} {segments : List SealedSegment} {offset : Int}
    (linked : Linked (· ≤ ·) newest segments) (starts : nextBase newest segments ≤ offset)
    (ends : offset < newest) :
    ∃ ahead segment behind, segments = ahead ++ segment :: behind ∧ segment.baseOffset ≤ offset ∧
      offset < nextBase newest behind := by
  induction segments with
  | nil =>
      simp only [nextBase, List.head?_nil, Option.map_none, Option.getD_none] at starts
      omega
  | cons segment rest ih =>
      by_cases here : offset < nextBase newest rest
      · exact ⟨[], segment, rest, rfl, starts, here⟩
      · obtain ⟨ahead, other, behind, split, below, above⟩ := ih linked.2.2 (by omega)
        exact ⟨segment :: ahead, other, behind, by simp [split], below, above⟩

theorem linked_behind {newest : Int} {ahead behind : List SealedSegment} {segment : SealedSegment}
    (linked : Linked (· ≤ ·) newest (ahead ++ segment :: behind)) :
    segment.nextOffset ≤ nextBase newest behind ∧ nextBase newest behind ≤ newest := by
  induction ahead with
  | nil => exact ⟨linked.2.1, next_base_le linked.2.2⟩
  | cons first ahead ih => exact ih linked.2.2

theorem routed_to {log : Log} {ahead behind : List SealedSegment} {segment : SealedSegment}
    {offset : Int} (linked : Linked (· ≤ ·) log.active.baseOffset log.sealedMap)
    (split : log.sealedMap = ahead ++ segment :: behind) (starts : segment.baseOffset ≤ offset)
    (ends : offset < nextBase log.active.baseOffset behind) : log.routed offset = some segment := by
  rw [split] at linked
  have front : ∀ other ∈ ahead ++ [segment], decide (other.baseOffset ≤ offset) = true := by
    intro other member
    simp only [decide_eq_true_eq]
    rcases List.mem_append.mp member with earlier | same
    · have := linked_before linked earlier
      omega
    · simp only [List.mem_singleton] at same
      rw [same]
      exact starts
  have stops : behind.takeWhile (fun other => decide (other.baseOffset ≤ offset)) = [] := by
    cases behind with
    | nil => rfl
    | cons second rest =>
        simp only [nextBase, List.head?_cons, Option.map_some, Option.getD_some] at ends
        rw [List.takeWhile_cons_of_neg]
        simp only [decide_eq_true_eq]
        omega
  have shifted : ahead ++ segment :: behind = (ahead ++ [segment]) ++ behind := by simp
  rw [Log.routed, split, shifted, List.takeWhile_append_of_pos front, stops]
  simp

theorem sealed_read {log : Log} (holds : LogHolds log) {ahead behind : List SealedSegment}
    {segment : SealedSegment} {offset : Int} (split : log.sealedMap = ahead ++ segment :: behind)
    (starts : segment.baseOffset ≤ offset) (ends : offset < nextBase log.active.baseOffset behind)
    (maxBytes : Nat) :
    log.read offset maxBytes =
      .ok ⟨.none, rangeFrom segment.log (batchesIn segment) offset maxBytes⟩ := by
  have linked := holds.linked
  have bounds := linked_behind (split ▸ linked)
  have logEnd := start_le_end holds.activeHolds.consecutive.ascending
  rw [← holds.activeHolds.ends, ← holds.ends] at logEnd
  have segmentHolds := holds.sealedHolds segment (by simp [split])
  rw [Log.read, if_neg (by omega), if_neg (by omega), if_neg (by omega),
    routed_to linked split starts ends]
  simp only [read_spec segmentHolds.toSegmentHolds starts, except_ok_bind]
  rfl

theorem active_read {log : Log} (holds : LogHolds log) {offset : Int}
    (starts : log.active.baseOffset ≤ offset) (ends : offset < log.logEndOffset) (maxBytes : Nat) :
    log.read offset maxBytes =
      .ok ⟨.none, rangeFrom log.active.log (batchesIn log.active.toSegmentBase) offset maxBytes⟩ := by
  rw [Log.read, if_neg (by omega), if_neg (by omega), if_pos starts]
  simp only [read_spec holds.activeHolds.segmentHolds starts, except_ok_bind]
  rfl

theorem reached_below_end {start offset : Int} {batches : List Bytes}
    (starts : start ≤ offset) (ends : offset < endOffset start batches) :
    ∃ batch ∈ batches, offset ≤ lastOf batch := by
  cases last : batches.getLast? with
  | none =>
      rw [List.getLast?_eq_none_iff] at last
      simp only [last, endOffset, List.foldl_nil] at ends
      omega
  | some batch =>
      obtain ⟨front, split⟩ := List.getLast?_eq_some_iff.mp last
      rw [split, end_offset_concat] at ends
      exact ⟨batch, by simp [split], by omega⟩

theorem sealed_batches_below {log : Log} (holds : LogHolds log) {ahead behind : List SealedSegment}
    {segment : SealedSegment} (split : log.sealedMap = ahead ++ segment :: behind) {batch : Bytes}
    (member : batch ∈ ahead.flatMap batchesIn) : lastOf batch < segment.baseOffset := by
  obtain ⟨owner, earlier, inside⟩ := List.mem_flatMap.mp member
  have before := linked_before (split ▸ holds.linked) earlier
  have ownerHolds := holds.sealedHolds owner (by simp [split, earlier])
  have below := last_lt_end ownerHolds.ascending inside
  rw [← ownerHolds.ends] at below
  omega

theorem sealed_batches_before_active {log : Log} (holds : LogHolds log) {batch : Bytes}
    (member : batch ∈ log.sealedMap.flatMap batchesIn) : lastOf batch < log.active.baseOffset := by
  obtain ⟨owner, inMap, inside⟩ := List.mem_flatMap.mp member
  have before := linked_below holds.linked inMap
  have ownerHolds := holds.sealedHolds owner inMap
  have below := last_lt_end ownerHolds.ascending inside
  rw [← ownerHolds.ends] at below
  omega

theorem find_reaching {before after rest : List Bytes} {first : Bytes} {offset : Int}
    {front : List Bytes} (frontBelow : ∀ batch ∈ front, lastOf batch < offset)
    (below : ∀ batch ∈ before, lastOf batch < offset) (reaches : offset ≤ lastOf first) :
    (front ++ ((before ++ first :: after) ++ rest)).find? (offset ≤ lastOf ·) = some first := by
  have skipped : ∀ skipped : List Bytes, (∀ batch ∈ skipped, lastOf batch < offset) →
      skipped.find? (offset ≤ lastOf ·) = none := by
    intro skipped allBelow
    apply List.find?_eq_none.mpr
    intro batch member
    have := allBelow batch member
    simp only [decide_eq_true_eq]
    omega
  rw [List.find?_append, skipped front frontBelow, List.append_assoc, List.find?_append,
    skipped before below]
  simp [reaches]

/-- A segment that ends below the next one answers nothing at its end. -/
theorem gap_reads_empty {log : Log} (holds : LogHolds log) {ahead behind : List SealedSegment}
    {segment : SealedSegment} (split : log.sealedMap = ahead ++ segment :: behind)
    (gap : segment.nextOffset < nextBase log.active.baseOffset behind) (maxBytes : Nat) :
    log.read segment.nextOffset maxBytes = .ok ⟨.none, ⟨segment.log.fd, segment.log.size, 0⟩⟩ := by
  have inMap : segment ∈ log.sealedMap := by simp [split]
  have segmentHolds := holds.sealedHolds segment inMap
  have spans := (linked_below holds.linked inMap).1
  rw [sealed_read holds split spans.le gap, range_from_below]
  intro batch member
  rw [segmentHolds.ends]
  exact last_lt_end segmentHolds.ascending member

/-- What is behind a segment begins with a batch of the next one. -/
theorem followed_reaches {log : Log} (holds : LogHolds log) {ahead behind : List SealedSegment}
    {segment : SealedSegment} (split : log.sealedMap = ahead ++ segment :: behind)
    (followed : behind ≠ [] ∨ (!(batchesIn log.active.toSegmentBase).isEmpty) = true) :
    ∃ batch ∈ log.batches, segment.nextOffset ≤ lastOf batch := by
  have linked := split ▸ holds.linked
  have bounds := linked_behind linked
  cases behind with
  | nil =>
      have occupied : batchesIn log.active.toSegmentBase ≠ [] := by simpa using followed
      have ascending := holds.activeHolds.consecutive.ascending
      obtain ⟨batch, member⟩ := List.exists_mem_of_ne_nil _ occupied
      have above := start_le_base ascending member
      simp only [nextBase, List.head?_nil, Option.map_none, Option.getD_none] at bounds
      exact ⟨batch, List.mem_append_right _ member, by omega⟩
  | cons second rest =>
      have inMap : second ∈ log.sealedMap := by simp [split]
      have secondHolds := holds.sealedHolds second inMap
      have spans := (linked_below holds.linked inMap).1
      rw [secondHolds.ends] at spans
      obtain ⟨batch, member, reaches⟩ := reached_below_end (le_refl _) spans
      simp only [nextBase, List.head?_cons, Option.map_some, Option.getD_some] at bounds
      exact ⟨batch, List.mem_append_left _ (List.mem_flatMap.mpr ⟨second, inMap, member⟩), by omega⟩

theorem start_below {log : Log} (holds : LogHolds log) {ahead behind : List SealedSegment}
    {segment : SealedSegment} (split : log.sealedMap = ahead ++ segment :: behind) :
    log.logStartOffset ≤ segment.baseOffset := by
  cases ahead with
  | nil => simp [Log.logStartOffset, split]
  | cons first ahead =>
      have linked := split ▸ holds.linked
      have before := linked_before linked (List.mem_cons_self)
      simp only [Log.logStartOffset, split, List.cons_append, List.head?_cons, Option.map_some,
        Option.getD_some]
      omega

/-- Reads go on over every hole exactly when no segment has one at its end. -/
theorem reads_on_iff {log : Log} (holds : LogHolds log) : log.ReadsOn ↔ log.NoTailGap := by
  have logEnd := start_le_end holds.activeHolds.consecutive.ascending
  rw [← holds.activeHolds.ends, ← holds.ends] at logEnd
  constructor
  · intro readsOn
    apply no_gap_of_at
    intro ahead segment behind split followed
    have bounds := linked_behind (split ▸ holds.linked)
    have inMap : segment ∈ log.sealedMap := by simp [split]
    have spans := (linked_below holds.linked inMap).1
    have starts := start_below holds split
    by_contra gap
    obtain ⟨range, first, read, occupied, _⟩ := readsOn segment.nextOffset 0 (by omega) (by omega)
      (followed_reaches holds split followed)
    rw [gap_reads_empty holds split (by omega) 0] at read
    cases read
    exact absurd occupied (Nat.lt_irrefl 0)
  · intro noGap offset maxBytes starts ends reached
    by_cases inActive : log.active.baseOffset ≤ offset
    · rw [holds.ends, holds.activeHolds.ends] at ends
      obtain ⟨before, first, after, split, below, reaches, range⟩ :=
        range_from_reaching (reached_below_end inActive ends)
      rw [← holds.activeHolds.ends, ← holds.ends] at ends
      have intact := holds.activeHolds.intact first (by simp [split])
      refine ⟨_, first, by rw [active_read holds inActive ends, range], ?_, ?_, ?_⟩
      · have positive := intact.positive
        simp only
        omega
      · have found := @find_reaching before after [] first offset (log.sealedMap.flatMap batchesIn)
          (fun batch member => lt_of_lt_of_le (sealed_batches_before_active holds member) inActive)
          below reaches
        rwa [List.append_nil, ← split] at found
      · exact ⟨_, List.mem_cons_self, before, after, split, rfl, rfl, le_max_left _ _⟩
    · obtain ⟨ahead, segment, behind, split, base, above⟩ :=
        route_split holds.linked (by exact starts) (Int.not_le.mp inActive)
      have segmentHolds := holds.sealedHolds segment (by simp [split])
      have frontBelow : ∀ batch ∈ ahead.flatMap batchesIn, lastOf batch < offset :=
        fun batch member => lt_of_lt_of_le (sealed_batches_below holds split member) base
      have batches : log.batches = ahead.flatMap batchesIn ++ (batchesIn segment ++
          (behind.flatMap batchesIn ++ batchesIn log.active.toSegmentBase)) := by
        simp [Log.batches, split]
      have inside : ∃ batch ∈ batchesIn segment, offset ≤ lastOf batch := by
        by_contra outside
        have beyond : segment.nextOffset ≤ offset := by
          by_contra short
          rw [segmentHolds.ends] at short
          exact outside (reached_below_end base (Int.not_le.mp short))
        by_cases followed : behind ≠ [] ∨ (!(batchesIn log.active.toSegmentBase).isEmpty) = true
        · rw [Log.NoTailGap, split] at noGap
          have joined := no_gap_at noGap followed
          omega
        · -- nothing behind the segment, so the batch that reaches is in it or ahead of it
          have nothing : behind = [] ∧ batchesIn log.active.toSegmentBase = [] := by
            simpa using followed
          obtain ⟨batch, member, reaches⟩ := reached
          rw [batches, nothing.1, nothing.2] at member
          simp only [List.flatMap_nil, List.append_nil, List.mem_append] at member
          rcases member with earlier | here
          · have := frontBelow batch earlier
            omega
          · exact outside ⟨batch, here, reaches⟩
      obtain ⟨before, first, after, inSegment, below, reaches, range⟩ := range_from_reaching inside
      have intact := segmentHolds.intact first (by simp [inSegment])
      refine ⟨_, first, by rw [sealed_read holds split base above, range], ?_, ?_, ?_⟩
      · have positive := intact.positive
        simp only
        omega
      · rw [batches, inSegment]
        exact find_reaching frontBelow below reaches
      · exact ⟨segment, List.mem_cons_of_mem _ (by simp [split]), before, after, inSegment, rfl, rfl,
          le_max_left _ _⟩

/-- Appends of whole batches in order that do not fail and whose offsets an
int64 holds, and every other action. -/
def Log.Admits (log : Log) : LogAction → Prop
  | .append batchBytes _ _ fault =>
      FormedBatch batchBytes ∧ fault = none ∧
        log.logEndOffset + (headerOf batchBytes).lastOffsetDelta < 2 ^ 63
  | _ => True

theorem FormedBatch.stamped {batch : Bytes} (formed : FormedBatch batch) {base : Int}
    (range : FitsSigned 64 base) : FormedBatch (stamped batch base) where
  toIntactBatch := formed.toIntactBatch.stamped base
  formed := by
    intro plain
    have same : (headerOf (DariyaKyu.Storage.stamped batch base)).compression =
        (headerOf batch).compression := by
      simp only [header_of_stamped_in_range _ _ range, BatchHeader.compression]
    obtain ⟨records, wellFormed⟩ := formed.formed (same ▸ plain)
    exact ⟨_, wellFormed.stamp base range⟩

theorem Cleanable.follow {log next : Log} (cleanable : Cleanable log) (holds : LogHolds next)
    (batches : ∀ batch ∈ next.batches, batch ∈ log.batches ∨ FormedBatch batch)
    (roll : next.config.roll = log.config.roll) (bounded : next.logEndOffset ≤ 2 ^ 63) :
    Cleanable next where
  toLogHolds := holds
  formed := fun batch member => (batches batch member).elim (cleanable.formed batch) id
  room := roll ▸ cleanable.room
  bounded := bounded

/-- An append to a log with nothing left over puts one stamped batch behind the
others, or throws and leaves them. -/
theorem settled_append {log : Log} (settled : LogSettled log) {batchBytes : Bytes}
    (intact : IntactBatch batchBytes) (rollMs clockMs : Int) :
    (∃ next, log.append batchBytes rollMs clockMs none = .returned log.logEndOffset next ∧
      next.tp = log.tp ∧ FitsSigned 64 log.logEndOffset ∧
      next.batches = log.batches ++ [stamped batchBytes log.logEndOffset] ∧
      next.logEndOffset = lastOf (stamped batchBytes log.logEndOffset) + 1) ∨
    ∃ failure next, log.append batchBytes rollMs clockMs none = .threw failure next ∧
      next.tp = log.tp ∧ next.batches = log.batches ∧ next.logEndOffset = log.logEndOffset := by
  obtain ⟨undangling, quiet⟩ := settled_clear settled rollMs
  obtain ⟨rolled, moved, ends⟩ := append_spec settled.toLogHolds intact clockMs none undangling quiet
  obtain ⟨_, again, _, named, batches, same, _⟩ := maybe_roll_spec settled.toLogHolds undangling quiet
  rw [moved] at again
  cases again
  rcases ends with ⟨active, appended, _, range, holds, _, _, _, _, after⟩ |
    ⟨failure, active, failed, _, unchanged, _⟩
  · refine .inl ⟨_, appended, named.tp, range, ?_, after⟩
    rw [← batches]
    simp only [Log.batches, batches_in_active holds, List.append_assoc]
  · rw [unchanged rfl] at failed
    exact .inr ⟨failure, _, failed, named.tp, batches, same⟩

theorem append_moves {log : Log} (settled : LogSettled log) {batchBytes : Bytes}
    (intact : IntactBatch batchBytes) (rollMs clockMs : Int) {next : Log}
    (taken : Log.step (.append batchBytes rollMs clockMs none) log = some next) :
    (next.batches = log.batches ∧ next.logEndOffset = log.logEndOffset) ∨
      (FitsSigned 64 log.logEndOffset ∧
        next.batches = log.batches ++ [stamped batchBytes log.logEndOffset] ∧
        next.logEndOffset = lastOf (stamped batchBytes log.logEndOffset) + 1) := by
  rcases settled_append settled intact rollMs clockMs with
    ⟨after, appended, _, moved⟩ | ⟨failure, after, failed, _, unmoved⟩
  · simp only [Log.step, appended, Outcome.log, Option.some.injEq] at taken
    subst taken
    exact .inr moved
  · simp only [Log.step, failed, Outcome.log, Option.some.injEq] at taken
    subst taken
    exact .inl unmoved

theorem cleanable_step {log next : Log} {action : LogAction} (cleanable : Cleanable log)
    (settled : LogSettled log) (admits : log.Admits action) (taken : Log.step action log = some next) :
    Cleanable next ∧ LogSettled next := by
  cases action with
  | append batchBytes rollMs clockMs fault =>
      obtain ⟨formed, faultless, range⟩ := admits
      subst faultless
      have plain : (LogAction.append batchBytes rollMs clockMs none).Plain :=
        ⟨formed.toIntactBatch, rfl⟩
      obtain ⟨nextSettled, _, config⟩ := settled_step settled plain taken
      have roll : next.config.roll = log.config.roll := by
        rcases config with same | same <;> simp only [same, LogConfig.reloaded]
      refine ⟨?_, nextSettled⟩
      rcases append_moves settled formed.toIntactBatch rollMs clockMs taken with
        ⟨batches, ends⟩ | ⟨fits, batches, ends⟩
      · exact cleanable.follow nextSettled.toLogHolds (fun batch member => .inl (batches ▸ member)) roll
          (ends ▸ cleanable.bounded)
      · apply cleanable.follow nextSettled.toLogHolds _ roll
        · rw [ends, lastOf, header_of_stamped_in_range _ _ fits]
          simp only [BatchHeader.lastOffset]
          omega
        · intro batch member
          rw [batches] at member
          rcases List.mem_append.mp member with old | new
          · exact .inl old
          · rw [List.mem_singleton.mp new]
            exact .inr (formed.stamped fits)
  | maybeRoll nowMs =>
      have plain : (LogAction.maybeRoll nowMs).Plain := trivial
      obtain ⟨nextSettled, _, _⟩ := settled_step settled plain taken
      obtain ⟨undangling, quiet⟩ := settled_clear settled nowMs
      obtain ⟨rolled, moved, _, same, batches, ends, _⟩ :=
        maybe_roll_spec settled.toLogHolds undangling quiet
      simp only [Log.step, moved, Outcome.log, Option.some.injEq] at taken
      subst taken
      exact ⟨cleanable.follow nextSettled.toLogHolds (fun batch member => .inl (batches ▸ member))
        (by rw [same.config]) (ends ▸ cleanable.bounded), nextSettled⟩
  | applyRetention nowMs =>
      have plain : (LogAction.applyRetention nowMs).Plain := trivial
      obtain ⟨nextSettled, _, _⟩ := settled_step settled plain taken
      obtain ⟨count, graveyard, buried⟩ := retention_buries log nowMs
      simp only [Log.step, Option.some.injEq] at taken
      rw [taken] at buried
      refine ⟨cleanable.follow nextSettled.toLogHolds ?_ (by rw [buried]) (by rw [buried]; exact cleanable.bounded),
        nextSettled⟩
      intro batch member
      simp only [buried, Log.batches, List.mem_append, List.mem_flatMap] at member ⊢
      left
      rcases member with ⟨owner, dropped, inside⟩ | held
      · exact .inl ⟨owner, List.mem_of_mem_drop dropped, inside⟩
      · exact .inr held
  | sweepGraveyard nowMs =>
      have plain : (LogAction.sweepGraveyard nowMs).Plain := trivial
      obtain ⟨nextSettled, _, _⟩ := settled_step settled plain taken
      simp only [Log.step, Option.some.injEq] at taken
      subst taken
      exact ⟨cleanable.follow nextSettled.toLogHolds (fun _ => .inl) rfl cleanable.bounded, nextSettled⟩
  | clean maxKeyMapEntries firstDirtyOffset nowMs =>
      obtain ⟨rules, front, back, passed⟩ :=
        clean_log_passes cleanable maxKeyMapEntries firstDirtyOffset nowMs
      simp only [Log.step, Option.some.injEq] at taken
      subst taken
      exact ⟨passed.cleanable cleanable, passed.settled cleanable settled⟩
  | reopen fallback clockMs =>
      have plain : (LogAction.reopen fallback clockMs).Plain := trivial
      obtain ⟨nextSettled, _, _⟩ := settled_step settled plain taken
      obtain ⟨reopened, opened, _, batches, ends, _, _, _, config, _⟩ :=
        open_spec settled.toLogHolds settled.endsClean fallback clockMs
      simp only [Log.step, opened] at taken
      cases checked : checkContiguity log.dir log.config.reloaded log.active.baseOffset
          reopened.sealedMap with
      | error failure => simp [checked] at taken
      | ok done =>
          simp only [checked, except_ok_bind, Option.some.injEq] at taken
          subst taken
          exact ⟨cleanable.follow nextSettled.toLogHolds (fun batch member => .inl (batches ▸ member))
            (by rw [config]; rfl) (ends ▸ cleanable.bounded), nextSettled⟩

theorem cleanable_reached {tp : TopicPartition} {dir : String} {config : LogConfig}
    {created final : Log} (named : StorableName tp) (storable : config.Storable)
    (room : config.roll.indexIntervalBytes + 2 ^ 31 + 12 ≤ 2 ^ 32)
    (made : Log.create tp dir config = .ok created)
    (reached : GuardedRun.Reaches Log.step Log.Admits created final) :
    Cleanable final ∧ LogSettled final := by
  obtain ⟨settled, batches, _, _, _, isConfig, _, ends⟩ := create_spec named storable made
  have cleanable : Cleanable created :=
    { toLogHolds := settled.toLogHolds
      formed := by simp [batches]
      room := isConfig ▸ room
      bounded := by rw [ends]; norm_num }
  exact reached.invariant _ _ (fun log => Cleanable log ∧ LogSettled log) ⟨cleanable, settled⟩
    fun log action next both admits taken => cleanable_step both.1 both.2 admits taken

/-- Reads of a log that is cleaned, rolled and reopened go on over its holes
exactly as long as no segment has one at its end. -/
theorem reads_go_on_over_holes {tp : TopicPartition} {dir : String} {config : LogConfig}
    {created final : Log} (named : StorableName tp) (storable : config.Storable)
    (room : config.roll.indexIntervalBytes + 2 ^ 31 + 12 ≤ 2 ^ 32)
    (made : Log.create tp dir config = .ok created)
    (reached : GuardedRun.Reaches Log.step Log.Admits created final) :
    final.ReadsOn ↔ final.NoTailGap := by
  have holds := cleanable_reached named storable room made reached
  exact reads_on_iff holds.1.toLogHolds

/-- The records of a batch decide whether it is well formed. -/
instance (batch : Bytes) : Decidable (WellFormedBatch batch (recordsOf batch)) :=
  decidable_of_iff (IntactBatch batch ∧ logRecordsOf batch = .ok (recordsOf batch) ∧
      RecordsFit (headerOf batch).baseOffset (recordsOf batch) ∧
      ∃ record ∈ (recordsOf batch).getLast?, record.offset = (headerOf batch).lastOffset)
    ⟨fun ⟨intact, decodes, fit, last⟩ => ⟨intact, decodes, fit, last⟩,
      fun formed => ⟨formed.toIntactBatch, formed.decodes, formed.fit, formed.last⟩⟩

/-- The records a batch has, if it decodes, decide whether it is in order. -/
instance (batch : Bytes) : Decidable (FormedBatch batch) :=
  decidable_of_iff (IntactBatch batch ∧ ((headerOf batch).compression = compressionNone →
      logRecordsOf batch = .ok (recordsOf batch) ∧
        RecordsFit (headerOf batch).baseOffset (recordsOf batch) ∧
        ∃ record ∈ (recordsOf batch).getLast?, record.offset = (headerOf batch).lastOffset))
    ⟨fun ⟨intact, formed⟩ =>
        ⟨intact, fun plain => ⟨_, intact, (formed plain).1, (formed plain).2.1, (formed plain).2.2⟩⟩,
      fun batchFormed => ⟨batchFormed.toIntactBatch, fun plain => by
        obtain ⟨records, wellFormed⟩ := batchFormed.formed plain
        rw [records_of_formed wellFormed]
        exact ⟨wellFormed.decodes, wellFormed.fit, wellFormed.last⟩⟩⟩

instance (log : Log) (action : LogAction) : Decidable (log.Admits action) :=
  match action with
  | .append batchBytes _ _ fault => inferInstanceAs (Decidable (FormedBatch batchBytes ∧ fault = none ∧
      log.logEndOffset + (headerOf batchBytes).lastOffsetDelta < 2 ^ 63))
  | .clean _ _ _ | .maybeRoll _ | .applyRetention _ | .sweepGraveyard _ | .reopen _ _ =>
      inferInstanceAs (Decidable True)

def fiveRecords (keys : List UInt8) : List LogAction :=
  keys.map fun key => .append (recordBatchOf 10 (some [key]) (some [118])) 0 0 none

/-- The first record of a segment goes, and reads go on. -/
theorem reads_go_on_over_a_hole :
    ∃ log : Log, log.ReadsOn ∧ log.config.compacted = true ∧ log.sealedMap.length = 2 ∧
      log.batches.length = 4 := by
  obtain ⟨created, final, made, reached, checked⟩ := found_from_creation Log.step Log.Admits id
    ⟨[116], 0⟩ "data/t-0" { twoBatchConfig with cleanup := .compact }
    (fun log => decide (log.NoTailGap ∧ log.config.compacted = true ∧ log.sealedMap.length = 2 ∧
      log.batches.length = 4))
    (fiveRecords [97, 98, 97, 99, 100] ++ [.clean 10 0 0]) (by decide +kernel)
  obtain ⟨noGap, compacts, sealed_, batches⟩ := decide_eq_true_eq.mp checked
  refine ⟨final, ?_, compacts, sealed_, batches⟩
  have named : StorableName ⟨[116], 0⟩ := ⟨by decide, by decide, by decide, by decide⟩
  have storable : ({ twoBatchConfig with cleanup := .compact } : LogConfig).Storable :=
    { storable_two_batch_config with }
  exact (reads_go_on_over_holes named storable (by decide) made reached).mpr noGap

/-- The last record of a segment goes, and a read there finds nothing although
there are records behind it. -/
theorem reads_stop_at_a_hole :
    ¬ ∀ created final : Log,
      Log.create ⟨[116], 0⟩ "data/t-0" { twoBatchConfig with cleanup := .compact } = .ok created →
      GuardedRun.Reaches Log.step Log.Admits created final → final.ReadsOn := by
  apply refuted_from_creation Log.step Log.Admits id _ _ _ _
    (fun log => !decide (log.logStartOffset ≤ 1 ∧ 1 < log.logEndOffset ∧
        ∃ batch ∈ log.batches, 1 ≤ lastOf batch) ||
      match log.read 1 4096 with
      | .ok result => decide (0 < result.range.length)
      | .error _ => false)
    _ (fiveRecords [97, 98, 98, 99, 100] ++ [.clean 10 0 0]) (by decide +kernel)
  intro log readsOn
  rw [Bool.or_eq_true, Bool.not_eq_true', decide_eq_false_iff_not]
  by_cases inside : log.logStartOffset ≤ 1 ∧ 1 < log.logEndOffset ∧ ∃ batch ∈ log.batches, 1 ≤ lastOf batch
  · obtain ⟨range, first, read, occupied, _⟩ := readsOn 1 4096 inside.1 inside.2.1 inside.2.2
    right
    rw [read]
    exact decide_eq_true occupied
  · exact .inl inside

end DariyaKyu.Storage

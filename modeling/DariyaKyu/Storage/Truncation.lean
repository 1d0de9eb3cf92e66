import DariyaKyu.Storage.CompactedReads
import DariyaKyu.Storage.Recovery

/-!
`Log::truncateTo`: a log cut back to an offset. The segment that the offset is in
is recovered up to it and is the active one from then on. Recovery takes a batch
that does not continue the one before it for the end of the file, which is right
for a segment that was written and wrong for one that was cleaned.
-/

namespace DariyaKyu.Storage

set_option autoImplicit false

/-- `Log::truncateTo`. The active segment is given up first: an exception behind
that leaves the log without one. -/
def Log.truncateTo (log : Log) (offset clockMs : Int) : Outcome Unit :=
  if log.logEndOffset ≤ offset then .returned () log
  else
    let survivors := log.sealedMap.takeWhile fun segment => decide (segment.baseOffset < offset)
    let rewritten : Except Error (List SealedSegment × ActiveSegment) :=
      if log.active.baseOffset < offset then do
        let active ← ActiveSegment.recover log.nextFd log.dir log.active.baseOffset log.active.log.bytes
          log.config.roll (some offset) clockMs
        return (survivors, active)
      else
        match survivors.getLast? with
        | some last => do
            let active ← ActiveSegment.recover log.nextFd log.dir last.baseOffset last.log.bytes
              log.config.roll (some offset) clockMs
            return (survivors.dropLast, active)
        | none => do
            let active ← ActiveSegment.create log.nextFd log.dir offset log.config.roll false
            return ([], active)
    match rewritten with
    | .error failure => .ruined failure
    | .ok (sealedMap, active) =>
        .returned ()
          { log with
            sealedMap := sealedMap
            active := active
            logEndOffset := active.nextOffset
            highWatermark := min log.highWatermark active.nextOffset
            nextFd := log.nextFd + 1 }

def endingBelow (offset : Int) (batches : List Bytes) : List Bytes :=
  batches.filter fun batch => decide (lastOf batch < offset)

theorem ending_below_front {start : Int} {batches : List Bytes} (ascending : Ascending start batches)
    (offset : Int) : endingBelow offset batches <+: batches := by
  induction batches generalizing start with
  | nil => exact List.prefix_refl _
  | cons batch batches ih =>
      obtain ⟨_, _, later⟩ := ascending
      by_cases below : lastOf batch < offset
      · rw [endingBelow, List.filter_cons_of_pos (by simpa using below)]
        exact (List.prefix_cons_inj batch).mpr (ih later)
      · have none : endingBelow offset (batch :: batches) = [] := by
          apply List.filter_eq_nil_iff.mpr
          intro other member
          simp only [decide_eq_true_eq]
          rcases List.mem_cons.mp member with rfl | behind
          · exact below
          · have above := start_le_base later behind
            omega
        rw [none]
        exact List.nil_prefix

theorem consecutive_front {start : Int} {front batches : List Bytes} (inFront : front <+: batches)
    (consecutive : Consecutive start batches) : Consecutive start front := by
  obtain ⟨rest, rfl⟩ := inFront
  exact (consecutive_append.mp consecutive).1

theorem index_all_front {policy : RollPolicy} {state built : IndexState} {position : Nat}
    {front batches : List Bytes} (inFront : front <+: batches)
    (all : indexAll policy state position batches = .ok built) :
    ∃ earlier, indexAll policy state position front = .ok earlier := by
  obtain ⟨rest, rfl⟩ := inFront
  induction front generalizing state position with
  | nil => exact ⟨state, rfl⟩
  | cons batch front ih =>
      simp only [List.cons_append, indexAll] at all ⊢
      obtain ⟨stepped, step, all⟩ := except_bind_ok all
      rw [step, except_ok_bind]
      exact ih all

section Ceiling

variable {base offset : Int} {kept batches : List Bytes} {bytes : Bytes}

/-- Nothing behind the batches of a file is a complete batch. -/
def EndsWith (bytes : Bytes) (batches : List Bytes) : Prop :=
  batches.flatten <+: bytes ∧
    ∀ batch more, bytes = batches.flatten ++ (batch ++ more) → ¬ CheckedBatch batch

theorem SealedHolds.endsWith {segment : SealedSegment} (holds : SealedHolds segment batches) :
    EndsWith segment.log.bytes batches := by
  refine ⟨holds.front, ?_⟩
  intro batch more contents complete
  have fits : batches.flatten.length + batch.length ≤ segment.log.size := by
    rw [holds.full, contents]
    simp only [List.length_append]
    omega
  have found := batch_at_checked more complete contents fits
  rw [holds.quiet] at found
  cases found

theorem ActiveSettled.endsWith {dir : String} {segment : ActiveSegment}
    (settled : ActiveSettled dir segment batches) : EndsWith segment.log.bytes batches := by
  refine ⟨settled.front, ?_⟩
  intro batch more contents complete
  have positive := complete.positive
  rw [settled.whole] at contents
  have nothing := List.append_right_eq_self.mp contents.symm
  rw [List.append_eq_nil_iff] at nothing
  simp [nothing.1] at positive

theorem recoverable_front {ceiling : Option Int} (recoverable : Recoverable ceiling base kept)
    (front : kept.flatten <+: bytes) (intact : ∀ batch ∈ batches, IntactBatch batch)
    (ends : EndsWith bytes batches) : kept <+: batches := by
  induction batches generalizing base kept bytes with
  | nil =>
      cases kept with
      | nil => exact List.prefix_refl _
      | cons batch kept =>
          obtain ⟨more, split⟩ := front
          rw [List.flatten_cons, List.append_assoc] at split
          exact absurd recoverable.1.1 (ends.2 batch _ (by simpa using split.symm))
  | cons first batches ih =>
      cases kept with
      | nil => exact List.nil_prefix
      | cons batch kept =>
          obtain ⟨⟨complete, _⟩, later⟩ := recoverable
          obtain ⟨more, split⟩ := front
          obtain ⟨⟨rest, isSplit⟩, stops⟩ := ends
          simp only [List.flatten_cons, List.append_assoc] at split isSplit stops
          have same : batch ++ (kept.flatten ++ more) = first ++ (batches.flatten ++ rest) :=
            split.trans isSplit.symm
          obtain ⟨rfl, behind⟩ := checked_front_unique complete
            (intact first List.mem_cons_self).complete same
          refine (List.prefix_cons_inj batch).mpr (ih later ⟨more, behind⟩
            (fun other member => intact other (List.mem_cons_of_mem _ member))
            ⟨List.prefix_append _ _, ?_⟩)
          intro other others contents
          apply stops other others
          rw [← isSplit, contents]

theorem recoverable_iff (intact : ∀ batch ∈ kept, IntactBatch batch) :
    Recoverable (some offset) base kept ↔
      Consecutive base kept ∧ ∀ batch ∈ kept, lastOf batch < offset := by
  induction kept generalizing base with
  | nil => simp [Recoverable, Consecutive]
  | cons batch kept ih =>
      simp only [List.forall_mem_cons] at intact
      have spans : baseOf batch ≤ lastOf batch := by
        have delta := intact.1.spans
        simp only [baseOf, lastOf, BatchHeader.lastOffset]
        omega
      simp only [Recoverable, Consecutive, ih intact.2, List.forall_mem_cons, Option.any_some,
        decide_eq_false_iff_not, not_le, intact.1.complete, spans, true_and]
      tauto

/-- A recovery up to an offset keeps batches in sequence that end below it, and
all of them if they are in sequence. -/
theorem recover_ceiling {dir : String} {policy : RollPolicy} {fresh : OffsetIndex} (fd : Int)
    (offset clockMs : Int)
    (created : OffsetIndex.create (segmentIndexPath dir base) base policy.maxIndexBytes = .ok fresh)
    (intact : ∀ batch ∈ batches, IntactBatch batch) (ascending : Ascending base batches)
    (ends : EndsWith bytes batches) :
    ∃ kept, kept <+: batches ∧ Consecutive base kept ∧ (∀ batch ∈ kept, lastOf batch < offset) ∧
      (Consecutive base (endingBelow offset batches) → kept = endingBelow offset batches) ∧
      ActiveSegment.recover fd dir base bytes policy (some offset) clockMs =
        (indexAll policy ⟨fresh, 0⟩ 0 kept).map fun built =>
          { log := FileHandle.ofContents fd (segmentLogPath dir base) kept.flatten
            index := built.index
            baseOffset := base
            nextOffset := endOffset base kept
            largestTimestamp := largestOf (-1) kept
            policy := policy
            bytesSinceIndexEntry := built.since
            firstAppendMs := if 0 < kept.flatten.length then clockMs else -1 } := by
  obtain ⟨kept, longest, recovered⟩ := recover_any fd dir base bytes policy (some offset) clockMs created
  have front := recoverable_front longest.recoverable longest.front intact ends
  have keptIntact : ∀ batch ∈ kept, IntactBatch batch := fun batch member => intact batch (front.subset member)
  obtain ⟨consecutive, below⟩ := (recoverable_iff keptIntact).mp longest.recoverable
  refine ⟨kept, front, consecutive, below, ?_, recovered⟩
  intro inSequence
  have first := ending_below_front ascending offset
  have some_recoverable : Recoverable (some offset) base (endingBelow offset batches) := by
    refine (recoverable_iff fun batch member => intact batch (first.subset member)).mpr ⟨inSequence, ?_⟩
    intro batch member
    simpa using (List.mem_filter.mp member).2
  obtain ⟨more, split⟩ := first
  have inFile : (endingBelow offset batches).flatten <+: bytes := by
    have flat : (endingBelow offset batches).flatten ++ more.flatten = batches.flatten := by
      rw [← List.flatten_append, split]
    exact List.IsPrefix.trans ⟨_, flat⟩ ends.1
  have longer := longest.longest _ some_recoverable inFile
  have shorter : kept.length ≤ (endingBelow offset batches).length := by
    have sub := front.sublist.filter fun batch => decide (lastOf batch < offset)
    rw [List.filter_eq_self.mpr (by simpa using below)] at sub
    exact sub.length_le
  exact (longer.eq_of_length_le shorter).symm

/-- What recovery keeps is an active segment in order, if its index is built. -/
theorem settled_of_kept {dir : String} {policy : RollPolicy} {built : IndexState} (fd clockMs : Int)
    (intact : ∀ batch ∈ kept, IntactBatch batch) (consecutive : Consecutive base kept)
    (index : BuiltIndex dir base policy kept built) :
    ActiveSettled dir
      { log := FileHandle.ofContents fd (segmentLogPath dir base) kept.flatten
        index := built.index
        baseOffset := base
        nextOffset := endOffset base kept
        largestTimestamp := largestOf (-1) kept
        policy := policy
        bytesSinceIndexEntry := built.since
        firstAppendMs := if 0 < kept.flatten.length then clockMs else -1 } kept where
  shaped := fun batch member => (intact batch member).shaped
  intact := intact
  front := List.prefix_refl _
  tight := rfl
  consecutive := consecutive
  ends := rfl
  largest := rfl
  built := ⟨built, index, .inl rfl⟩
  whole := rfl
  plain := index

end Ceiling

/-- The part of a log that a truncation cuts: the segments in front of it stay,
these batches are in the segment that is to be the active one, and what is behind
them goes. -/
structure CutAt (log : Log) (offset base : Int) (front : List SealedSegment)
    (held behind : List Bytes) : Prop where
  batches : log.batches = front.flatMap batchesIn ++ (held ++ behind)
  sealedMap : front <+: log.sealedMap
  linked : Linked (· ≤ ·) base front
  ascending : Ascending base held
  intact : ∀ batch ∈ held, IntactBatch batch
  starts : base ≤ offset
  below : ∀ batch ∈ front.flatMap batchesIn, lastOf batch < offset
  above : ∀ batch ∈ behind, offset ≤ lastOf batch

/-- How a truncation ends: the segment keeps these batches, or the index refuses
one of them. -/
inductive CutEnds (log : Log) (base : Int) (front : List SealedSegment) (kept : List Bytes)
    (outcome : Outcome Unit) : Prop where
  | returned {active : ActiveSegment} (settled : ActiveSettled log.dir active kept)
      (based : active.baseOffset = base) (policy : active.policy = log.config.roll)
      (left : outcome = .returned ()
        { log with
          sealedMap := front
          active := active
          logEndOffset := active.nextOffset
          highWatermark := min log.highWatermark active.nextOffset
          nextFd := log.nextFd + 1 })
  | ruined {failure : Error} (refused : ∀ built, ¬ BuiltIndex log.dir base log.config.roll kept built)
      (threw : outcome = .ruined failure)

/-- The batches that a truncation leaves in the active segment. -/
structure KeptAt (offset base : Int) (held kept : List Bytes) : Prop where
  front : kept <+: held
  consecutive : Consecutive base kept
  below : ∀ batch ∈ kept, lastOf batch < offset
  all : Consecutive base (endingBelow offset held) → kept = endingBelow offset held

section Cut

variable {log : Log} {offset : Int}

theorem recover_cut (log : Log) {base : Int} {bytes : Bytes} {held : List Bytes} (clockMs : Int)
    {fresh : OffsetIndex}
    (created : OffsetIndex.create (segmentIndexPath log.dir base) base log.config.roll.maxIndexBytes = .ok fresh)
    (intact : ∀ batch ∈ held, IntactBatch batch) (ascending : Ascending base held)
    (ends : EndsWith bytes held) :
    ∃ kept, KeptAt offset base held kept ∧
      ((∃ active, ActiveSettled log.dir active kept ∧ active.baseOffset = base ∧
          active.policy = log.config.roll ∧
          ActiveSegment.recover log.nextFd log.dir base bytes log.config.roll (some offset) clockMs =
            .ok active) ∨
        ∃ failure, (∀ built, ¬ BuiltIndex log.dir base log.config.roll kept built) ∧
          ActiveSegment.recover log.nextFd log.dir base bytes log.config.roll (some offset) clockMs =
            .error failure) := by
  obtain ⟨kept, front, consecutive, below, all, recovered⟩ :=
    recover_ceiling log.nextFd offset clockMs created intact ascending ends
  refine ⟨kept, ⟨front, consecutive, below, all⟩, ?_⟩
  cases indexed : indexAll log.config.roll ⟨fresh, 0⟩ 0 kept with
  | ok built =>
      rw [indexed] at recovered
      have index : BuiltIndex log.dir base log.config.roll kept built := ⟨fresh, created, indexed⟩
      have keptIntact : ∀ batch ∈ kept, IntactBatch batch := fun batch member => intact batch (front.subset member)
      exact .inl ⟨_, settled_of_kept log.nextFd clockMs keptIntact consecutive index, rfl, rfl, recovered⟩
  | error failure =>
      rw [indexed] at recovered
      refine .inr ⟨failure, ?_, recovered⟩
      rintro built ⟨other, isFresh, all⟩
      rw [created] at isFresh
      cases isFresh
      rw [indexed] at all
      cases all

/-- A segment that starts here can hold these batches: they continue each other
and an index takes them. -/
structure Continued (dir : String) (roll : RollPolicy) (base : Int) (batches : List Bytes) : Prop where
  consecutive : Consecutive base batches
  indexed : ∃ built, BuiltIndex dir base roll batches built

/-- If an offset is in a sealed segment, the batches of this one that end below
it continue each other from the base of the segment on, and an index takes them. -/
def Log.CutsInSequence (log : Log) (offset : Int) : Prop :=
  offset < log.logEndOffset → offset ≤ log.active.baseOffset →
    ∀ last ∈ (log.sealedMap.takeWhile fun segment => decide (segment.baseOffset < offset)).getLast?,
      Continued log.dir log.config.roll last.baseOffset (endingBelow offset (batchesIn last))

/-- What is true of a truncation of a log that is longer. -/
def Log.CutSomewhere (log : Log) (offset clockMs : Int) : Prop :=
  ∃ base front held behind kept, CutAt log offset base front held behind ∧
    KeptAt offset base held kept ∧ CutEnds log base front kept (log.truncateTo offset clockMs) ∧
    (log.CutsInSequence offset ↔ Continued log.dir log.config.roll base (endingBelow offset held))

theorem bases_below_active (holds : LogHolds log) {segment : SealedSegment}
    (member : segment ∈ log.sealedMap) : segment.baseOffset < log.active.baseOffset := by
  have below := linked_below holds.linked member
  omega

theorem cut_active (settled : LogSettled log) (inside : offset < log.logEndOffset)
    (starts : log.active.baseOffset < offset) (clockMs : Int) : log.CutSomewhere offset clockMs := by
  have active := settled.settled
  obtain ⟨fresh, created, all⟩ := active.plain
  rw [settled.policy] at created all
  obtain ⟨kept, keptAt, ends⟩ := @recover_cut offset log _ _ _ clockMs fresh created active.intact
    active.consecutive.ascending active.endsWith
  have everyBase : log.sealedMap.takeWhile (fun segment => decide (segment.baseOffset < offset)) =
      log.sealedMap := by
    apply List.takeWhile_eq_self_iff.mpr
    intro segment member
    have below := bases_below_active settled.toLogHolds member
    exact decide_eq_true (below.trans starts)
  have first := ending_below_front active.consecutive.ascending offset
  refine ⟨log.active.baseOffset, log.sealedMap, batchesIn log.active.toSegmentBase, [], kept, ?_, keptAt,
    ?_, ?_⟩
  · exact
      { batches := by rw [Log.batches, List.append_nil]
        sealedMap := List.prefix_refl _
        linked := settled.linked
        ascending := active.consecutive.ascending
        intact := active.intact
        starts := starts.le
        below := fun batch member => (sealed_batches_before_active settled.toLogHolds member).trans starts
        above := by simp }
  · rcases ends with ⟨segment, holds, based, policy, recovered⟩ | ⟨failure, refused, threw⟩
    · apply CutEnds.returned holds based policy
      simp only [Log.truncateTo, if_neg (Int.not_le.mpr inside), if_pos starts, recovered, everyBase,
        except_ok_bind]
      rfl
    · apply CutEnds.ruined refused
      simp only [Log.truncateTo, if_neg (Int.not_le.mpr inside), if_pos starts, threw]
      rfl
  · refine ⟨fun _ => ⟨consecutive_front first active.consecutive, ?_⟩, fun _ _ behind => ?_⟩
    · obtain ⟨built, earlier⟩ := index_all_front first all
      exact ⟨built, fresh, created, earlier⟩
    · exact absurd starts (Int.not_lt.mpr behind)

theorem cut_sealed (settled : LogSettled log) (inside : offset < log.logEndOffset)
    (starts : offset ≤ log.active.baseOffset) {front behind : List SealedSegment} {last : SealedSegment}
    (split : log.sealedMap = front ++ last :: behind)
    (survivors : log.sealedMap.takeWhile (fun segment => decide (segment.baseOffset < offset)) =
      front ++ [last])
    (dropped : ∀ segment ∈ behind, offset ≤ segment.baseOffset) (clockMs : Int) :
    log.CutSomewhere offset clockMs := by
  obtain ⟨made, created, _⟩ := settled.settled.plain
  rw [settled.policy] at created
  obtain ⟨fresh, created⟩ := create_elsewhere created
  have inLog : last ∈ log.sealedMap := by simp [split]
  have holds := settled.sealedHolds last inLog
  have below : last.baseOffset < offset := by
    have member : last ∈ log.sealedMap.takeWhile fun segment => decide (segment.baseOffset < offset) := by
      simp [survivors]
    simpa using List.mem_takeWhile_imp member
  obtain ⟨kept, keptAt, ends⟩ := @recover_cut offset log _ _ _ clockMs fresh created holds.intact
    holds.ascending holds.endsWith
  have linked := settled.linked
  rw [split] at linked
  refine ⟨last.baseOffset, front, batchesIn last,
    behind.flatMap batchesIn ++ batchesIn log.active.toSegmentBase, kept, ?_, keptAt, ?_, ?_⟩
  · exact
      { batches := by simp [Log.batches, split]
        sealedMap := by
          rw [split]
          exact List.prefix_append _ _
        linked := linked_front linked
        ascending := holds.ascending
        intact := holds.intact
        starts := below.le
        below := fun batch member => (sealed_batches_below settled.toLogHolds split member).trans below
        above := by
          intro batch member
          rcases List.mem_append.mp member with old | active
          · obtain ⟨owner, isBehind, inOwner⟩ := List.mem_flatMap.mp old
            have ownerHolds := settled.sealedHolds owner (by simp [split, isBehind])
            have base := start_le_base ownerHolds.ascending inOwner
            have begins := dropped owner isBehind
            omega
          · have base := start_le_base settled.settled.consecutive.ascending active
            omega }
  · rcases ends with ⟨segment, segmentSettled, based, policy, recovered⟩ | ⟨failure, refused, threw⟩
    · apply CutEnds.returned segmentSettled based policy
      simp only [Log.truncateTo, if_neg (Int.not_le.mpr inside), if_neg (Int.not_lt.mpr starts), survivors,
        List.getLast?_concat, List.dropLast_concat, recovered, except_ok_bind]
      rfl
    · apply CutEnds.ruined refused
      simp only [Log.truncateTo, if_neg (Int.not_le.mpr inside), if_neg (Int.not_lt.mpr starts), survivors,
        List.getLast?_concat, threw]
      rfl
  · simp [Log.CutsInSequence, survivors, inside, starts]

theorem cut_all (settled : LogSettled log) (inside : offset < log.logEndOffset)
    (starts : offset ≤ log.active.baseOffset) (begins : ∀ segment ∈ log.sealedMap, offset ≤ segment.baseOffset)
    (survivors : log.sealedMap.takeWhile (fun segment => decide (segment.baseOffset < offset)) = [])
    (clockMs : Int) : log.CutSomewhere offset clockMs := by
  have plain := settled.settled.plain
  rw [settled.policy] at plain
  obtain ⟨active, created⟩ := create_active_succeeds plain log.nextFd offset
  obtain ⟨activeSettled, base, _, policy, _⟩ := create_active_spec created
  refine ⟨offset, [], [], log.batches, [], ?_, ⟨List.prefix_refl _, trivial, by simp, fun _ => rfl⟩, ?_, ?_⟩
  · exact
      { batches := rfl
        sealedMap := List.nil_prefix
        linked := trivial
        ascending := trivial
        intact := by simp
        starts := le_rfl
        below := by simp
        above := by
          intro batch member
          rcases List.mem_append.mp member with old | held
          · obtain ⟨owner, inLog, inOwner⟩ := List.mem_flatMap.mp old
            have base := start_le_base (settled.sealedHolds owner inLog).ascending inOwner
            have above := begins owner inLog
            omega
          · have base := start_le_base settled.settled.consecutive.ascending held
            omega }
  · apply CutEnds.returned activeSettled base policy
    simp only [Log.truncateTo, if_neg (Int.not_le.mpr inside), if_neg (Int.not_lt.mpr starts), survivors,
      List.getLast?_nil, created, except_ok_bind]
    rfl
  · obtain ⟨built, isBuilt⟩ := activeSettled.built
    rw [base, policy] at isBuilt
    refine ⟨fun _ => ⟨trivial, built, isBuilt.1⟩, fun _ _ _ last isLast => ?_⟩
    simp [survivors] at isLast

theorem cut_somewhere (settled : LogSettled log) (inside : offset < log.logEndOffset) (clockMs : Int) :
    log.CutSomewhere offset clockMs := by
  by_cases starts : log.active.baseOffset < offset
  · exact cut_active settled inside starts clockMs
  · let below : SealedSegment → Bool := fun segment => decide (segment.baseOffset < offset)
    have split := List.takeWhile_append_dropWhile (p := below) (l := log.sealedMap)
    have stops : ∀ segment ∈ (log.sealedMap.dropWhile below).head?, offset ≤ segment.baseOffset := by
      intro segment isFirst
      have above := List.head?_dropWhile_not below log.sealedMap
      rw [Option.mem_def.mp isFirst] at above
      simpa [below] using above
    have dropped := begin_behind (split.symm ▸ settled.linked) stops
    rcases List.eq_nil_or_concat (log.sealedMap.takeWhile below) with none | ⟨front, last, survivors⟩
    · apply cut_all settled inside (Int.not_lt.mp starts) _ none clockMs
      rw [none, List.nil_append] at split
      exact split ▸ dropped
    · rw [List.concat_eq_append] at survivors
      rw [survivors, List.append_assoc] at split
      exact cut_sealed settled inside (Int.not_lt.mp starts) split.symm survivors dropped clockMs

end Cut

instance decidableConsecutive : (start : Int) → (batches : List Bytes) → Decidable (Consecutive start batches)
  | _, [] => inferInstanceAs (Decidable True)
  | _, batch :: batches =>
      have := decidableConsecutive (lastOf batch + 1) batches
      inferInstanceAs (Decidable (_ ∧ _ ∧ _))

instance (dir : String) (roll : RollPolicy) (base : Int) (batches : List Bytes) :
    Decidable (Continued dir roll base batches) :=
  decidable_of_iff (Consecutive base batches ∧ (do
      let fresh ← OffsetIndex.create (segmentIndexPath dir base) base roll.maxIndexBytes
      indexAll roll ⟨fresh, 0⟩ 0 batches).isOk = true) (by
    constructor
    · rintro ⟨consecutive, indexed⟩
      refine ⟨consecutive, ?_⟩
      cases created : OffsetIndex.create (segmentIndexPath dir base) base roll.maxIndexBytes with
      | error failure => simp [created, Except.isOk, Except.toBool] at indexed
      | ok fresh =>
          cases all : indexAll roll ⟨fresh, 0⟩ 0 batches with
          | error failure => simp [created, all, Except.isOk, Except.toBool] at indexed
          | ok built => exact ⟨built, fresh, created, all⟩
    · rintro ⟨consecutive, built, fresh, created, all⟩
      simp [consecutive, created, all, Except.isOk, Except.toBool])

instance (log : Log) (offset : Int) : Decidable (log.CutsInSequence offset) :=
  inferInstanceAs (Decidable (offset < log.logEndOffset → offset ≤ log.active.baseOffset →
    ∀ last ∈ (log.sealedMap.takeWhile fun segment => decide (segment.baseOffset < offset)).getLast?,
      Continued log.dir log.config.roll last.baseOffset (endingBelow offset (batchesIn last))))

end DariyaKyu.Storage

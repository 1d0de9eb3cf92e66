import DariyaKyu.Storage.LogSteps
import DariyaKyu.Storage.Rewrite

/-!
What a cleaning pass does to a log in order. It goes through the sealed
segments from the oldest on and leaves each with the records that its rules
keep; a segment that keeps nothing goes. At any point of the pass the segments
ahead of it are done and those behind it are as they were.
-/

namespace DariyaKyu.Storage

set_option autoImplicit false

open FrameWalk

inductive CleanedTo (rules : RetainRules) : List SealedSegment → List SealedSegment → Prop where
  | nil : CleanedTo rules [] []
  | unchanged {segment : SealedSegment} {before after : List SealedSegment}
      (retained : ∀ record ∈ (batchesIn segment).flatMap recordsOf, rules.keeps record = true)
      (rest : CleanedTo rules before after) : CleanedTo rules (segment :: before) (segment :: after)
  | replaced {segment replacement : SealedSegment} {before after : List SealedSegment}
      (holds : SealedHolds replacement (batchesIn replacement))
      (base : replacement.baseOffset = segment.baseOffset)
      (rewritten : Rewritten rules (batchesIn segment) (batchesIn replacement))
      (occupied : batchesIn replacement ≠ [])
      (rest : CleanedTo rules before after) : CleanedTo rules (segment :: before) (replacement :: after)
  | removed {segment : SealedSegment} {before after : List SealedSegment}
      (rewritten : Rewritten rules (batchesIn segment) [])
      (rest : CleanedTo rules before after) : CleanedTo rules (segment :: before) after

/-- A log whose batches a pass can rewrite without overflowing a field. -/
structure Cleanable (log : Log) : Prop extends LogHolds log where
  formed : ∀ batch ∈ log.batches, FormedBatch batch
  room : log.config.roll.indexIntervalBytes + 2 ^ 31 + 12 ≤ 2 ^ 32
  bounded : log.logEndOffset ≤ 2 ^ 63

section CleanedTo

variable {rules : RetainRules} {before after : List SealedSegment}

theorem CleanedTo.append {moreBefore moreAfter : List SealedSegment}
    (cleaned : CleanedTo rules before after) (more : CleanedTo rules moreBefore moreAfter) :
    CleanedTo rules (before ++ moreBefore) (after ++ moreAfter) := by
  induction cleaned with
  | nil => exact more
  | unchanged retained _ ih => exact .unchanged retained ih
  | replaced holds base rewritten occupied _ ih => exact .replaced holds base rewritten occupied ih
  | removed rewritten _ ih => exact .removed rewritten ih

theorem CleanedTo.records (cleaned : CleanedTo rules before after) :
    (after.flatMap batchesIn).flatMap recordsOf =
      ((before.flatMap batchesIn).flatMap recordsOf).filter rules.keeps := by
  induction cleaned with
  | nil => rfl
  | unchanged retained _ ih =>
      simp only [List.flatMap_cons, List.flatMap_append, List.filter_append, ih,
        List.filter_eq_self.mpr retained]
  | replaced _ _ rewritten _ _ ih =>
      simp only [List.flatMap_cons, List.flatMap_append, List.filter_append, ih, rewritten.records]
  | removed rewritten _ ih =>
      have gone := rewritten.records
      simp only [List.flatMap_nil] at gone
      simp only [List.flatMap_cons, List.flatMap_append, List.filter_append, ih, ← gone, List.nil_append]

theorem CleanedTo.sealedHolds (cleaned : CleanedTo rules before after)
    (holds : ∀ segment ∈ before, SealedHolds segment (batchesIn segment)) :
    ∀ segment ∈ after, SealedHolds segment (batchesIn segment) := by
  induction cleaned with
  | nil => simp
  | unchanged _ _ ih =>
      simp only [List.forall_mem_cons] at holds ⊢
      exact ⟨holds.1, ih holds.2⟩
  | replaced replacementHolds _ _ _ _ ih =>
      simp only [List.forall_mem_cons] at holds ⊢
      exact ⟨replacementHolds, ih holds.2⟩
  | removed _ _ ih =>
      simp only [List.forall_mem_cons] at holds
      exact ih holds.2

theorem CleanedTo.formed (cleaned : CleanedTo rules before after)
    (formed : ∀ batch ∈ before.flatMap batchesIn, FormedBatch batch) :
    ∀ batch ∈ after.flatMap batchesIn, FormedBatch batch := by
  induction cleaned with
  | nil => simp
  | unchanged _ _ ih =>
      simp only [List.flatMap_cons, List.forall_mem_append] at formed ⊢
      exact ⟨formed.1, ih formed.2⟩
  | replaced _ _ rewritten _ _ ih =>
      simp only [List.flatMap_cons, List.forall_mem_append] at formed ⊢
      refine ⟨?_, ih formed.2⟩
      intro batch member
      have wellFormed := rewritten.formed batch member
      exact ⟨wellFormed.toIntactBatch, fun _ => ⟨_, wellFormed⟩⟩
  | removed _ _ ih =>
      simp only [List.flatMap_cons, List.forall_mem_append] at formed
      exact ih formed.2

theorem replacement_inside {segment replacement : SealedSegment}
    (segmentHolds : SealedHolds segment (batchesIn segment))
    (holds : SealedHolds replacement (batchesIn replacement))
    (base : replacement.baseOffset = segment.baseOffset)
    (rewritten : Rewritten rules (batchesIn segment) (batchesIn replacement))
    (occupied : batchesIn replacement ≠ []) :
    replacement.baseOffset < replacement.nextOffset ∧ replacement.nextOffset ≤ segment.nextOffset := by
  have ends := (rewritten.ascending segmentHolds.ascending base.le).2
  have grows := end_lt_of_occupied holds.ascending occupied
  rw [holds.ends, segmentHolds.ends]
  exact ⟨grows, ends⟩

theorem CleanedTo.linked (cleaned : CleanedTo rules before after) {newest : Int}
    (back : List SealedSegment) (holds : ∀ segment ∈ before, SealedHolds segment (batchesIn segment))
    (linked : Linked (· ≤ ·) newest (before ++ back)) :
    Linked (· ≤ ·) newest (after ++ back) ∧
      nextBase newest (before ++ back) ≤ nextBase newest (after ++ back) := by
  induction cleaned with
  | nil => exact ⟨linked, le_refl _⟩
  | unchanged _ _ ih =>
      simp only [List.forall_mem_cons] at holds
      obtain ⟨spans, ends, later⟩ := linked
      obtain ⟨rest, above⟩ := ih holds.2 later
      exact ⟨⟨spans, ends.trans above, rest⟩, le_refl _⟩
  | replaced replacementHolds base rewritten occupied _ ih =>
      simp only [List.forall_mem_cons] at holds
      obtain ⟨spans, ends, later⟩ := linked
      obtain ⟨rest, above⟩ := ih holds.2 later
      obtain ⟨grows, shorter⟩ := replacement_inside holds.1 replacementHolds base rewritten occupied
      exact ⟨⟨grows, (shorter.trans ends).trans above, rest⟩, base.ge⟩
  | removed _ _ ih =>
      simp only [List.forall_mem_cons] at holds
      obtain ⟨spans, ends, later⟩ := linked
      obtain ⟨rest, above⟩ := ih holds.2 later
      exact ⟨rest, (spans.le.trans ends).trans above⟩

end CleanedTo

/-- A state of a pass: the segments in front are cleaned, and nothing but them,
the graveyard and the descriptor count has changed. -/
def PassedOver (rules : RetainRules) (log swap : Log) (front back : List SealedSegment) : Prop :=
  log.sealedMap = front ++ back ∧ ∃ cleaned graveyard nextFd, CleanedTo rules front cleaned ∧
    swap = { log with sealedMap := cleaned ++ back, graveyard := graveyard, nextFd := nextFd }

theorem PassedOver.start (rules : RetainRules) (log : Log) : PassedOver rules log log [] log.sealedMap :=
  ⟨rfl, [], _, _, .nil, rfl⟩

theorem PassedOver.cleanable {rules : RetainRules} {log swap : Log} {front back : List SealedSegment}
    (passed : PassedOver rules log swap front back) (cleanable : Cleanable log) : Cleanable swap := by
  obtain ⟨split, cleaned, graveyard, nextFd, cleans, rfl⟩ := passed
  have each := cleanable.sealedHolds
  rw [split] at each
  simp only [List.forall_mem_append] at each
  have formed := cleanable.formed
  simp only [Log.batches, split, List.flatMap_append, List.forall_mem_append] at formed
  exact
    { sealedHolds := by
        simp only [List.forall_mem_append]
        exact ⟨cleans.sealedHolds each.1, each.2⟩
      activeHolds := cleanable.activeHolds
      linked := (cleans.linked back each.1 (split ▸ cleanable.linked)).1
      ends := cleanable.ends
      policy := cleanable.policy
      stored := cleanable.stored
      storable := cleanable.storable
      formed := by
        simp only [Log.batches, List.flatMap_append, List.forall_mem_append]
        exact ⟨⟨cleans.formed formed.1.1, formed.1.2⟩, formed.2⟩
      room := cleanable.room
      bounded := cleanable.bounded }

theorem PassedOver.settled {rules : RetainRules} {log swap : Log} {front back : List SealedSegment}
    (passed : PassedOver rules log swap front back) (cleanable : Cleanable log)
    (settled : LogSettled log) : LogSettled swap := by
  have swapHolds := (passed.cleanable cleanable).toLogHolds
  obtain ⟨_, _, _, _, _, rfl⟩ := passed
  exact ⟨swapHolds, settled.settled⟩

section OneSegment

variable {newest : Int} {ahead behind : List SealedSegment} {segment : SealedSegment}

theorem linked_distinct (linked : Linked (· ≤ ·) newest (ahead ++ segment :: behind)) :
    (∀ other ∈ ahead, other.baseOffset ≠ segment.baseOffset) ∧
      ∀ other ∈ behind, other.baseOffset ≠ segment.baseOffset := by
  constructor
  · intro other member
    have := linked_before linked member
    omega
  · intro other member
    obtain ⟨middle, rest, split⟩ := List.append_of_mem member
    have shifted : ahead ++ segment :: behind = (ahead ++ segment :: middle) ++ other :: rest := by
      simp [split]
    have inFront : segment ∈ ahead ++ segment :: middle := by simp
    have := linked_before (shifted ▸ linked) inFront
    omega

variable (front : ∀ other ∈ ahead, other.baseOffset ≠ segment.baseOffset)
  (back : ∀ other ∈ behind, other.baseOffset ≠ segment.baseOffset)

include front

theorem find_in_order :
    (ahead ++ segment :: behind).find? (·.baseOffset == segment.baseOffset) = some segment := by
  rw [List.find?_append, List.find?_eq_none.mpr (by simpa using front)]
  simp

include back

theorem replace_in_order (replacement : SealedSegment) :
    (ahead ++ segment :: behind).map (fun other =>
      if other.baseOffset = segment.baseOffset then replacement else other) =
      ahead ++ replacement :: behind := by
  have untouched : ∀ others : List SealedSegment,
      (∀ other ∈ others, other.baseOffset ≠ segment.baseOffset) →
      others.map (fun other => if other.baseOffset = segment.baseOffset then replacement else other) =
        others := by
    intro others distinct
    conv_rhs => rw [← List.map_id others]
    apply List.map_congr_left
    intro other member
    rw [if_neg (distinct other member)]
    rfl
  simp only [List.map_append, List.map_cons, if_true, untouched ahead front, untouched behind back]

theorem remove_in_order :
    (ahead ++ segment :: behind).filter (fun other => other.baseOffset ≠ segment.baseOffset) =
      ahead ++ behind := by
  rw [List.filter_append, List.filter_cons_of_neg (by simp),
    List.filter_eq_self.mpr (by simpa using front), List.filter_eq_self.mpr (by simpa using back)]

end OneSegment

theorem scan_sealed {segment : SealedSegment} (holds : SealedHolds segment (batchesIn segment)) :
    scanSegment segment.log.bytes = .ok (scannedAt 0 (batchesIn segment)) := by
  have scanned := scan_held holds.toHoldsBatches
  rwa [holds.full, List.take_length] at scanned

theorem drops_nothing {rules : RetainRules} {batches : List Bytes} {position : Nat}
    (complete : ∀ batch ∈ batches, CheckedBatch batch)
    (nothing : dropsAnything rules (scannedAt position batches) = .ok false) :
    ∀ record ∈ batches.flatMap recordsOf, rules.keeps record = true := by
  induction batches generalizing position with
  | nil => simp
  | cons batch batches ih =>
      simp only [scannedAt, dropsAnything] at nothing
      obtain ⟨raw, decoded, nothing⟩ := except_bind_ok nothing
      have same := records_of_decoded (complete batch (by simp)) decoded
      split at nothing
      · cases nothing
      · next kept =>
        have rest := ih (fun other member => complete other (by simp [member])) nothing
        simp only [List.flatMap_cons, List.forall_mem_append]
        refine ⟨?_, rest⟩
        intro record member
        rw [same] at member
        obtain ⟨original, isOriginal, rfl⟩ := List.mem_map.mp member
        simp only [List.any_eq_true, Bool.not_eq_true', not_exists, not_and] at kept
        simpa [retains_eq] using kept original isOriginal

theorem would_drop_nothing {rules : RetainRules} {segment : SealedSegment}
    (holds : SealedHolds segment (batchesIn segment))
    (formed : ∀ batch ∈ batchesIn segment, FormedBatch batch)
    (nothing : wouldDropAnything segment.log.bytes rules = .ok false) :
    ∀ record ∈ (batchesIn segment).flatMap recordsOf, rules.keeps record = true := by
  simp only [wouldDropAnything, scan_sealed holds, except_ok_bind] at nothing
  exact drops_nothing (fun batch member => (formed batch member).toIntactBatch.complete) nothing

def SealedSegment.info (segment : SealedSegment) : SealedInfo :=
  ⟨segment.baseOffset, segment.nextOffset, segment.log.bytes, segment.sizeBytes⟩

theorem open_sealed_is_ok (fd otherFd : Int) (path : String) (base : Int) (bytes : Bytes)
    (index : Option OffsetIndex) :
    (SealedSegment.open fd path base bytes index).isOk =
      (SealedSegment.open otherFd path base bytes index).isOk := by
  cases index with
  | none => rfl
  | some index =>
      unfold SealedSegment.open SegmentBase.deriveEndStateFromLog
      simp only
      cases index.openSealed.lookup (base + kMaxUint32) with
      | error failure => rfl
      | ok entry =>
          have same : ∀ limit, batchAt (FileHandle.ofContents fd path bytes) limit =
              batchAt (FileHandle.ofContents otherFd path bytes) limit := fun _ => rfl
          have size : (FileHandle.ofContents fd path bytes).size =
              (FileHandle.ofContents otherFd path bytes).size := rfl
          simp only [except_ok_bind, same, size]
          cases walk (batchAt (FileHandle.ofContents otherFd path bytes) _) BatchAt.totalSize _ _
              entry.position _ with
          | error failure => rfl
          | ok walked => rfl

theorem open_sealed_keeps {fd : Int} {path : String} {base : Int} {bytes : Bytes} {index : OffsetIndex}
    {opened : SealedSegment} (isOpen : SealedSegment.open fd path base bytes (some index) = .ok opened) :
    opened.baseOffset = base ∧ opened.log = FileHandle.ofContents fd path bytes ∧
      opened.index = index.openSealed := by
  simp only [SealedSegment.open, SegmentBase.deriveEndStateFromLog] at isOpen
  obtain ⟨entry, _, isOpen⟩ := except_bind_ok isOpen
  obtain ⟨walked, _, made⟩ := except_bind_ok isOpen
  cases made
  exact ⟨rfl, rfl, rfl⟩

/-- Whether a pass gets past a segment: what it has to decode, to rewrite and
to open again can be decoded, rewritten and opened. -/
def SealedSegment.getsPast (dir : String) (roll : RollPolicy) (rules : RetainRules)
    (segment : SealedSegment) : Bool :=
  match wouldDropAnything segment.log.bytes rules with
  | .error _ => false
  | .ok false => true
  | .ok true =>
      match rewriteSegment dir segment.log.bytes segment.baseOffset roll rules with
      | .error _ => false
      | .ok cleaned =>
          cleaned.empty || (SealedSegment.open 0 (segmentLogPath dir segment.baseOffset)
            segment.baseOffset cleaned.log (some cleaned.index)).isOk

inductive Turned (dir : String) (roll : RollPolicy) (rules : RetainRules) (segment : SealedSegment) :
    List SealedSegment → Prop where
  | unchanged (nothing : wouldDropAnything segment.log.bytes rules = .ok false) :
      Turned dir roll rules segment [segment]
  | replaced {cleaned : CleanedSegment} {fd : Int} {replacement : SealedSegment}
      (drops : wouldDropAnything segment.log.bytes rules = .ok true)
      (rewrote : rewriteSegment dir segment.log.bytes segment.baseOffset roll rules = .ok cleaned)
      (occupied : cleaned.empty = false)
      (opened : SealedSegment.open fd (segmentLogPath dir segment.baseOffset) segment.baseOffset
        cleaned.log (some cleaned.index) = .ok replacement) :
      Turned dir roll rules segment [replacement]
  | removed {cleaned : CleanedSegment} (drops : wouldDropAnything segment.log.bytes rules = .ok true)
      (rewrote : rewriteSegment dir segment.log.bytes segment.baseOffset roll rules = .ok cleaned)
      (emptied : cleaned.empty = true) : Turned dir roll rules segment []

theorem Turned.bases {dir : String} {roll : RollPolicy} {rules : RetainRules} {segment : SealedSegment}
    {left : List SealedSegment} (turned : Turned dir roll rules segment left) :
    ∀ other ∈ left, other.baseOffset = segment.baseOffset := by
  cases turned with
  | unchanged => simp
  | replaced _ _ _ opened => simpa using (open_sealed_keeps opened).1
  | removed => simp

/-- One turn of a pass: it fails and changes nothing but the descriptor count,
or puts what it makes of the segment in its place. -/
theorem clean_segment_turn {rules : RetainRules} {log : Log} {segment : SealedSegment}
    {ahead behind : List SealedSegment} (split : log.sealedMap = ahead ++ segment :: behind)
    (front : ∀ other ∈ ahead, other.baseOffset ≠ segment.baseOffset)
    (back : ∀ other ∈ behind, other.baseOffset ≠ segment.baseOffset) (nowMs : Int)
    (result : CleanResult) :
    (segment.getsPast log.dir log.config.roll rules = false ∧ ∃ failure nextFd,
        cleanSegment rules nowMs log result segment.info =
          ({ log with nextFd := nextFd }, .error failure)) ∨
      (segment.getsPast log.dir log.config.roll rules = true ∧
        ∃ cleaned counted graveyard nextFd, Turned log.dir log.config.roll rules segment cleaned ∧
          counted.nextDirtyOffset = result.nextDirtyOffset ∧
          cleanSegment rules nowMs log result segment.info =
            ({ log with
                sealedMap := ahead ++ cleaned ++ behind, graveyard := graveyard, nextFd := nextFd },
              .ok counted)) := by
  unfold SealedSegment.getsPast cleanSegment SealedSegment.info
  simp only
  cases drops : wouldDropAnything segment.log.bytes rules with
  | error failure => exact .inl ⟨rfl, failure, log.nextFd, rfl⟩
  | ok some_dropped =>
      cases some_dropped with
      | false =>
          refine .inr ⟨rfl, [segment], result, log.graveyard, log.nextFd, .unchanged drops, rfl, ?_⟩
          simp only [List.append_assoc, List.singleton_append, ← split]
      | true =>
          simp only
          cases rewrote : rewriteSegment log.dir segment.log.bytes segment.baseOffset log.config.roll
              rules with
          | error failure => exact .inl ⟨rfl, failure, log.nextFd, rfl⟩
          | ok cleaned =>
              let counted := { result with
                recordsKept := result.recordsKept + cleaned.recordsKept
                recordsDropped := result.recordsDropped + cleaned.recordsDropped }
              simp only
              cases empty : cleaned.empty with
              | true =>
                  refine .inr ⟨rfl, [], { counted with segmentsDeleted := counted.segmentsDeleted + 1 },
                    log.graveyard ++ [⟨segment, nowMs⟩], log.nextFd, .removed drops rewrote empty, rfl, ?_⟩
                  simp only [Log.removeSegment, split, find_in_order front, remove_in_order front back,
                    List.append_nil, if_true, counted]
              | false =>
                  rw [Bool.false_or, open_sealed_is_ok 0 log.nextFd]
                  simp only [Log.replaceSegment, split, find_in_order front, Bool.false_eq_true, if_false]
                  cases opened : SealedSegment.open log.nextFd (segmentLogPath log.dir segment.baseOffset)
                      segment.baseOffset cleaned.log (some cleaned.index) with
                  | error failure => exact .inl ⟨rfl, failure, log.nextFd + 1, by simp only⟩
                  | ok replacement =>
                      refine .inr ⟨rfl, [replacement],
                        { counted with segmentsCleaned := counted.segmentsCleaned + 1 },
                        log.graveyard ++ [⟨segment, nowMs⟩], log.nextFd + 1,
                        .replaced drops rewrote empty opened, rfl, ?_⟩
                      simp only [replace_in_order front back, List.append_assoc, List.singleton_append,
                        counted]

/-- What the turn of a segment in order makes of it: the records the rules keep. -/
theorem turned_cleans {dir : String} {roll : RollPolicy} {rules : RetainRules} {segment : SealedSegment}
    {left : List SealedSegment} (holds : SealedHolds segment (batchesIn segment))
    (room : roll.indexIntervalBytes + 2 ^ 31 + 12 ≤ 2 ^ 32)
    (bounded : ∀ batch ∈ batchesIn segment, FormedBatch batch ∧ lastOf batch < 2 ^ 63)
    (turned : Turned dir roll rules segment left) : CleanedTo rules [segment] left := by
  cases turned with
  | unchanged nothing =>
      exact .unchanged (would_drop_nothing holds (fun batch member => (bounded batch member).1) nothing) .nil
  | @replaced cleaned fd _ drops rewrote nonempty opened =>
      obtain ⟨news, rewritten, bytes, based, named, count⟩ :=
        rewrite_segment_spec (scan_sealed holds) (.inl room) bounded rewrote
      have some_kept : ((batchesIn segment).flatMap recordsOf).filter rules.keeps ≠ [] := by
        intro none
        rw [none] at count
        simp [CleanedSegment.empty, count] at nonempty
      have occupied := rewritten.occupied some_kept
      have held := holds_contents rewritten.intact bytes fd (segmentLogPath dir segment.baseOffset)
      obtain ⟨reopened, replacementHolds⟩ := open_sealed_spec held
        (rewritten.ascending holds.ascending le_rfl).1 based named
      rw [opened] at reopened
      cases reopened
      have inside := batches_in_eq replacementHolds.toHoldsBatches
      exact .replaced (batches_in_sealed replacementHolds) rfl (inside.symm ▸ rewritten)
        (inside.symm ▸ occupied) .nil
  | removed drops rewrote emptied =>
      obtain ⟨news, rewritten, _, _, _, count⟩ :=
        rewrite_segment_spec (scan_sealed holds) (.inl room) bounded rewrote
      have none : (((batchesIn segment).flatMap recordsOf).filter rules.keeps).length = 0 := by
        rw [← count]
        simpa [CleanedSegment.empty] using emptied
      have gone : news = [] := by
        by_contra occupied
        obtain ⟨batch, inside⟩ := List.exists_mem_of_ne_nil news occupied
        obtain ⟨last, isLast, _⟩ := (rewritten.formed batch inside).last
        have kept := rewritten.records
        rw [List.length_eq_zero_iff.mp none] at kept
        have there : last ∈ news.flatMap recordsOf :=
          List.mem_flatMap.mpr ⟨batch, inside, List.mem_of_mem_getLast? isLast⟩
        simp [kept] at there
      exact .removed (gone ▸ rewritten) .nil

theorem Cleanable.sealedBounded {log : Log} (cleanable : Cleanable log) {segment : SealedSegment}
    (member : segment ∈ log.sealedMap) :
    ∀ batch ∈ batchesIn segment, FormedBatch batch ∧ lastOf batch < 2 ^ 63 := by
  intro batch inside
  have holds := cleanable.sealedHolds segment member
  have last := last_lt_end holds.ascending inside
  rw [← holds.ends] at last
  have below := linked_below cleanable.linked member
  have logEnd : log.active.baseOffset ≤ log.logEndOffset := by
    rw [cleanable.ends, cleanable.activeHolds.ends]
    exact start_le_end cleanable.activeHolds.consecutive.ascending
  have limit := cleanable.bounded
  have formed : FormedBatch batch := by
    apply cleanable.formed
    simp only [Log.batches, List.mem_append, List.mem_flatMap]
    exact .inl ⟨segment, member, inside⟩
  exact ⟨formed, by omega⟩

theorem clean_segment_spec {rules : RetainRules} {log : Log} {segment : SealedSegment}
    {ahead behind : List SealedSegment} (cleanable : Cleanable log)
    (split : log.sealedMap = ahead ++ segment :: behind) (nowMs : Int) (result : CleanResult) :
    (∃ failure nextFd, cleanSegment rules nowMs log result segment.info =
        ({ log with nextFd := nextFd }, .error failure)) ∨
      ∃ cleaned counted graveyard nextFd, CleanedTo rules [segment] cleaned ∧
        counted.nextDirtyOffset = result.nextDirtyOffset ∧
        cleanSegment rules nowMs log result segment.info =
          ({ log with
              sealedMap := ahead ++ cleaned ++ behind, graveyard := graveyard, nextFd := nextFd },
            .ok counted) := by
  have member : segment ∈ log.sealedMap := by simp [split]
  have holds := cleanable.sealedHolds segment member
  obtain ⟨front, back⟩ := linked_distinct (split ▸ cleanable.linked)
  have bounded := cleanable.sealedBounded member
  rcases clean_segment_turn split front back nowMs result with ⟨_, failed⟩ |
    ⟨_, cleaned, counted, graveyard, nextFd, turned, dirty, made⟩
  · exact .inl failed
  · exact .inr ⟨cleaned, counted, graveyard, nextFd,
      turned_cleans holds cleanable.room bounded turned, dirty, made⟩

theorem PassedOver.descriptor {rules : RetainRules} {log swap : Log} {front back : List SealedSegment}
    (passed : PassedOver rules log swap front back) (nextFd : Nat) :
    PassedOver rules log { swap with nextFd := nextFd } front back := by
  obtain ⟨split, cleaned, graveyard, _, cleans, rfl⟩ := passed
  exact ⟨split, cleaned, graveyard, nextFd, cleans, rfl⟩

theorem PassedOver.next {rules : RetainRules} {log swap next : Log} {front behind cleaned : List SealedSegment}
    {segment : SealedSegment} {graveyard : List BuriedSegment} {nextFd : Nat}
    (passed : PassedOver rules log swap front (segment :: behind))
    (cleans : CleanedTo rules [segment] cleaned)
    (moved : ∀ ahead, swap.sealedMap = ahead ++ segment :: behind → next = { swap with
      sealedMap := ahead ++ cleaned ++ behind, graveyard := graveyard, nextFd := nextFd }) :
    PassedOver rules log next (front ++ [segment]) behind := by
  obtain ⟨split, done, _, _, doneTo, rfl⟩ := passed
  refine ⟨by simp [split], done ++ cleaned, graveyard, nextFd, doneTo.append cleans, ?_⟩
  exact moved done rfl

/-- The loop over the segments: every log on the way is a state of the pass,
and the pass ends at the end of what was mapped unless something fails. -/
theorem clean_segments_spec {log swap : Log} (cleanable : Cleanable log) (rules : RetainRules)
    (mappedThrough nowMs : Int) {front pending : List SealedSegment} {result : CleanResult}
    (passed : PassedOver rules log swap front pending) :
    ∃ done rest, pending = done ++ rest ∧ (∀ segment ∈ done, segment.baseOffset < mappedThrough) ∧
      PassedOver rules log
        (cleanSegments rules mappedThrough nowMs swap result (pending.map (·.info))).log (front ++ done) rest ∧
      (∀ state ∈ (cleanSegments rules mappedThrough nowMs swap result (pending.map (·.info))).swaps,
        ∃ some_done later, done = some_done ++ later ∧
          PassedOver rules log state (front ++ some_done) (later ++ rest)) ∧
      ∀ finished,
        (cleanSegments rules mappedThrough nowMs swap result (pending.map (·.info))).outcome = .ok finished →
        finished.nextDirtyOffset = result.nextDirtyOffset ∧
          ∀ segment ∈ rest.head?, mappedThrough ≤ segment.baseOffset := by
  induction pending generalizing swap front result with
  | nil =>
      refine ⟨[], [], rfl, by simp, by simpa [cleanSegments] using passed, by simp [cleanSegments], ?_⟩
      intro finished isOk
      cases isOk
      simp
  | cons segment behind ih =>
      by_cases beyond : mappedThrough ≤ segment.baseOffset
      · have stops : mappedThrough ≤ segment.info.baseOffset := beyond
        simp only [List.map_cons, cleanSegments, stops, if_true]
        refine ⟨[], segment :: behind, rfl, by simp, by simpa using passed, by simp, ?_⟩
        intro finished isOk
        cases isOk
        simpa using beyond
      · have goes : ¬ mappedThrough ≤ segment.info.baseOffset := beyond
        simp only [List.map_cons, cleanSegments, goes, if_false]
        have swapCleanable := passed.cleanable cleanable
        obtain ⟨ahead, split⟩ : ∃ ahead, swap.sealedMap = ahead ++ segment :: behind := by
          obtain ⟨_, cleaned, _, _, _, rfl⟩ := passed
          exact ⟨cleaned, rfl⟩
        rcases clean_segment_spec swapCleanable split nowMs result with ⟨failure, nextFd, failed⟩ |
          ⟨cleaned, counted, graveyard, nextFd, cleanedTo, dirty, made⟩
        · rw [failed]
          have still := passed.descriptor nextFd
          refine ⟨[], segment :: behind, rfl, by simp, by simpa using still, ?_, nofun⟩
          simp only [List.mem_singleton, forall_eq]
          exact ⟨[], [], rfl, by simpa using still⟩
        · rw [made]
          have further : PassedOver rules log { swap with
              sealedMap := ahead ++ cleaned ++ behind, graveyard := graveyard, nextFd := nextFd }
              (front ++ [segment]) behind := by
            apply passed.next cleanedTo
            intro other otherSplit
            rw [otherSplit] at split
            cases List.append_cancel_right split
            rfl
          obtain ⟨done, rest, isSplit, below, ends, swaps, finishes⟩ :=
            @ih _ (front ++ [segment]) counted further
          refine ⟨segment :: done, rest, by simp [isSplit], ?_, by simpa using ends, ?_, ?_⟩
          · simp only [List.forall_mem_cons]
            exact ⟨by omega, below⟩
          · simp only [List.forall_mem_cons]
            refine ⟨⟨[segment], done, rfl, by rw [← isSplit]; exact further⟩, ?_⟩
            intro state member
            obtain ⟨some_done, later, isDone, place⟩ := swaps state member
            exact ⟨segment :: some_done, later, by simp [isDone], by simpa using place⟩
          · intro finished isOk
            obtain ⟨same, stops⟩ := finishes finished isOk
            exact ⟨same.trans dirty, stops⟩

/-- The rules a pass over this log has once the keys are mapped. -/
def Log.rulesOf (log : Log) (map : KeyOffsetMap) (nowMs : Int) : RetainRules :=
  ⟨some map, nowMs, log.config.compaction.deleteRetentionMs⟩

def Log.mapKeys (log : Log) (maxKeyMapEntries : Nat) (firstDirtyOffset : Int) : Except Error DirtyMap :=
  mapDirty firstDirtyOffset ⟨⟨maxKeyMapEntries, []⟩, firstDirtyOffset, false⟩ (log.sealedMap.map (·.info))

/-- What a pass does: nothing when it cannot map the keys or has mapped none,
else its loop over all sealed segments. -/
theorem clean_log_cases (log : Log) (maxKeyMapEntries : Nat) (firstDirtyOffset nowMs : Int) :
    (∃ failure, log.mapKeys maxKeyMapEntries firstDirtyOffset = .error failure ∧
        cleanLog log maxKeyMapEntries firstDirtyOffset nowMs = ⟨[], log, .error failure⟩) ∨
      ∃ dirty result, log.mapKeys maxKeyMapEntries firstDirtyOffset = .ok dirty ∧
        result.nextDirtyOffset = dirty.mappedThrough ∧
        ((dirty.map.entries = [] ∧
            cleanLog log maxKeyMapEntries firstDirtyOffset nowMs = ⟨[], log, .ok result⟩) ∨
          (dirty.map.entries ≠ [] ∧
            cleanLog log maxKeyMapEntries firstDirtyOffset nowMs =
              cleanSegments (log.rulesOf dirty.map nowMs) dirty.mappedThrough nowMs log result
                (log.sealedMap.map (·.info)))) := by
  have infos : log.sealedSegments = log.sealedMap.map (·.info) := rfl
  unfold cleanLog Log.mapKeys
  rw [infos]
  cases segments : log.sealedMap.map (·.info) with
  | nil => exact .inr ⟨_, _, rfl, rfl, .inl ⟨rfl, rfl⟩⟩
  | cons info behind =>
      simp only
      cases mapped : mapDirty firstDirtyOffset ⟨⟨maxKeyMapEntries, []⟩, firstDirtyOffset, false⟩
          (info :: behind) with
      | error failure => exact .inl ⟨failure, rfl, rfl⟩
      | ok dirty =>
          by_cases none : dirty.map.entries.length = 0
          · simp only [none, if_true]
            exact .inr ⟨dirty, _, rfl, rfl, .inl ⟨List.length_eq_zero_iff.mp none, rfl⟩⟩
          · simp only [none, if_false]
            exact .inr ⟨dirty, _, rfl, rfl, .inr ⟨fun empty => none (by simp [empty]), rfl⟩⟩

theorem clean_log_passes {log : Log} (cleanable : Cleanable log) (maxKeyMapEntries : Nat)
    (firstDirtyOffset nowMs : Int) :
    ∃ rules front back, PassedOver rules log
      (cleanLog log maxKeyMapEntries firstDirtyOffset nowMs).log front back := by
  rcases clean_log_cases log maxKeyMapEntries firstDirtyOffset nowMs with ⟨_, _, idle⟩ |
    ⟨dirty, result, _, _, ⟨_, idle⟩ | ⟨_, ran⟩⟩
  · rw [idle]
    exact ⟨⟨none, 0, 0⟩, [], _, .start _ log⟩
  · rw [idle]
    exact ⟨⟨none, 0, 0⟩, [], _, .start _ log⟩
  · obtain ⟨done, rest, _, _, passed, _⟩ := clean_segments_spec cleanable
      (log.rulesOf dirty.map nowMs) dirty.mappedThrough nowMs (.start _ log)
    rw [ran]
    exact ⟨_, _, _, passed⟩

end DariyaKyu.Storage

import DariyaKyu.Storage.UniqueKeys

/-!
What a cleaning pass does to the value that a log has for a key. It takes the
newest record of a key only when that is a tombstone that has expired. If the
pass has mapped the tombstone, everything older goes as well, and goes first; if
it has not, what is older stays. Below a mark that a pass of the same log has
left there is nothing older.
-/

namespace DariyaKyu.Storage

set_option autoImplicit false

open NewestByKey KeyedHistory

/-- What records say of a key: the value of its newest record, nothing for a tombstone. -/
def viewOf (records : List LogRecord) (key : Bytes) : Option Bytes :=
  reading LogRecord.key LogRecord.offset LogRecord.value records key

def Log.view (log : Log) : Bytes → Option Bytes := viewOf log.records

def DigestsDistinct (records : List LogRecord) : Prop :=
  ∀ first ∈ records, ∀ second ∈ records,
    first.key.map digestOf = second.key.map digestOf → first.key = second.key

/-- A tombstone that a pass at this time no longer keeps. -/
def Log.expired (log : Log) (nowMs : Int) (record : LogRecord) : Bool :=
  record.value.isNone && decide (log.config.compaction.deleteRetentionMs ≤ nowMs - record.timestamp)

/-- A segment that a pass rewrites and may not have mapped: it begins below the
mark and ends there, or has more keys than the budget. -/
def SealedSegment.Unmapped (segment : SealedSegment) (budget : Nat) (mark : Int) : Prop :=
  segment.baseOffset < mark ∧
    (mark < segment.nextOffset → budget < keyCount (keyedOf (recordsIn segment)))

/-- Where a pass takes an expired tombstone that is the newest record of its key
and that it may not have mapped, the other records leave the key without a value. -/
def Log.DeletionsSpent (log : Log) (budget : Nat) (mark nowMs : Int) : Prop :=
  ∀ segment ∈ log.sealedMap, segment.Unmapped budget mark →
    ∀ dead ∈ recordsIn segment, log.expired nowMs dead = true → ∀ key ∈ dead.key,
      (∀ other ∈ log.records, other.key = some key → other.offset ≤ dead.offset) →
        viewOf (log.records.filter fun record => !log.expired nowMs record) key = none

section Order

variable {log : Log}

theorem records_in_active (settled : LogSettled log) :
    recordsIn log.active.toSegmentBase =
      (batchesIn log.active.toSegmentBase).flatMap recordsOf := by
  have scanned := scan_held settled.activeHolds.segmentHolds.toHoldsBatches
  have whole : log.active.log.bytes.take log.active.log.size = log.active.log.bytes := by
    rw [settled.activeHolds.tight, ← settled.settled.whole, List.take_length]
  rw [whole] at scanned
  rw [recordsIn, scanned]
  simp only [← List.flatMap_map, scanned_at_bytes]

theorem active_formed (cleanable : Cleanable log) :
    ∀ batch ∈ batchesIn log.active.toSegmentBase, FormedBatch batch :=
  fun batch member => cleanable.formed batch (List.mem_append_right _ member)

theorem active_record_from (cleanable : Cleanable log) (settled : LogSettled log) {record : LogRecord}
    (member : record ∈ recordsIn log.active.toSegmentBase) : log.active.baseOffset ≤ record.offset := by
  rw [records_in_active settled] at member
  obtain ⟨batch, inside, isRecord⟩ := List.mem_flatMap.mp member
  have above := (start_le_base cleanable.activeHolds.consecutive.ascending inside).1
  have starts := (well_formed_within ((active_formed cleanable batch inside).wellFormed isRecord) isRecord).1
  omega

theorem records_ascend (cleanable : Cleanable log) (settled : LogSettled log) :
    log.records.Pairwise fun earlier later => earlier.offset < later.offset := by
  have active : (recordsIn log.active.toSegmentBase).Pairwise fun earlier later =>
      earlier.offset < later.offset := by
    rw [records_in_active settled]
    exact ascending_records cleanable.activeHolds.consecutive.ascending (active_formed cleanable)
  refine List.pairwise_append.mpr ⟨sealed_records_ascend cleanable, active, ?_⟩
  intro earlier isEarlier later isLater
  obtain ⟨segment, member, isRecord⟩ := List.mem_flatMap.mp isEarlier
  have within := sealed_record_within cleanable member isRecord
  have below := (linked_below cleanable.linked member).2
  have above := active_record_from cleanable settled isLater
  omega

theorem distinct_offsets {records : List LogRecord}
    (ordered : records.Pairwise fun earlier later => earlier.offset < later.offset) :
    ∀ first ∈ records, ∀ second ∈ records, first.offset = second.offset → first = second := by
  have once : (records.map LogRecord.offset).Nodup :=
    List.pairwise_map.mpr (ordered.imp fun less => less.ne)
  exact fun first isFirst second isSecond same => List.inj_on_of_nodup_map once isFirst isSecond same

end Order

section Pass

variable {log swap : Log} {mark nowMs : Int} {budget : Nat} {front back : List SealedSegment}

theorem PassedOver.records {rules : RetainRules} (passed : PassedOver rules log swap front back)
    (cleanable : Cleanable log) :
    log.records = front.flatMap recordsIn ++ (back.flatMap recordsIn ++ recordsIn log.active.toSegmentBase) ∧
      swap.records = (front.flatMap recordsIn).filter rules.keeps ++
        (back.flatMap recordsIn ++ recordsIn log.active.toSegmentBase) := by
  have each := cleanable.sealedHolds
  obtain ⟨split, cleaned, _, _, cleans, rfl⟩ := passed
  rw [split] at each
  have within := cleans.records_within (fun other isOther => each other (List.mem_append_left _ isOther))
    fun _ => true
  simp only [List.filter_true] at within
  constructor
  · rw [Log.records, split, List.flatMap_append, List.append_assoc]
  · simp only [Log.records, List.flatMap_append, within, List.append_assoc]

/-- With a map in force a record stays as long as it is the latest of its key and has not expired. -/
theorem keeps_eq {map : KeyOffsetMap} (record : LogRecord) {key : Bytes} (keyed : record.key = some key) :
    (log.rulesOf map nowMs).keeps record = (map.isLatest key record.offset && !log.expired nowMs record) := by
  by_cases latest : map.isLatest key record.offset = true
  · cases value : record.value with
    | some bytes => simp [RetainRules.keeps, Log.rulesOf, Log.expired, keyed, latest, value]
    | none =>
        by_cases due : log.config.compaction.deleteRetentionMs ≤ nowMs - record.timestamp
        · simp [RetainRules.keeps, Log.rulesOf, Log.expired, keyed, latest, value, due, not_lt.mpr due]
        · simp [RetainRules.keeps, Log.rulesOf, Log.expired, keyed, latest, value, due, not_le.mp due]
  · simp [RetainRules.keeps, Log.rulesOf, keyed, latest]

/-- The sealed segments of a log in order stand one behind the other. -/
theorem linked_apart {newest : Int} {segments : List SealedSegment}
    (linked : Linked (· ≤ ·) newest segments) :
    segments.Pairwise fun earlier later => earlier.nextOffset ≤ later.baseOffset := by
  induction segments with
  | nil => exact .nil
  | cons segment segments ih =>
      refine List.pairwise_cons.mpr ⟨?_, ih linked.2.2⟩
      intro later member
      obtain ⟨ahead, behind, split⟩ := List.append_of_mem member
      have shifted : Linked (· ≤ ·) newest ((segment :: ahead) ++ later :: behind) := by
        rw [split] at linked
        exact linked
      exact (linked_before shifted List.mem_cons_self).2

/-- What the map of a pass says: each entry stands for a record of a segment that
reaches beyond the mark, and the records of a segment that the pass rewrites are
mapped, unless it may be one of those that are not. -/
structure Log.MapsWell (log : Log) (budget : Nat) (mark : Int) (dirty : DirtyMap) : Prop where
  onward : mark ≤ dirty.mappedThrough
  attained : ∀ digest offset, find dirty.map.entries digest = some offset →
    ∃ segment ∈ log.sealedMap, mark < segment.nextOffset ∧
      ∃ record ∈ recordsIn segment, record.key.map digestOf = some digest ∧ record.offset = offset
  covers : ∀ segment ∈ log.sealedMap, segment.baseOffset < dirty.mappedThrough →
    segment.Unmapped budget mark ∨ ∀ record ∈ recordsIn segment, ∀ key, record.key = some key →
      ∃ offset, find dirty.map.entries (digestOf key) = some offset ∧ record.offset ≤ offset

theorem maps_well (cleanable : Cleanable log) {dirty : DirtyMap}
    (mapped : log.mapKeys budget mark = .ok dirty) : log.MapsWell budget mark dirty := by
  obtain ⟨whole, rest, some_records, chosen, maps⟩ :=
    map_dirty_spec mark (map_holds_empty budget) cleanable.sealedHolds mapped
  have summary := maps.holds.summary
  rw [List.nil_append] at summary
  have inLog : ∀ segment ∈ whole ++ rest, segment ∈ log.sealedMap ∧ mark < segment.nextOffset := by
    intro segment member
    rw [← chosen] at member
    simpa using List.mem_filter.mp member
  refine ⟨?_, ?_, ?_⟩
  · rw [maps.through]
    cases last : whole.getLast? with
    | none => exact le_refl _
    | some newest => exact (inLog newest (List.mem_append_left _ (List.mem_of_getLast? last))).2.le
  · intro digest offset found
    obtain ⟨record, isRecord, key, keyed, same, atOffset⟩ :=
      mem_keyed_of.mp (summary.attained _ (summary.find_iff.mp found))
    obtain ⟨segment, member, inside⟩ : ∃ segment ∈ whole ++ rest, record ∈ recordsIn segment := by
      rcases List.mem_append.mp isRecord with inWhole | inRest
      · obtain ⟨segment, member, inside⟩ := List.mem_flatMap.mp inWhole
        exact ⟨segment, List.mem_append_left _ member, inside⟩
      · obtain ⟨segment, member, inside⟩ := maps.inside record inRest
        exact ⟨segment, List.mem_append_right _ member, inside⟩
    obtain ⟨isSealed, beyond⟩ := inLog segment member
    exact ⟨segment, isSealed, beyond, record, inside, by rw [keyed, Option.map_some, same], atOffset⟩
  · intro segment member below
    have spans := (linked_below cleanable.linked member).1
    by_cases ends : segment.nextOffset ≤ mark
    · exact .inl ⟨by omega, fun beyond => absurd beyond (by omega)⟩
    · have reaches : segment ∈ whole ++ rest := by
        rw [← chosen]
        exact List.mem_filter.mpr ⟨member, by simpa using ends⟩
      rcases List.mem_append.mp reaches with inWhole | inRest
      · right
        intro record isRecord key keyed
        have pair : (digestOf key, record.offset) ∈ keyedOf (whole.flatMap recordsIn ++ some_records) :=
          mem_keyed_of.mpr ⟨record, List.mem_append_left _ (List.mem_flatMap.mpr ⟨segment, inWhole, isRecord⟩),
            key, keyed, rfl, rfl⟩
        cases found : find dirty.map.entries (digestOf key) with
        | none => exact absurd (summary.complete _ pair) (find_none_iff.mp found)
        | some newest => exact ⟨newest, rfl, summary.highest _ (summary.find_iff.mp found) _ pair rfl⟩
      · -- the segment lies below what counts as mapped, so none has been mapped whole
        have order : (whole ++ rest).Pairwise fun earlier later => earlier.nextOffset ≤ later.baseOffset := by
          rw [← chosen]
          exact (linked_apart cleanable.linked).sublist List.filter_sublist
        obtain ⟨_, inOrder, across⟩ := List.pairwise_append.mp order
        have through := maps.through
        cases last : whole.getLast? with
        | some newest =>
            have ahead := across newest (List.mem_of_getLast? last) segment inRest
            rw [last] at through
            simp only [Option.map_some, Option.getD_some] at through
            omega
        | none =>
            rw [List.getLast?_eq_none_iff] at last
            subst last
            simp only [List.getLast?_nil, Option.map_none, Option.getD_none] at through
            refine .inl ⟨by omega, fun _ => ?_⟩
            cases rest with
            | nil => cases inRest
            | cons first others =>
                rcases List.mem_cons.mp inRest with rfl | later
                · simpa using maps.refuses segment rfl
                · have ahead := (List.pairwise_cons.mp inOrder).1 segment later
                  have beyond := (inLog first (by simp)).2
                  omega

/-- What is mapped for a key of the log is the offset of one of its records. -/
theorem Log.MapsWell.known {dirty : DirtyMap} (maps : log.MapsWell budget mark dirty)
    (distinct : DigestsDistinct log.records) {record : LogRecord} (member : record ∈ log.records) {key : Bytes}
    (keyed : record.key = some key) {offset : Int} (found : find dirty.map.entries (digestOf key) = some offset) :
    ∃ segment ∈ log.sealedMap, mark < segment.nextOffset ∧ ∃ mapped ∈ recordsIn segment,
      mapped ∈ log.records ∧ mapped.key = some key ∧ mapped.offset = offset := by
  obtain ⟨segment, isSealed, beyond, mapped, inside, digest, atOffset⟩ := maps.attained _ _ found
  have isMapped : mapped ∈ log.records :=
    List.mem_append_left _ (List.mem_flatMap.mpr ⟨segment, isSealed, inside⟩)
  have same := distinct mapped isMapped record member (by rw [digest, keyed, Option.map_some])
  exact ⟨segment, isSealed, beyond, mapped, inside, isMapped, same.trans keyed, atOffset⟩

/-- The newest record of a key goes only when it is a tombstone that has expired. -/
theorem newest_dropped {dirty : DirtyMap} (maps : log.MapsWell budget mark dirty)
    (distinct : DigestsDistinct log.records) {dead : LogRecord} {key : Bytes}
    (isDead : NewestFor log.records dead key)
    (dropped : ¬ (log.rulesOf dirty.map nowMs).keeps dead = true) : log.expired nowMs dead = true := by
  have latest : dirty.map.isLatest key dead.offset = true := by
    unfold KeyOffsetMap.isLatest
    cases found : dirty.map.find (digestOf key) with
    | none => rfl
    | some offset =>
        obtain ⟨_, _, _, mapped, _, isMapped, keyed, rfl⟩ := maps.known distinct isDead.member isDead.keyed found
        simpa using isDead.highest mapped isMapped keyed
  rw [keeps_eq dead isDead.keyed, latest] at dropped
  simpa using dropped

theorem is_latest_mono {map : KeyOffsetMap} {key : Bytes} {offset later : Int}
    (latest : map.isLatest key offset = true) (onward : offset ≤ later) : map.isLatest key later = true := by
  unfold KeyOffsetMap.isLatest at latest ⊢
  cases found : map.find (digestOf key) with
  | none => rfl
  | some newest =>
      simp only [found, decide_eq_true_eq] at latest ⊢
      exact latest.trans onward

section Newest

variable {dirty : DirtyMap} {dead : LogRecord} {key : Bytes}
  (passed : PassedOver (log.rulesOf dirty.map nowMs) log swap front back)
  (isDead : NewestFor log.records dead key) (inFront : dead ∈ front.flatMap recordsIn)

include isDead inFront

/-- Behind the segment with the newest record of a key the log has no record of it. -/
theorem PassedOver.none_behind {rules : RetainRules} (passed : PassedOver rules log swap front back)
    (cleanable : Cleanable log) (settled : LogSettled log) :
    ∀ record ∈ back.flatMap recordsIn ++ recordsIn log.active.toSegmentBase, record.key ≠ some key := by
  obtain ⟨before, _⟩ := passed.records cleanable
  have order := records_ascend cleanable settled
  rw [before] at order
  intro record behind keyed
  have above := (List.pairwise_append.mp order).2.2 dead inFront record behind
  exact absurd (isDead.highest record (before ▸ List.mem_append_right _ behind) keyed) (not_le.mpr above)

include passed

/-- Once a pass has taken the newest record of a key, what it leaves of the key is
at its newest what the log has of it without expired tombstones. -/
theorem newest_left (cleanable : Cleanable log) (settled : LogSettled log) {other : LogRecord}
    (isOther : NewestFor swap.records other key) :
    dirty.map.isLatest key other.offset = true ∧ log.expired nowMs other = false ∧
      NewestFor (log.records.filter fun record => !log.expired nowMs record) other key := by
  obtain ⟨before, after⟩ := passed.records cleanable
  have behind := passed.none_behind isDead inFront cleanable settled
  have inSwap := isOther.member
  rw [after] at inSwap
  have isKept := (List.mem_append.mp inSwap).resolve_right fun back => behind other back isOther.keyed
  obtain ⟨otherFront, kept⟩ := List.mem_filter.mp isKept
  rw [keeps_eq other isOther.keyed, Bool.and_eq_true, Bool.not_eq_true'] at kept
  have inLog : other ∈ log.records := before ▸ List.mem_append_left _ otherFront
  refine ⟨kept.1, kept.2, List.mem_filter.mpr ⟨inLog, by simp [kept.2]⟩, isOther.keyed, ?_⟩
  intro record member keyed
  obtain ⟨recordIn, live⟩ := List.mem_filter.mp member
  rw [before] at recordIn
  have ahead := (List.mem_append.mp recordIn).resolve_right fun back => behind record back keyed
  by_contra above
  have latest := is_latest_mono kept.1 (not_le.mp above).le
  apply above
  apply isOther.highest record _ keyed
  rw [after]
  refine List.mem_append_left _ (List.mem_filter.mpr ⟨ahead, ?_⟩)
  rw [keeps_eq record keyed, latest, Bool.true_and]
  exact live

theorem unmapped_left (cleanable : Cleanable log) (settled : LogSettled log)
    (unmapped : find dirty.map.entries (digestOf key) = none) :
    swap.view key = viewOf (log.records.filter fun record => !log.expired nowMs record) key := by
  obtain ⟨before, after⟩ := passed.records cleanable
  have behind := passed.none_behind isDead inFront cleanable settled
  have nothing : (back.flatMap recordsIn ++ recordsIn log.active.toSegmentBase).filter
      (fun record => decide (record.key = some key)) = [] := by
    apply List.filter_eq_nil_iff.mpr
    simpa using behind
  have never : ∀ offset, dirty.map.isLatest key offset = true := by
    have unmapped : dirty.map.find (digestOf key) = none := unmapped
    simp [KeyOffsetMap.isLatest, unmapped]
  have left : swap.records.filter (fun record => decide (record.key = some key)) =
      (log.records.filter fun record => !log.expired nowMs record).filter
        fun record => decide (record.key = some key) := by
    rw [after, before, List.filter_append, nothing, List.filter_append, List.filter_append, List.filter_comm _ _
      (back.flatMap recordsIn ++ _), nothing, List.filter_nil, List.filter_filter, List.filter_filter]
    congr 1
    apply List.filter_congr
    intro record _
    by_cases keyed : record.key = some key
    · rw [keeps_eq record keyed, never, Bool.true_and]
    · simp [keyed]
  simp only [Log.view, viewOf, reading, left]

end Newest

/-- At every point of a pass the log says of each key what it said before. -/
theorem PassedOver.keeps_view {dirty : DirtyMap} (cleanable : Cleanable log) (settled : LogSettled log)
    (distinct : DigestsDistinct log.records) (spent : log.DeletionsSpent budget mark nowMs)
    (maps : log.MapsWell budget mark dirty)
    (passed : PassedOver (log.rulesOf dirty.map nowMs) log swap front back)
    (below : ∀ segment ∈ front, segment.baseOffset < dirty.mappedThrough) : swap.view = log.view := by
  obtain ⟨before, after⟩ := passed.records cleanable
  have ascend := records_ascend cleanable settled
  have order := ascend
  rw [before] at order
  obtain ⟨_, _, across⟩ := List.pairwise_append.mp order
  have apart := distinct_offsets ascend
  have inside : ∀ record ∈ swap.records, record ∈ log.records := by
    intro record member
    rw [after] at member
    rw [before]
    exact (List.mem_append.mp member).elim (fun kept => List.mem_append_left _ (List.mem_filter.mp kept).1)
      (List.mem_append_right _)
  funext key
  apply reading_kept apart inside
  intro dead isDead
  have member := isDead.member
  rw [before] at member
  rcases List.mem_append.mp member with inFront | inBack
  swap
  · left
    rw [after]
    exact List.mem_append_right _ inBack
  by_cases kept : (log.rulesOf dirty.map nowMs).keeps dead = true
  · left
    rw [after]
    exact List.mem_append_left _ (List.mem_filter.mpr ⟨inFront, kept⟩)
  right
  have expired := newest_dropped maps distinct isDead kept
  refine ⟨by simpa using (Bool.and_eq_true_iff.mp expired).1, ?_⟩
  intro other isOther
  obtain ⟨otherLatest, live, newest⟩ := newest_left passed isDead inFront cleanable settled isOther
  obtain ⟨segment, isSegment, inSegment⟩ := List.mem_flatMap.mp inFront
  have inLog : segment ∈ log.sealedMap := passed.1 ▸ List.mem_append_left _ isSegment
  rcases maps.covers segment inLog (below segment isSegment) with unmapped | mapped
  · have nothing := spent segment inLog unmapped dead inSegment expired key isDead.keyed isDead.highest
    have still : ∀ first ∈ log.records.filter fun record => !log.expired nowMs record, ∀ second ∈
        log.records.filter fun record => !log.expired nowMs record, first.offset = second.offset → first = second :=
      fun first isFirst second isSecond =>
        apart first (List.mem_filter.mp isFirst).1 second (List.mem_filter.mp isSecond).1
    rwa [viewOf, reading_of_newest still newest] at nothing
  · -- the tombstone is what is mapped, and nothing older than that is left
    obtain ⟨offset, found, mappedAt⟩ := mapped dead inSegment key isDead.keyed
    have found : dirty.map.find (digestOf key) = some offset := found
    simp only [KeyOffsetMap.isLatest, found, decide_eq_true_eq] at otherLatest
    have same := apart other (inside other isOther.member) dead isDead.member
      (le_antisymm (isDead.highest other (inside other isOther.member) isOther.keyed)
        (mappedAt.trans otherLatest))
    rw [same, expired] at live
    cases live

/-- A pass changes what the log says of no key, neither at its end nor after any
of the segments it has dealt with. -/
theorem pass_keeps_view (cleanable : Cleanable log) (settled : LogSettled log)
    (distinct : DigestsDistinct log.records) (spent : log.DeletionsSpent budget mark nowMs) :
    (∀ swap ∈ (cleanLog log budget mark nowMs).swaps, swap.view = log.view) ∧
      (cleanLog log budget mark nowMs).log.view = log.view := by
  rcases clean_log_cases log budget mark nowMs with ⟨_, _, idle⟩ |
    ⟨dirty, result, mapped, _, ⟨_, idle⟩ | ⟨_, ran⟩⟩
  · simp [idle]
  · simp [idle]
  · have maps := maps_well cleanable mapped
    obtain ⟨done, rest, _, below, ends, swaps, _⟩ := @clean_segments_spec log log cleanable
      (log.rulesOf dirty.map nowMs) dirty.mappedThrough nowMs [] log.sealedMap result (.start _ log)
    rw [ran]
    constructor
    · intro swap member
      obtain ⟨some_done, later, isDone, passed⟩ := swaps swap member
      refine passed.keeps_view cleanable settled distinct spent maps ?_
      intro segment inside
      exact below segment (isDone ▸ List.mem_append_left _ inside)
    · exact ends.keeps_view cleanable settled distinct spent maps below

/-- Of a key whose newest record is in a segment that ends below the mark, a pass
that goes through leaves whatever has not expired. -/
theorem pass_uncovers (cleanable : Cleanable log) (settled : LogSettled log)
    (distinct : DigestsDistinct log.records) {segment : SealedSegment} (member : segment ∈ log.sealedMap)
    (ends : segment.nextOffset ≤ mark) {dead : LogRecord} (inside : dead ∈ recordsIn segment) {key : Bytes}
    (isDead : NewestFor log.records dead key) {dirty : DirtyMap} (mapped : log.mapKeys budget mark = .ok dirty)
    (occupied : dirty.map.entries ≠ []) {finished : CleanResult}
    (completes : (cleanLog log budget mark nowMs).outcome = .ok finished) :
    (cleanLog log budget mark nowMs).log.view key =
      viewOf (log.records.filter fun record => !log.expired nowMs record) key := by
  have maps := maps_well cleanable mapped
  have deadWithin := sealed_record_within cleanable member inside
  have unmapped : find dirty.map.entries (digestOf key) = none := by
    by_contra known
    obtain ⟨offset, found⟩ := Option.ne_none_iff_exists'.mp known
    obtain ⟨owner, isOwner, beyond, record, isRecord, inLog, keyed, _⟩ :=
      maps.known distinct isDead.member isDead.keyed found
    have below := isDead.highest record inLog keyed
    have within := sealed_record_within cleanable isOwner isRecord
    obtain ⟨ahead, behind, split⟩ := List.append_of_mem member
    have apart := linked_apart cleanable.linked
    rw [split] at apart isOwner
    obtain ⟨_, after, before⟩ := List.pairwise_append.mp apart
    rcases List.mem_append.mp isOwner with isAhead | here
    · have := before owner isAhead segment List.mem_cons_self
      omega
    · rcases List.mem_cons.mp here with rfl | isBehind
      · omega
      · have := (List.pairwise_cons.mp after).1 owner isBehind
        omega
  rcases clean_log_cases log budget mark nowMs with ⟨failure, failed, _⟩ |
    ⟨others, result, again, _, ⟨empty, _⟩ | ⟨_, ran⟩⟩
  · rw [mapped] at failed
    cases failed
  · rw [mapped] at again
    cases again
    exact absurd empty occupied
  · rw [mapped] at again
    cases again
    obtain ⟨done, rest, split, _, passed, _, finishes⟩ := @clean_segments_spec log log cleanable
      (log.rulesOf dirty.map nowMs) dirty.mappedThrough nowMs [] log.sealedMap result (.start _ log)
    rw [ran] at completes ⊢
    have stops := (finishes finished completes).2
    rw [List.nil_append] at passed
    have isDone : segment ∈ done := by
      rw [split] at member
      rcases List.mem_append.mp member with done | notDone
      · exact done
      · have behind := begin_behind (split ▸ cleanable.linked) stops segment notDone
        have onward := maps.onward
        omega
    exact unmapped_left passed isDead (List.mem_flatMap.mpr ⟨segment, isDone, inside⟩) cleanable settled unmapped

/-- Where no segment reaches across the mark, a pass that maps something and goes
through keeps what the log says exactly when its deletions are spent. -/
theorem pass_keeps_view_iff (cleanable : Cleanable log) (settled : LogSettled log)
    (distinct : DigestsDistinct log.records)
    (aside : ∀ segment ∈ log.sealedMap, segment.nextOffset ≤ mark ∨ mark ≤ segment.baseOffset)
    {dirty : DirtyMap} (mapped : log.mapKeys budget mark = .ok dirty) (occupied : dirty.map.entries ≠ [])
    {finished : CleanResult} (completes : (cleanLog log budget mark nowMs).outcome = .ok finished) :
    (cleanLog log budget mark nowMs).log.view = log.view ↔ log.DeletionsSpent budget mark nowMs := by
  constructor
  · intro same segment member unmapped dead inside expired key keyed newest
    have ends := (aside segment member).resolve_right (not_le.mpr unmapped.1)
    have isDead : NewestFor log.records dead key :=
      ⟨List.mem_append_left _ (List.mem_flatMap.mpr ⟨segment, member, inside⟩), by simpa using keyed, newest⟩
    rw [← pass_uncovers cleanable settled distinct member ends inside isDead mapped occupied completes, same]
    have apart := distinct_offsets (records_ascend cleanable settled)
    rw [Log.view, viewOf, reading_of_newest apart isDead]
    simpa using (Bool.and_eq_true_iff.mp expired).1
  · intro spent
    exact (pass_keeps_view cleanable settled distinct spent).2

end Pass

theorem KeysOnce.same {records : List LogRecord} (once : KeysOnce records) {first second : LogRecord}
    {key : Bytes} (isFirst : first ∈ records) (firstKeyed : first.key = some key)
    (isSecond : second ∈ records) (secondKeyed : second.key = some key) : first = second := by
  have here : first ∈ records.filter fun record => decide (record.key = some key) := by
    simp [isFirst, firstKeyed]
  have there : second ∈ records.filter fun record => decide (record.key = some key) := by
    simp [isSecond, secondKeyed]
  have atMost := once key
  cases kept : records.filter fun record => decide (record.key = some key) with
  | nil => simp [kept] at here
  | cons only rest =>
      have alone : rest = [] := by
        rw [kept, List.length_cons] at atMost
        exact List.length_eq_zero_iff.mp (by omega)
      rw [kept, alone, List.mem_singleton] at here there
      rw [here, there]

/-- Below a mark that stands where a pass of this log has left it, an expired
tombstone is the only record of its key. -/
theorem own_mark_spent {log : Log} {mark : Int} (holds : MarkHolds log mark) (budget : Nat) (nowMs : Int) :
    log.DeletionsSpent budget mark nowMs := by
  intro segment member unmapped dead isDead expired key keyed newest
  have ends : segment.nextOffset ≤ mark :=
    (holds.splits.aside segment member).resolve_right (not_le.mpr unmapped.1)
  have deadBelow := (sealed_record_within holds.cleanable member isDead).2
  apply reading_of_absent
  intro record isLive same
  obtain ⟨isRecord, live⟩ := List.mem_filter.mp isLive
  have below : record.offset < mark := by
    have := newest record isRecord same
    omega
  have recordHere : record ∈ log.recordsBelow mark := by
    rcases List.mem_append.mp isRecord with isSealed | inActive
    · obtain ⟨owner, isOwner, inside⟩ := List.mem_flatMap.mp isSealed
      have starts := (sealed_record_within holds.cleanable isOwner inside).1
      exact List.mem_flatMap.mpr ⟨owner, List.mem_filter.mpr ⟨isOwner, by simp; omega⟩, inside⟩
    · have starts := active_record_from holds.cleanable holds.settled inActive
      have active := holds.splits.active
      omega
  have deadHere : dead ∈ log.recordsBelow mark :=
    List.mem_flatMap.mpr ⟨segment, List.mem_filter.mpr ⟨member, by simpa using unmapped.1⟩, isDead⟩
  rw [holds.once.same recordHere same deadHere keyed, expired] at live
  cases live

end DariyaKyu.Storage

import DariyaKyu.Storage.CleanerService
import DariyaKyu.Storage.CompactedReads
import DariyaKyu.Storage.KeyMapping
import DariyaKyu.Storage.Maintenance
import Mathlib.Algebra.Order.Ring.Rat

/-!
What the mark of a partition says. It stands at the end of a sealed segment,
and among the sealed segments below it a key has at most one record: a pass takes
the older records of every key it has mapped, wherever they are, and a key that
it has not mapped is in none of the segments it moves the mark over.
-/

namespace DariyaKyu.Storage

set_option autoImplicit false

open NewestByKey

def Log.recordsBelow (log : Log) (mark : Int) : List LogRecord :=
  (log.sealedMap.filter fun segment => decide (segment.baseOffset < mark)).flatMap recordsIn

def KeysOnce (records : List LogRecord) : Prop :=
  ∀ key, (records.filter fun record => decide (record.key = some key)).length ≤ 1

theorem KeysOnce.sublist {records kept : List LogRecord} (once : KeysOnce records)
    (inside : kept.Sublist records) : KeysOnce kept :=
  fun key => (inside.filter _).length_le.trans (once key)

theorem at_most_one {records : List LogRecord} {offset : Int}
    (ordered : records.Pairwise fun earlier later => earlier.offset < later.offset)
    (here : ∀ record ∈ records, record.offset = offset) : records.length ≤ 1 := by
  cases records with
  | nil => exact Nat.zero_le 1
  | cons first rest =>
      cases rest with
      | nil => exact Nat.le_refl 1
      | cons second rest =>
          have less := (List.pairwise_cons.mp ordered).1 second List.mem_cons_self
          have one := here first List.mem_cons_self
          have two := here second (List.mem_cons_of_mem _ List.mem_cons_self)
          omega

section Records

variable {newest : Int} {segments : List SealedSegment}

theorem linked_ascending (linked : Linked (· ≤ ·) newest segments)
    (holds : ∀ segment ∈ segments, SealedHolds segment (batchesIn segment)) :
    Ascending (nextBase newest segments) (segments.flatMap batchesIn) := by
  induction segments with
  | nil => trivial
  | cons segment segments ih =>
      obtain ⟨_, ends, later⟩ := linked
      simp only [List.forall_mem_cons] at holds
      rw [List.flatMap_cons]
      apply ascending_append.mpr
      have starts : nextBase newest (segment :: segments) = segment.baseOffset := rfl
      refine ⟨holds.1.ascending, ?_⟩
      rw [starts, ← holds.1.ends]
      have rest := ih later holds.2
      cases behind : segments.flatMap batchesIn with
      | nil => trivial
      | cons batch batches =>
          rw [behind] at rest
          exact ⟨ends.trans rest.1, rest.2⟩

theorem records_in_all (holds : ∀ segment ∈ segments, SealedHolds segment (batchesIn segment)) :
    segments.flatMap recordsIn = (segments.flatMap batchesIn).flatMap recordsOf := by
  rw [List.flatMap_assoc]
  apply List.flatMap_congr
  intro segment member
  exact records_in_sealed (holds segment member)

theorem record_in_segment {segment : SealedSegment} (holds : SealedHolds segment (batchesIn segment))
    (formed : ∀ batch ∈ batchesIn segment, FormedBatch batch) {record : LogRecord}
    (member : record ∈ recordsIn segment) :
    segment.baseOffset ≤ record.offset ∧ record.offset < segment.nextOffset := by
  rw [records_in_sealed holds] at member
  obtain ⟨batch, inside, isRecord⟩ := List.mem_flatMap.mp member
  have within := well_formed_within ((formed batch inside).wellFormed isRecord) isRecord
  have base := (start_le_base holds.ascending inside).1
  have last := last_lt_end holds.ascending inside
  rw [← holds.ends] at last
  omega

end Records

section CleanedRecords

variable {rules : RetainRules} {before after : List SealedSegment}

theorem CleanedTo.records_within (cleaned : CleanedTo rules before after)
    (holds : ∀ segment ∈ before, SealedHolds segment (batchesIn segment)) (chosen : Int → Bool) :
    (after.filter fun segment => chosen segment.baseOffset).flatMap recordsIn =
      ((before.filter fun segment => chosen segment.baseOffset).flatMap recordsIn).filter rules.keeps := by
  induction cleaned with
  | nil => rfl
  | @unchanged segment _ _ retained _ ih =>
      simp only [List.forall_mem_cons] at holds
      have kept : (recordsIn segment).filter rules.keeps = recordsIn segment := by
        rw [records_in_sealed holds.1]
        exact List.filter_eq_self.mpr retained
      cases isChosen : chosen segment.baseOffset <;>
        simp [isChosen, ih holds.2, kept]
  | @replaced segment replacement _ _ replacementHolds base rewritten _ _ ih =>
      simp only [List.forall_mem_cons] at holds
      have kept : recordsIn replacement = (recordsIn segment).filter rules.keeps := by
        rw [records_in_sealed holds.1, records_in_sealed replacementHolds, rewritten.records]
      cases isChosen : chosen segment.baseOffset <;>
        simp [base, isChosen, ih holds.2, kept]
  | @removed segment _ _ rewritten _ ih =>
      simp only [List.forall_mem_cons] at holds
      have kept : (recordsIn segment).filter rules.keeps = [] := by
        rw [records_in_sealed holds.1, ← rewritten.records, List.flatMap_nil]
      cases isChosen : chosen segment.baseOffset <;>
        simp [isChosen, ih holds.2, kept]

/-- Each segment that is left takes the place of one it does not reach beyond. -/
theorem CleanedTo.within (cleaned : CleanedTo rules before after)
    (holds : ∀ segment ∈ before, SealedHolds segment (batchesIn segment)) :
    ∀ left ∈ after, ∃ segment ∈ before, left.baseOffset = segment.baseOffset ∧
      left.nextOffset ≤ segment.nextOffset := by
  induction cleaned with
  | nil => simp
  | unchanged _ _ ih =>
      simp only [List.forall_mem_cons] at holds
      intro left member
      rcases List.mem_cons.mp member with rfl | later
      · exact ⟨_, List.mem_cons_self, rfl, le_refl _⟩
      · obtain ⟨segment, inside, same⟩ := ih holds.2 left later
        exact ⟨segment, List.mem_cons_of_mem _ inside, same⟩
  | replaced replacementHolds base rewritten occupied _ ih =>
      simp only [List.forall_mem_cons] at holds
      intro left member
      rcases List.mem_cons.mp member with rfl | later
      · have shorter := (replacement_inside holds.1 replacementHolds base rewritten occupied).2
        exact ⟨_, List.mem_cons_self, base, shorter⟩
      · obtain ⟨segment, inside, same⟩ := ih holds.2 left later
        exact ⟨segment, List.mem_cons_of_mem _ inside, same⟩
  | removed _ _ ih =>
      simp only [List.forall_mem_cons] at holds
      intro left member
      obtain ⟨segment, inside, same⟩ := ih holds.2 left member
      exact ⟨segment, List.mem_cons_of_mem _ inside, same⟩

end CleanedRecords

/-- No sealed segment reaches across the mark, and the active one is behind it. -/
structure Log.SplitBy (log : Log) (mark : Int) : Prop where
  active : mark ≤ log.active.baseOffset
  aside : ∀ segment ∈ log.sealedMap, segment.nextOffset ≤ mark ∨ mark ≤ segment.baseOffset

structure MarkHolds (log : Log) (mark : Int) : Prop where
  cleanable : Cleanable log
  settled : LogSettled log
  splits : log.SplitBy mark
  once : KeysOnce (log.recordsBelow mark)

section Pass

variable {log swap : Log} {mark : Int} {rules : RetainRules} {front back : List SealedSegment}

theorem PassedOver.splits (passed : PassedOver rules log swap front back) (cleanable : Cleanable log)
    (splits : log.SplitBy mark) : swap.SplitBy mark := by
  have each := cleanable.sealedHolds
  obtain ⟨split, cleaned, _, _, cleans, rfl⟩ := passed
  rw [split] at each
  refine ⟨splits.active, ?_⟩
  intro left member
  rcases List.mem_append.mp member with inFront | inBack
  · obtain ⟨segment, inside, base, ends⟩ := cleans.within
      (fun other isOther => each other (List.mem_append_left _ isOther)) left inFront
    rcases splits.aside segment (split ▸ List.mem_append_left _ inside) with below | above
    · exact .inl (ends.trans below)
    · exact .inr (base ▸ above)
  · exact splits.aside left (split ▸ List.mem_append_right _ inBack)

/-- What a pass has left below a mark by the time it has gone over these segments. -/
theorem PassedOver.recordsBelow (passed : PassedOver rules log swap front back)
    (cleanable : Cleanable log) (mark : Int) :
    swap.recordsBelow mark =
      ((front.filter fun segment => decide (segment.baseOffset < mark)).flatMap recordsIn).filter rules.keeps ++
        (back.filter fun segment => decide (segment.baseOffset < mark)).flatMap recordsIn := by
  have each := cleanable.sealedHolds
  obtain ⟨split, cleaned, _, _, cleans, rfl⟩ := passed
  rw [split] at each
  have within := cleans.records_within (fun other isOther => each other (List.mem_append_left _ isOther))
    fun base => decide (base < mark)
  simp only [Log.recordsBelow, List.filter_append, List.flatMap_append, within]

theorem PassedOver.keeps (passed : PassedOver rules log swap front back) (holds : MarkHolds log mark) :
    MarkHolds swap mark where
  cleanable := passed.cleanable holds.cleanable
  settled := passed.settled holds.cleanable holds.settled
  splits := passed.splits holds.cleanable holds.splits
  once := by
    apply holds.once.sublist
    rw [passed.recordsBelow holds.cleanable, Log.recordsBelow, passed.1, List.filter_append,
      List.flatMap_append]
    exact List.filter_sublist.append (List.Sublist.refl _)

theorem split_at_mark {newest : Int} {segments : List SealedSegment}
    (linked : Linked (· ≤ ·) newest segments)
    (aside : ∀ segment ∈ segments, segment.nextOffset ≤ mark ∨ mark ≤ segment.baseOffset) :
    ∃ below above, segments = below ++ above ∧ (∀ segment ∈ below, segment.nextOffset ≤ mark) ∧
      ∀ segment ∈ above, mark ≤ segment.baseOffset := by
  induction segments with
  | nil => exact ⟨[], [], rfl, by simp, by simp⟩
  | cons segment segments ih =>
      rcases aside segment List.mem_cons_self with ends | starts
      · obtain ⟨below, above, split, isBelow, isAbove⟩ :=
          ih linked.2.2 fun other member => aside other (List.mem_cons_of_mem _ member)
        refine ⟨segment :: below, above, by rw [split, List.cons_append], ?_, isAbove⟩
        exact List.forall_mem_cons.mpr ⟨ends, isBelow⟩
      · refine ⟨[], segment :: segments, rfl, by simp, ?_⟩
        intro other member
        rcases List.mem_cons.mp member with rfl | later
        · exact starts
        · obtain ⟨ahead, behind, split⟩ := List.append_of_mem later
          have shifted : Linked (· ≤ ·) newest ((segment :: ahead) ++ other :: behind) := by
            rw [split] at linked
            exact linked
          have before := linked_before shifted List.mem_cons_self
          omega

/-- What the first phase maps of a log that the mark splits. -/
structure Log.MapsFrom (log : Log) (mark : Int) (budget : Nat) (dirty : DirtyMap)
    (below mapped rest : List SealedSegment) (some_records : List LogRecord) : Prop
    extends MapsSegments ⟨⟨budget, []⟩, mark, false⟩ [] dirty mapped rest some_records where
  split : log.sealedMap = below ++ (mapped ++ rest)
  ends : ∀ segment ∈ below, segment.nextOffset ≤ mark
  starts : ∀ segment ∈ mapped ++ rest, mark ≤ segment.baseOffset
  onward : mark ≤ dirty.mappedThrough
  upTo : ∀ segment ∈ mapped, segment.nextOffset ≤ dirty.mappedThrough
  behind : ∀ segment ∈ rest, dirty.mappedThrough ≤ segment.baseOffset
  newest : dirty.mappedThrough ≤ log.active.baseOffset

theorem map_keys_spec (cleanable : Cleanable log) (splits : log.SplitBy mark) {budget : Nat}
    {dirty : DirtyMap} (mapped : log.mapKeys budget mark = .ok dirty) :
    ∃ below front rest some_records, log.MapsFrom mark budget dirty below front rest some_records := by
  obtain ⟨front, rest, some_records, chosen, maps⟩ :=
    map_dirty_spec mark (map_holds_empty budget) cleanable.sealedHolds mapped
  obtain ⟨below, above, split, isBelow, isAbove⟩ := split_at_mark cleanable.linked splits.aside
  have above_chosen : log.sealedMap.filter (fun segment => decide (mark < segment.nextOffset)) = above := by
    rw [split, List.filter_append, List.filter_eq_nil_iff.mpr, List.filter_eq_self.mpr, List.nil_append]
    · intro segment member
      have starts := isAbove segment member
      have spans := (linked_below cleanable.linked (split ▸ List.mem_append_right _ member)).1
      simp only [decide_eq_true_eq]
      omega
    · intro segment member
      have ends := isBelow segment member
      simp only [decide_eq_true_eq]
      omega
  rw [above_chosen] at chosen
  subst chosen
  have linked := cleanable.linked
  rw [split] at linked
  have spans : ∀ segment ∈ log.sealedMap, segment.baseOffset < segment.nextOffset ∧
      segment.nextOffset ≤ log.active.baseOffset := fun segment member =>
    linked_below cleanable.linked member
  obtain ⟨onward, upTo, behind, newest⟩ : mark ≤ dirty.mappedThrough ∧
      (∀ segment ∈ front, segment.nextOffset ≤ dirty.mappedThrough) ∧
      (∀ segment ∈ rest, dirty.mappedThrough ≤ segment.baseOffset) ∧
      dirty.mappedThrough ≤ log.active.baseOffset := by
    have through := maps.through
    cases last : front.getLast? with
    | none =>
        rw [List.getLast?_eq_none_iff] at last
        subst last
        simp only [List.getLast?_nil, Option.map_none, Option.getD_none] at through
        rw [through]
        exact ⟨le_refl _, by simp, isAbove, splits.active⟩
    | some newest =>
        obtain ⟨earlier, isLast⟩ := List.getLast?_eq_some_iff.mp last
        rw [last] at through
        simp only [Option.map_some, Option.getD_some] at through
        subst isLast
        have inMap : newest ∈ log.sealedMap := by simp [split]
        have reaches := isAbove newest (by simp)
        have grows := spans newest inMap
        rw [through]
        refine ⟨by omega, ?_, ?_, grows.2⟩
        · intro segment member
          rcases List.mem_append.mp member with before | same
          · have shape : below ++ ((earlier ++ [newest]) ++ rest) = (below ++ earlier) ++ newest :: rest := by
              simp
            rw [shape] at linked
            have ahead := linked_before linked (List.mem_append_right below before)
            omega
          · rw [List.mem_singleton.mp same]
        · intro segment member
          obtain ⟨some_rest, later, isRest⟩ := List.append_of_mem member
          have shape : below ++ ((earlier ++ [newest]) ++ rest) =
              (below ++ earlier ++ newest :: some_rest) ++ segment :: later := by
            simp [isRest]
          rw [shape] at linked
          exact (linked_before linked (by simp)).2
  exact ⟨below, front, rest, some_records, maps, split, isBelow, isAbove, onward, upTo, behind, newest⟩

theorem sealed_records_ascend (cleanable : Cleanable log) :
    (log.sealedMap.flatMap recordsIn).Pairwise fun earlier later => earlier.offset < later.offset := by
  rw [records_in_all cleanable.sealedHolds]
  apply ascending_records (linked_ascending cleanable.linked cleanable.sealedHolds)
  intro batch member
  exact cleanable.formed batch (List.mem_append_left _ member)

theorem sealed_record_within (cleanable : Cleanable log) {segment : SealedSegment}
    (member : segment ∈ log.sealedMap) {record : LogRecord} (isRecord : record ∈ recordsIn segment) :
    segment.baseOffset ≤ record.offset ∧ record.offset < segment.nextOffset :=
  record_in_segment (cleanable.sealedHolds segment member)
    (fun batch inside => (cleanable.sealedBounded member batch inside).1) isRecord

theorem keeps_newest {map : KeyOffsetMap} (inForce : rules.map = some map) {record : LogRecord}
    (keeps : rules.keeps record = true) {key : Bytes} (keyed : record.key = some key) {offset : Int}
    (found : find map.entries (digestOf key) = some offset) : offset ≤ record.offset := by
  have found : map.find (digestOf key) = some offset := found
  by_contra older
  simp [RetainRules.keeps, inForce, keyed, KeyOffsetMap.isLatest, found, older] at keeps

/-- Of the records below the new mark, a pass keeps at most one for each key. -/
theorem once_kept {budget : Nat} {dirty : DirtyMap} {below mapped rest : List SealedSegment}
    {some_records : List LogRecord} (cleanable : Cleanable log)
    (maps : log.MapsFrom mark budget dirty below mapped rest some_records)
    (inForce : rules.map = some dirty.map) (once : KeysOnce (below.flatMap recordsIn)) :
    KeysOnce ((below.flatMap recordsIn ++ mapped.flatMap recordsIn).filter rules.keeps) := by
  have summary := maps.holds.summary
  rw [List.nil_append] at summary
  have inMap : ∀ segment ∈ below ++ (mapped ++ rest), segment ∈ log.sealedMap := by
    intro segment member
    rw [maps.split]
    exact member
  intro key
  rw [List.filter_append, List.filter_append, List.length_append]
  cases found : find dirty.map.entries (digestOf key) with
  | none =>
      -- the key is in none of the segments that were mapped
      have unmapped := find_none_iff.mp found
      have absent : ((mapped.flatMap recordsIn).filter rules.keeps).filter
          (fun record => decide (record.key = some key)) = [] := by
        apply List.filter_eq_nil_iff.mpr
        intro record member keyed
        simp only [decide_eq_true_eq] at keyed
        have inside := (List.mem_filter.mp member).1
        apply unmapped
        apply summary.complete (digestOf key, record.offset)
        exact mem_keyed_of.mpr ⟨record, List.mem_append_left _ inside, key, keyed, rfl, rfl⟩
      rw [absent, List.length_nil, Nat.add_zero]
      exact once.sublist List.filter_sublist key
  | some newest =>
      have attained := summary.find_iff.mp found
      obtain ⟨latest, isLatest, _, _, _, atNewest⟩ := mem_keyed_of.mp (summary.attained _ attained)
      have behindMark : mark ≤ newest := by
        rcases List.mem_append.mp isLatest with inMapped | inRest
        · obtain ⟨segment, member, isRecord⟩ := List.mem_flatMap.mp inMapped
          have starts := maps.starts segment (List.mem_append_left _ member)
          have within := sealed_record_within cleanable (inMap segment (by simp [member])) isRecord
          omega
        · obtain ⟨segment, member, isRecord⟩ := maps.inside latest inRest
          have starts := maps.starts segment (List.mem_append_right _ member)
          have within := sealed_record_within cleanable (inMap segment (by simp [member])) isRecord
          omega
      have older : ((below.flatMap recordsIn).filter rules.keeps).filter
          (fun record => decide (record.key = some key)) = [] := by
        apply List.filter_eq_nil_iff.mpr
        intro record member keyed
        simp only [decide_eq_true_eq] at keyed
        obtain ⟨inside, keeps⟩ := List.mem_filter.mp member
        obtain ⟨segment, isSegment, isRecord⟩ := List.mem_flatMap.mp inside
        have above := keeps_newest inForce keeps keyed found
        have within := sealed_record_within cleanable (inMap segment (by simp [isSegment])) isRecord
        have ends := maps.ends segment isSegment
        omega
      rw [older, List.length_nil, Nat.zero_add]
      have ordered := sealed_records_ascend cleanable
      rw [maps.split, List.flatMap_append, List.flatMap_append] at ordered
      have middle := (List.pairwise_append.mp (List.pairwise_append.mp ordered).2.1).1
      have atNewest : ∀ record ∈ ((mapped.flatMap recordsIn).filter rules.keeps).filter
          (fun record => decide (record.key = some key)), record.offset = newest := by
        intro record member
        obtain ⟨kept, keyed⟩ := List.mem_filter.mp member
        simp only [decide_eq_true_eq] at keyed
        obtain ⟨inside, keeps⟩ := List.mem_filter.mp kept
        have above := keeps_newest inForce keeps keyed found
        have below := summary.highest _ attained (digestOf key, record.offset)
          (mem_keyed_of.mpr ⟨record, List.mem_append_left _ inside, key, keyed, rfl, rfl⟩) rfl
        exact le_antisymm below above
      refine at_most_one (List.Pairwise.sublist ?_ middle) atNewest
      exact List.filter_sublist.trans List.filter_sublist

/-- Below the end of what was mapped are the segments below the mark and those
that were mapped. -/
theorem records_below_mapped {budget : Nat} {dirty : DirtyMap} {below mapped rest : List SealedSegment}
    {some_records : List LogRecord} (cleanable : Cleanable log)
    (maps : log.MapsFrom mark budget dirty below mapped rest some_records) :
    log.recordsBelow mark = below.flatMap recordsIn ∧
      log.recordsBelow dirty.mappedThrough = below.flatMap recordsIn ++ mapped.flatMap recordsIn := by
  have spans : ∀ segment ∈ below ++ (mapped ++ rest), segment.baseOffset < segment.nextOffset := by
    intro segment member
    exact (linked_below cleanable.linked (maps.split ▸ member)).1
  have onward := maps.onward
  constructor
  · rw [Log.recordsBelow, maps.split, List.filter_append, List.filter_eq_self.mpr,
      List.filter_eq_nil_iff.mpr, List.append_nil]
    · intro segment member
      have starts := maps.starts segment member
      simp only [decide_eq_true_eq]
      omega
    · intro segment member
      have ends := maps.ends segment member
      have grows := spans segment (List.mem_append_left _ member)
      simp only [decide_eq_true_eq]
      omega
  · rw [Log.recordsBelow, maps.split, ← List.append_assoc, List.filter_append, List.filter_eq_self.mpr,
      List.filter_eq_nil_iff.mpr, List.append_nil, List.flatMap_append]
    · intro segment member
      have starts := maps.behind segment member
      simp only [decide_eq_true_eq]
      omega
    · intro segment member
      simp only [decide_eq_true_eq]
      rcases List.mem_append.mp member with isBelow | isMapped
      · have ends := maps.ends segment isBelow
        have grows := spans segment (List.mem_append_left _ isBelow)
        omega
      · have ends := maps.upTo segment isMapped
        have grows := spans segment (by simp [isMapped])
        omega

theorem Log.MapsFrom.splitsThere {budget : Nat} {dirty : DirtyMap}
    {below mapped rest : List SealedSegment} {some_records : List LogRecord}
    (maps : log.MapsFrom mark budget dirty below mapped rest some_records) :
    log.SplitBy dirty.mappedThrough := by
  refine ⟨maps.newest, ?_⟩
  intro segment member
  rw [maps.split] at member
  rcases List.mem_append.mp member with isBelow | above
  · exact .inl ((maps.ends segment isBelow).trans maps.onward)
  · rcases List.mem_append.mp above with isMapped | isRest
    · exact .inl (maps.upTo segment isMapped)
    · exact .inr (maps.behind segment isRest)

theorem pass_keeps_mark (holds : MarkHolds log mark) (budget : Nat) (nowMs : Int) :
    MarkHolds (cleanLog log budget mark nowMs).log mark ∧
      ∀ finished, (cleanLog log budget mark nowMs).outcome = .ok finished →
        MarkHolds (cleanLog log budget mark nowMs).log finished.nextDirtyOffset := by
  have cleanable := holds.cleanable
  rcases clean_log_cases log budget mark nowMs with ⟨failure, _, idle⟩ |
    ⟨dirty, result, mapped, ends, ⟨noKeys, idle⟩ | ⟨_, ran⟩⟩
  · rw [idle]
    exact ⟨holds, by simp⟩
  · rw [idle]
    refine ⟨holds, ?_⟩
    intro finished returned
    cases returned
    rw [ends]
    obtain ⟨below, front, rest, some_records, maps⟩ := map_keys_spec cleanable holds.splits mapped
    obtain ⟨old, new⟩ := records_below_mapped cleanable maps
    refine ⟨cleanable, holds.settled, maps.splitsThere, ?_⟩
    have summary := maps.holds.summary
    rw [noKeys, List.nil_append] at summary
    intro key
    have absent : (front.flatMap recordsIn).filter (fun record => decide (record.key = some key)) = [] := by
      apply List.filter_eq_nil_iff.mpr
      intro record member keyed
      simp only [decide_eq_true_eq] at keyed
      have listed := summary.complete (digestOf key, record.offset)
        (mem_keyed_of.mpr ⟨record, List.mem_append_left _ member, key, keyed, rfl, rfl⟩)
      cases listed
    rw [new, List.filter_append, absent, List.append_nil, ← old]
    exact holds.once key
  · have started := PassedOver.start (log.rulesOf dirty.map nowMs) log
    obtain ⟨done, rest, split, below, passed, _, finishes⟩ := @clean_segments_spec log log cleanable
      (log.rulesOf dirty.map nowMs) dirty.mappedThrough nowMs [] log.sealedMap result started
    rw [ran]
    refine ⟨passed.keeps holds, ?_⟩
    intro finished returned
    obtain ⟨moves, stops⟩ := finishes finished returned
    rw [moves, ends]
    obtain ⟨some_below, front, unmapped, some_records, maps⟩ :=
      map_keys_spec cleanable holds.splits mapped
    obtain ⟨old, new⟩ := records_below_mapped cleanable maps
    refine ⟨passed.cleanable cleanable, passed.settled cleanable holds.settled,
      passed.splits cleanable maps.splitsThere, ?_⟩
    -- what is behind the last segment of the pass is behind the new mark
    have behind : rest.filter (fun segment => decide (segment.baseOffset < dirty.mappedThrough)) = [] := by
      apply List.filter_eq_nil_iff.mpr
      intro segment member
      have linked := cleanable.linked
      rw [split] at linked
      simpa using begin_behind linked stops segment member
    have kept := passed.recordsBelow cleanable dirty.mappedThrough
    rw [behind, List.flatMap_nil, List.append_nil] at kept
    have all : (done.filter fun segment => decide (segment.baseOffset < dirty.mappedThrough)).flatMap recordsIn =
        log.recordsBelow dirty.mappedThrough := by
      rw [Log.recordsBelow, split, List.filter_append, behind, List.append_nil]
    rw [List.nil_append] at kept
    rw [kept, all, new]
    apply once_kept cleanable maps rfl
    rw [← old]
    exact holds.once

end Pass

section Steps

variable {log next : Log} {mark : Int}

theorem roll_active_base {rolled : Log} {nowMs : Int} (settled : LogSettled log)
    (moved : log.maybeRoll nowMs = .returned () rolled) :
    log.active.baseOffset ≤ rolled.active.baseOffset := by
  obtain ⟨undangling, quiet⟩ := settled_clear settled nowMs
  have spans := start_le_end settled.activeHolds.consecutive.ascending
  rw [← settled.activeHolds.ends] at spans
  rcases maybe_roll_cases settled.toLogHolds undangling quiet with
    ⟨_, stays⟩ | ⟨_, _, active, rolls, moves⟩
  · rw [moved] at stays
    cases stays
    exact le_refl _
  · rw [moved] at moves
    cases moves
    rw [rolls.begins]
    exact spans

theorem active_base_mono (settled : LogSettled log) {action : LogAction} (plain : action.Plain)
    (taken : Log.step action log = some next) :
    log.active.baseOffset ≤ next.active.baseOffset := by
  cases action with
  | append batchBytes rollMs clockMs fault =>
      obtain ⟨undangling, quiet⟩ := settled_clear settled rollMs
      obtain ⟨rolled, moved, ends⟩ := append_spec settled.toLogHolds plain.1 clockMs fault undangling quiet
      have onward := roll_active_base settled moved
      rcases ends with ⟨active, appended, _, _, _, _, base, _⟩ | ⟨failure, active, failed, _, _, base, _⟩
      · simp only [Log.step, appended, Outcome.log, Option.some.injEq] at taken
        subst taken
        exact onward.trans base.ge
      · simp only [Log.step, failed, Outcome.log, Option.some.injEq] at taken
        subst taken
        exact onward.trans base.ge
  | maybeRoll nowMs =>
      obtain ⟨undangling, quiet⟩ := settled_clear settled nowMs
      obtain ⟨rolled, moved, _⟩ := maybe_roll_spec settled.toLogHolds undangling quiet
      simp only [Log.step, moved, Outcome.log, Option.some.injEq] at taken
      subst taken
      exact roll_active_base settled moved
  | applyRetention nowMs =>
      obtain ⟨count, graveyard, buried⟩ := retention_buries log nowMs
      cases taken
      rw [buried]
  | sweepGraveyard nowMs =>
      cases taken
      exact le_refl _
  | clean => exact plain.elim
  | reopen fallback clockMs =>
      obtain ⟨reopened, opened, _, _, _, _, _, _, _, base, _⟩ :=
        open_spec settled.toLogHolds settled.endsClean fallback clockMs
      simp only [Log.step, opened] at taken
      cases checked : checkContiguity log.dir log.config.reloaded log.active.baseOffset
          reopened.sealedMap with
      | error failure => simp [checked] at taken
      | ok done =>
          simp only [checked, except_ok_bind, Option.some.injEq] at taken
          exact taken ▸ base.ge

theorem same_records_below {reopened segments : List SealedSegment}
    (same : List.Forall₂ SameSegment reopened segments) (mark : Int) :
    (reopened.filter fun segment => decide (segment.baseOffset < mark)).flatMap recordsIn =
      (segments.filter fun segment => decide (segment.baseOffset < mark)).flatMap recordsIn := by
  induction same with
  | nil => rfl
  | @cons first second _ _ both _ ih =>
      by_cases below : second.baseOffset < mark
      · simp [both.base, below, records_in_congr both.bytes, ih]
      · simp [both.base, below, ih]

/-- Whatever plain action comes between two passes, it does not touch what the
mark says. -/
theorem marks_plain (holds : MarkHolds log mark) {action : LogAction} (admits : log.Admits action)
    (plain : action.Plain) (taken : Log.step action log = some next) : MarkHolds next mark := by
  obtain ⟨cleanable, settled⟩ := cleanable_step holds.cleanable holds.settled admits taken
  obtain ⟨_, moves, _⟩ := settled_step holds.settled plain taken
  have onward := holds.splits.active.trans (active_base_mono holds.settled plain taken)
  cases moves with
  | kept same =>
      refine ⟨cleanable, settled, ⟨onward, same ▸ holds.splits.aside⟩, ?_⟩
      rw [Log.recordsBelow, same]
      exact holds.once
  | rolled _ segment _ rolled grown =>
      have behind : ¬ segment.baseOffset < mark := by
        rw [rolled.base]
        exact not_lt.mpr holds.splits.active
      refine ⟨cleanable, settled, ⟨onward, ?_⟩, ?_⟩
      · rw [grown]
        intro other member
        rcases List.mem_append.mp member with old | new
        · exact holds.splits.aside other old
        · rw [List.mem_singleton.mp new]
          exact .inr (not_lt.mp behind)
      · have same : next.recordsBelow mark = log.recordsBelow mark := by
          simp [Log.recordsBelow, grown, behind]
        exact same ▸ holds.once
  | buried count dropped =>
      refine ⟨cleanable, settled, ⟨onward, ?_⟩, holds.once.sublist ?_⟩
      · intro segment member
        exact holds.splits.aside segment (List.mem_of_mem_drop (dropped ▸ member))
      · rw [Log.recordsBelow, dropped]
        exact ((List.drop_sublist _ _).filter _).flatMap recordsIn
  | reopened same =>
      have alike : next.recordsBelow mark = log.recordsBelow mark := same_records_below same mark
      refine ⟨cleanable, settled, ⟨onward, ?_⟩, alike ▸ holds.once⟩
      intro segment member
      obtain ⟨original, isOriginal, both⟩ := same_member same member
      rw [both.base, both.next]
      exact holds.splits.aside original isOriginal

theorem marks_step (holds : MarkHolds log mark) {action : LogAction} (admits : log.Admits action)
    (taken : Log.step action log = some next) : MarkHolds next mark := by
  cases action with
  | append batchBytes rollMs clockMs fault =>
      exact marks_plain holds admits ⟨admits.1.toIntactBatch, admits.2.1⟩ taken
  | clean maxKeyMapEntries firstDirtyOffset nowMs =>
      obtain ⟨rules, front, back, passed⟩ :=
        clean_log_passes holds.cleanable maxKeyMapEntries firstDirtyOffset nowMs
      cases taken
      exact passed.keeps holds
  | maybeRoll | applyRetention | sweepGraveyard | reopen => exact marks_plain holds admits trivial taken

theorem marks_reached {tp : TopicPartition} {dir : String} {config : LogConfig} {created : Log}
    (named : StorableName tp) (storable : config.Storable)
    (room : config.roll.indexIntervalBytes + 2 ^ 31 + 12 ≤ 2 ^ 32)
    (made : Log.create tp dir config = .ok created)
    (reached : GuardedRun.Reaches Log.step Log.Admits created log) : MarkHolds log 0 := by
  obtain ⟨_, _, unsealed, _, _, _, base, _⟩ := create_spec named storable made
  obtain ⟨cleanable, settled⟩ := cleanable_reached named storable room made .start
  have start : MarkHolds created 0 := by
    refine ⟨cleanable, settled, ⟨base.ge, by simp [unsealed]⟩, ?_⟩
    intro key
    simp [Log.recordsBelow, unsealed]
  exact reached.invariant Log.step _ (MarkHolds · 0) start
    fun _ _ _ holds admits taken => marks_step holds admits taken

end Steps

structure Compaction (ρ : Type) where
  logs : LogManager
  cleaner : LogCleaner ρ

inductive CompactionAction where
  | on (tp : TopicPartition) (action : LogAction)
  | cleanOnce (tp : TopicPartition) (nowMs : Int)

section Runs

variable {ρ : Type} [LinearOrder ρ] (ratios : Ratios ρ)

def Compaction.step : CompactionAction → Compaction ρ → Option (Compaction ρ)
  | .on tp action, state => do
      let log ← state.logs.get tp
      let next ← Log.step action log
      return { state with logs := state.logs.put tp next }
  | .cleanOnce tp nowMs, state =>
      let call := state.cleaner.cleanOnce ratios state.logs tp nowMs
      some ⟨call.logs, call.cleaner⟩

/-- Appends of whole batches that do not fail and whose offsets an int64 holds;
every other action, and the cleaner's passes. -/
def Compaction.Admits (state : Compaction ρ) : CompactionAction → Prop
  | .on tp action => ∀ log, state.logs.get tp = some log → log.Admits action
  | .cleanOnce _ _ => True

/-- The invariant of every partition, with the mark the cleaner has for it. -/
def Compaction.Holds (state : Compaction ρ) : Prop :=
  ∀ tp log, state.logs.get tp = some log → MarkHolds log (state.cleaner.firstDirtyOffset tp)

theorem compaction_step {state next : Compaction ρ} {action : CompactionAction} (holds : state.Holds)
    (admits : state.Admits action) (taken : state.step ratios action = some next) : next.Holds := by
  cases action with
  | on tp action =>
      obtain ⟨log, hosted, taken⟩ := Option.bind_eq_some_iff.mp taken
      obtain ⟨after, moved, made⟩ := Option.bind_eq_some_iff.mp taken
      cases made
      have fine := admits log hosted
      intro other otherLog found
      rw [LogManager.get_put] at found
      split at found
      · next same =>
        rw [hosted] at found
        cases found
        subst same
        exact marks_step (holds _ log hosted) fine moved
      · exact holds other otherLog found
  | cleanOnce tp nowMs =>
      cases taken
      rcases state.cleaner.clean_once_cases ratios state.logs tp nowMs with
        idle | ⟨log, hosted, _, _, logs, ends⟩
      · rw [idle]
        exact holds
      · obtain ⟨still, moves⟩ := pass_keeps_mark (holds tp log hosted)
          state.cleaner.config.maxKeyMapEntries nowMs
        intro other otherLog found
        simp only [logs, LogManager.get_put, hosted, Option.map_some] at found
        rcases ends with ⟨failure, _, _, cleaner⟩ | ⟨result, returned, _, _, marks⟩
        · simp only [cleaner]
          split at found
          · next same =>
            cases found
            subst same
            exact still
          · exact holds other otherLog found
        · simp only [marks]
          split at found
          · next same =>
            cases found
            rw [if_pos same]
            exact moves result returned
          · next different =>
            rw [if_neg different]
            exact holds other otherLog found

/-- A partition as a process finds it: made in an earlier one, or fresh. -/
def Log.Compactable (log : Log) : Prop :=
  ∃ tp dir config created, StorableName tp ∧ config.Storable ∧
    config.roll.indexIntervalBytes + 2 ^ 31 + 12 ≤ 2 ^ 32 ∧ Log.create tp dir config = .ok created ∧
      GuardedRun.Reaches Log.step Log.Admits created log

/-- Among the sealed segments below a partition's mark, each key occurs in at
most one record, whatever is appended, rolled and cleaned, and in what order. -/
theorem keys_unique_below_mark (config : CleanerConfig ρ) {logs : LogManager} {final : Compaction ρ}
    (compactable : ∀ tp log, logs.get tp = some log → log.Compactable)
    (reached : GuardedRun.Reaches (Compaction.step ratios) Compaction.Admits ⟨logs, { config }⟩ final)
    {tp : TopicPartition} {log : Log} (hosted : final.logs.get tp = some log) (key : Bytes) :
    ((log.recordsBelow (final.cleaner.firstDirtyOffset tp)).filter
      fun record => decide (record.key = some key)).length ≤ 1 := by
  have start : (⟨logs, { config }⟩ : Compaction ρ).Holds := by
    intro tp log hosted
    obtain ⟨_, _, _, created, named, storable, room, made, reached⟩ := compactable tp log hosted
    exact marks_reached named storable room made reached
  have kept := reached.invariant _ _ (fun state : Compaction ρ => state.Holds) start
    fun _ _ _ holds admits taken => compaction_step ratios holds admits taken
  exact (kept tp log hosted).once key

end Runs

instance {ρ : Type} (state : Compaction ρ) (action : CompactionAction) : Decidable (state.Admits action) :=
  match action with
  | .cleanOnce _ _ => inferInstanceAs (Decidable True)
  | .on tp action =>
      match hosted : state.logs.get tp with
      | none => isTrue fun log found => by simp [hosted] at found
      | some log =>
          decidable_of_iff (log.Admits action)
            ⟨fun admits other found => by
              rw [hosted] at found
              exact Option.some.inj found ▸ admits,
            fun admits => admits log hosted⟩

def exactRatios : Ratios ℚ where
  zero := 0
  quotient := fun dirty total => dirty / total

theorem compactable_from_creation {created log : Log}
    (made : Log.create ⟨[116], 0⟩ "data/t-0" { twoBatchConfig with cleanup := .compact } = .ok created)
    (reached : GuardedRun.Reaches Log.step Log.Admits created log) : log.Compactable := by
  have named : StorableName ⟨[116], 0⟩ := ⟨by decide, by decide, by decide, by decide⟩
  have storable : ({ twoBatchConfig with cleanup := .compact } : LogConfig).Storable :=
    { storable_two_batch_config with }
  exact ⟨_, _, _, created, named, storable, by decide, made, reached⟩

def twoPasses (first second : List UInt8) : List CompactionAction :=
  (fiveRecords first).map (.on ⟨[116], 0⟩) ++ [.cleanOnce ⟨[116], 0⟩ 0] ++
    (fiveRecords second).map (.on ⟨[116], 0⟩) ++ [.cleanOnce ⟨[116], 0⟩ 0]

/-- A budget of two keys ends the first pass in its second segment. -/
theorem keys_unique_below_mark_refused :
    ∃ (final : Compaction ℚ) (log : Log), final.logs.get ⟨[116], 0⟩ = some log ∧
      final.cleaner.firstDirtyOffset ⟨[116], 0⟩ = 4 ∧ (log.recordsBelow 4).length = 2 ∧
      ∀ key, ((log.recordsBelow 4).filter fun record => decide (record.key = some key)).length ≤ 1 := by
  obtain ⟨created, final, made, reached, checked⟩ := found_from_creation
    (Compaction.step exactRatios) Compaction.Admits
    (fun log => ⟨onlyPartition log, { config := ⟨2, 0⟩ }⟩) ⟨[116], 0⟩ "data/t-0"
    { twoBatchConfig with cleanup := .compact }
    (fun state : Compaction ℚ => (state.logs.get ⟨[116], 0⟩).any fun log : Log =>
      decide (state.cleaner.firstDirtyOffset ⟨[116], 0⟩ = 4 ∧ (log.recordsBelow 4).length = 2))
    (twoPasses [97, 98, 97, 99, 97] [98, 97]) (by decide +kernel)
  obtain ⟨log, hosted, holds⟩ := Option.any_eq_true _ _ |>.mp checked
  obtain ⟨mark, two⟩ := of_decide_eq_true holds
  refine ⟨final, log, hosted, mark, two, ?_⟩
  intro key
  have only : ∀ tp other, (onlyPartition created).get tp = some other → other.Compactable := by
    intro tp other found
    simp only [LogManager.get, onlyPartition, Option.map_eq_some_iff] at found
    obtain ⟨entry, isEntry, rfl⟩ := found
    rw [List.mem_singleton.mp (List.mem_of_find?_eq_some isEntry)]
    exact compactable_from_creation made .start
  have once := keys_unique_below_mark exactRatios ⟨2, 0⟩ only reached hosted key
  rw [mark] at once
  exact once

end DariyaKyu.Storage

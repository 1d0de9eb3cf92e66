import DariyaKyu.Storage.BatchCodec
import DariyaKyu.Storage.LogRuns
import Mathlib.Data.List.TakeWhile

/-!
What a sealed segment says about the age of its batches. A seal looks for the
largest timestamp from the last index entry on, a recovery over the whole file,
and both begin at -1. Retention by age goes by what the seal found, so it is
right about a segment exactly when no batch ahead of that entry is younger than
all those behind it and not every timestamp is below -1.
-/

namespace DariyaKyu.Storage

set_option autoImplicit false

def ActiveSegment.tailTimestamp (segment : ActiveSegment) : Int :=
  largestOf (-1) (batchesFrom segment.index.lastIndexed (batchesIn segment.toSegmentBase))

/-- No batch of the segment is younger than those its last index entry leads to,
and one has a timestamp that is not below -1. -/
def ActiveSegment.YoungestLast (segment : ActiveSegment) : Prop :=
  (∀ batch ∈ batchesIn segment.toSegmentBase, timestampOf batch ≤ segment.tailTimestamp) ∧
    ∃ batch ∈ batchesIn segment.toSegmentBase, -1 ≤ timestampOf batch

instance (segment : ActiveSegment) : Decidable segment.YoungestLast :=
  inferInstanceAs (Decidable ((∀ batch ∈ _, _) ∧ ∃ batch ∈ _, _))

def IsMaximum (timestamp : Int) (batches : List Bytes) : Prop :=
  (∃ batch ∈ batches, timestampOf batch = timestamp) ∧ ∀ batch ∈ batches, timestampOf batch ≤ timestamp

def Log.KnowsAges (log : Log) : Prop :=
  ∀ segment ∈ log.sealedMap, IsMaximum segment.largestTimestamp (batchesIn segment)

/-- The age pass at any time takes only segments whose batches are all too old. -/
def Log.AgesOutOld (log : Log) : Prop :=
  ∀ nowMs, ∀ segment ∈ log.sealedMap, (log.applyRetention nowMs).holdsFile segment.baseOffset = false →
    ∀ batch ∈ batchesIn segment, log.config.retention.retentionMs ≤ nowMs - timestampOf batch

theorem largest_of_cases (start : Int) (batches : List Bytes) :
    largestOf start batches = start ∨ ∃ batch ∈ batches, timestampOf batch = largestOf start batches := by
  induction batches generalizing start with
  | nil => exact .inl rfl
  | cons batch batches ih =>
      rcases ih (max start (timestampOf batch)) with same | ⟨other, member, isLargest⟩
      · have here : largestOf start (batch :: batches) = max start (timestampOf batch) := same
        rcases max_choice start (timestampOf batch) with old | new
        · exact .inl (here.trans old)
        · exact .inr ⟨batch, List.mem_cons_self, (here.trans new).symm⟩
      · exact .inr ⟨other, List.mem_cons_of_mem _ member, isLargest⟩

theorem batches_from_sublist (position : Nat) (batches : List Bytes) :
    (batchesFrom position batches).Sublist batches := by
  induction batches generalizing position with
  | nil => exact .slnil
  | cons batch batches ih =>
      unfold batchesFrom
      split
      · exact .refl _
      · exact (ih _).cons batch

/-- The tail has the maximum over the whole segment in that case and no other. -/
theorem youngest_last_iff (segment : ActiveSegment) :
    segment.YoungestLast ↔ IsMaximum segment.tailTimestamp (batchesIn segment.toSegmentBase) := by
  constructor
  · rintro ⟨below, usable, isUsable, least⟩
    refine ⟨?_, below⟩
    rcases largest_of_cases (-1) (batchesFrom segment.index.lastIndexed (batchesIn segment.toSegmentBase)) with
      start | ⟨batch, member, isLargest⟩
    · have above := below usable isUsable
      rw [ActiveSegment.tailTimestamp, start] at above
      exact ⟨usable, isUsable, (le_antisymm above least).trans start.symm⟩
    · exact ⟨batch, (batches_from_sublist _ _).subset member, isLargest⟩
  · rintro ⟨⟨batch, member, isLargest⟩, below⟩
    exact ⟨below, batch, member, isLargest ▸ start_le_largest _ _⟩

theorem sealed_timestamp {log : Log} {segment : SealedSegment} {active : ActiveSegment}
    (rolled : Rolled log segment active) : segment.largestTimestamp = log.active.tailTimestamp := by
  have sameLast : segment.index.lastIndexed = log.active.index.lastIndexed := by
    rw [OffsetIndex.lastIndexed, OffsetIndex.lastIndexed, rolled.entries]
  rw [rolled.holds.largest, sameLast, ActiveSegment.tailTimestamp]

theorem knows_ages_step {log next : Log} {action : LogAction} (moves : SealedMoves log action next)
    (youngest : log.rollsOn action = true → log.active.YoungestLast) (knows : log.KnowsAges) :
    next.KnowsAges := by
  unfold Log.KnowsAges at knows ⊢
  cases moves with
  | kept same => rwa [same]
  | rolled rolls segment active rolled grown =>
      intro other member
      rw [grown] at member
      rcases List.mem_append.mp member with earlier | new
      · exact knows other earlier
      · simp only [List.mem_singleton] at new
        subst new
        rw [sealed_timestamp rolled, (rolled_batches rolled).1]
        exact (youngest_last_iff _).mp (youngest rolls)
  | buried count dropped =>
      intro other member
      rw [dropped] at member
      exact knows other (List.mem_of_mem_drop member)
  | reopened same =>
      intro other member
      obtain ⟨original, originalMember, both⟩ := same_member same member
      rw [both.largest, same_batches_in both]
      exact knows original originalMember

theorem drop_length_take_while {α : Type} (keep : α → Bool) (items : List α) :
    items.drop (items.takeWhile keep).length = items.dropWhile keep := by
  conv_lhs =>
    arg 2
    rw [← List.takeWhile_append_dropWhile (p := keep) (l := items)]
  exact List.drop_left' rfl

theorem ages_out_old {log : Log} (holds : LogHolds log) (knows : log.KnowsAges)
    (unlimited : log.config.retention.retentionBytes = none) : log.AgesOutOld := by
  intro nowMs segment member gone batch inside
  have taken : segment ∈ log.sealedMap.takeWhile (Log.agedOut log.config.retention.retentionMs nowMs) := by
    rw [← List.takeWhile_append_dropWhile (l := log.sealedMap)
      (p := Log.agedOut log.config.retention.retentionMs nowMs)] at member
    rcases List.mem_append.mp member with front | back
    · exact front
    · have stays : segment ∈ (log.applyRetention nowMs).sealedMap := by
        simp only [Log.applyRetention, unlimited, Log.buryOldest]
        rwa [drop_length_take_while]
      simp only [Log.holdsFile, Bool.or_eq_false_iff, List.any_eq_false] at gone
      exact absurd (by simp) (gone.2 segment stays)
  have aged := List.mem_takeWhile_imp taken
  have occupied := (linked_below holds.linked member).1
  have notEmpty : segment.isEmpty = false := by
    simp only [SegmentBase.isEmpty, beq_eq_false_iff_ne]
    omega
  simp only [Log.agedOut, notEmpty, Bool.false_or, Bool.and_eq_true, decide_eq_true_eq] at aged
  have young := (knows segment member).2 batch inside
  omega

/-- When every roll seals a segment whose youngest batches come last, retention
by age goes by the maximum and takes no batch that is younger than the window. -/
theorem age_retention_spares_young {tp : TopicPartition} {dir : String} {config : LogConfig}
    {created final : Log} (named : StorableName tp) (storable : config.Storable)
    (unlimited : config.retention.retentionBytes = none)
    (made : Log.create tp dir config = .ok created)
    (reached : GuardedRun.Reaches Log.step
      (fun log action => action.Plain ∧ (log.rollsOn action = true → log.active.YoungestLast))
      created final) :
    final.KnowsAges ∧ final.AgesOutOld := by
  obtain ⟨settled, _, empty, _, _, same, _⟩ := create_spec named storable made
  have kept := reached.invariant Log.step _
    (fun log => LogSettled log ∧ log.KnowsAges ∧ log.config.retention.retentionBytes = none)
    ⟨settled, by simp [Log.KnowsAges, empty], by rw [same]; exact unlimited⟩ ?_
  · obtain ⟨finalSettled, knows, finalUnlimited⟩ := kept
    exact ⟨knows, ages_out_old finalSettled.toLogHolds knows finalUnlimited⟩
  · rintro log action next ⟨logSettled, knows, noLimit⟩ ⟨plain, youngest⟩ taken
    obtain ⟨nextSettled, moves, config⟩ := settled_step logSettled plain taken
    refine ⟨nextSettled, knows_ages_step moves youngest knows, ?_⟩
    rcases config with unchanged | reloaded
    · rw [unchanged]
      exact noLimit
    · simp [reloaded, LogConfig.reloaded, noLimit, limitToField, limitOfField]

theorem age_retention_spares_young_rolled :
    ∃ created final : Log, Log.create ⟨[116], 0⟩ "t-0" twoBatchConfig = .ok created ∧
      final.sealedMap.length = 1 ∧ final.KnowsAges ∧ final.AgesOutOld := by
  obtain ⟨created, final, made, reached, rolled⟩ := found_from_creation Log.step
    (fun log action => action.Plain ∧ (log.rollsOn action = true → log.active.YoungestLast)) id
    ⟨[116], 0⟩ "t-0" twoBatchConfig (fun log => log.sealedMap.length == 1)
    [.append (recordBatchOf 10 none (some [118])) 0 0 none,
      .append (recordBatchOf 1000 none (some [118])) 0 0 none, .maybeRoll 0]
    (by decide +kernel)
  exact ⟨created, final, made, by simpa using rolled,
    age_retention_spares_young ⟨by decide, by decide, by decide, by decide⟩
      storable_two_batch_config (by decide) made reached⟩

/-- A batch from now, one from long ago behind it, and the roll. -/
def youngThenOld : List LogAction :=
  [.append (recordBatchOf 1000 none (some [118])) 0 0 none,
    .append (recordBatchOf 10 none (some [118])) 0 0 none, .maybeRoll 0]

theorem age_retention_takes_young :
    ¬ ∀ (tp : TopicPartition) (dir : String) (config : LogConfig) (created final : Log),
      StorableName tp → config.Storable → config.retention.retentionBytes = none →
      Log.create tp dir config = .ok created →
      GuardedRun.Reaches Log.step (fun _ action => action.Plain) created final →
      final.KnowsAges ∧ final.AgesOutOld := by
  intro all
  refine refuted_from_creation Log.step (fun _ action => action.Plain) id ⟨[116], 0⟩ "t-0"
    twoBatchConfig Log.AgesOutOld
    (fun log => log.sealedMap.all fun segment =>
      (log.applyRetention 1000).holdsFile segment.baseOffset ||
        (batchesIn segment).all fun batch =>
          decide (log.config.retention.retentionMs ≤ 1000 - timestampOf batch)) ?_
    youngThenOld (by decide +kernel) ?_
  · intro log ages
    simp only [List.all_eq_true, Bool.or_eq_true, decide_eq_true_eq]
    intro segment member
    by_cases stays : (log.applyRetention 1000).holdsFile segment.baseOffset = true
    · exact .inl stays
    · exact .inr fun batch inside => ages 1000 segment member (by simpa using stays) batch inside
  · intro created final made reached
    exact (all _ _ _ created final ⟨by decide, by decide, by decide, by decide⟩
      storable_two_batch_config rfl made reached).2

end DariyaKyu.Storage

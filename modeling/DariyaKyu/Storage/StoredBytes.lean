import DariyaKyu.Storage.Maintenance
import DariyaKyu.Storage.OpenRanges
import DariyaKyu.Storage.Recovery

/-!
What was appended stays where it was put. A roll gives the file of the active
segment to a sealed one, and an append writes behind what is there; so bytes that
one append stored are there after the next, as long as the segment that rolls
does not meet one of its own name in the map.
-/

namespace DariyaKyu.Storage

set_option autoImplicit false

/-- No sealed segment has the name of the active one. -/
def Log.Keyed (log : Log) : Prop :=
  ∀ segment ∈ log.sealedMap, segment.baseOffset ≠ log.active.baseOffset

/-- Some segment has these bytes in the part of its file that is written. -/
def Log.Stores (log : Log) (bytes : Bytes) : Prop :=
  ∃ segment ∈ log.active.toSegmentBase :: log.sealedMap, ∃ position,
    position + bytes.length ≤ segment.log.size ∧ segment.log.readAt position bytes.length = bytes

section Storing

variable {log next : Log}

theorem roll_stores {nowMs : Int} (keyed : log.Keyed) (rolled : (log.maybeRoll nowMs).log = some next) :
    next.Keyed ∧ ∀ bytes, log.Stores bytes → next.Stores bytes := by
  unfold Log.maybeRoll at rolled
  split at rolled
  · cases rolled
    exact ⟨keyed, fun _ stored => stored⟩
  simp only at rolled
  split at rolled
  · cases rolled
    exact ⟨keyed, fun _ stored => stored⟩
  next active created =>
  split at rolled
  · cases rolled
  next segment isSealed =>
  cases rolled
  obtain ⟨_, base⟩ := open_sealed_ok isSealed
  have untaken : log.holdsFile log.active.nextOffset = false := by
    unfold ActiveSegment.create at created
    split at created
    · cases created
    · next free => simpa using free
  have fresh : active.baseOffset = log.active.nextOffset := by
    unfold ActiveSegment.create at created
    split at created
    · cases created
    · obtain ⟨index, _, made⟩ := except_bind_ok created
      cases Except.ok.inj made
      rfl
  have file : segment.log =
    FileHandle.ofContents (log.nextFd + 1) log.active.log.path log.active.log.bytes := by
    unfold ActiveSegment.sealSegment SealedSegment.open SegmentBase.deriveEndStateFromLog at isSealed
    obtain ⟨_, _, derived⟩ := except_bind_ok isSealed
    obtain ⟨_, _, made⟩ := except_bind_ok derived
    cases Except.ok.inj made
    rfl
  simp only [Log.holdsFile, Bool.or_eq_false_iff, beq_eq_false_iff_ne, List.any_eq_false,
    beq_iff_eq] at untaken
  have own : ∀ other ∈ log.sealedMap, other.baseOffset ≠ segment.baseOffset := by
    intro other member
    rw [base]
    exact keyed other member
  constructor
  · intro other member
    simp only at member
    rw [fresh]
    rcases (mem_emplace own other).mp member with rfl | old
    · rw [base]
      exact untaken.1
    · exact untaken.2 other old
  · rintro bytes ⟨owner, member, position, inside, same⟩
    rcases List.mem_cons.mp member with rfl | old
    · refine ⟨segment, List.mem_cons_of_mem _ ((mem_emplace own segment).mpr (.inl rfl)), position,
        ?_, ?_⟩
      · have within := log.active.log.within
        simp only [FileHandle.size] at inside
        simp only [file, FileHandle.ofContents, FileHandle.size]
        omega
      · rw [file]
        exact same
    · exact ⟨owner, List.mem_cons_of_mem _ ((mem_emplace own owner).mpr (.inr old)), position,
        inside, same⟩

theorem append_base {segment : ActiveSegment} (baseOffset : Int) (batchBytes : Bytes) (clockMs : Int)
    (fault : Option WriteFault) :
    (segment.append baseOffset batchBytes clockMs fault).1.baseOffset = segment.baseOffset := by
  unfold ActiveSegment.append
  split
  · rfl
  split
  · rfl
  split
  · rfl
  split
  · rfl
  · next indexed step =>
    obtain ⟨state, _, rfl⟩ := maybe_add_index_entry_ok.mp step
    split <;> rfl

theorem append_active_base {rolled : Log} {batchBytes : Bytes} {rollMs clockMs : Int}
    {fault : Option WriteFault}
    (rolls : (log.maybeRoll rollMs).log = some rolled)
    (appended : (log.append batchBytes rollMs clockMs fault).log = some next) :
    next.active.baseOffset = rolled.active.baseOffset := by
  unfold Log.append at appended
  cases moved : log.maybeRoll rollMs with
  | ruined failure =>
      rw [moved] at rolls
      cases rolls
  | threw failure same =>
      rw [moved] at rolls appended
      cases rolls
      cases appended
      rfl
  | returned done same =>
      rw [moved] at rolls appended
      cases rolls
      simp only at appended
      split at appended
      · cases appended
        rfl
      next batch _ =>
      have base := @append_base rolled.active rolled.logEndOffset batch clockMs fault
      split at appended
      all_goals
        next active _ wrote =>
        cases appended
        rw [wrote] at base
        exact base

theorem append_keeps_stored {batchBytes : Bytes} {rollMs clockMs : Int} {fault : Option WriteFault}
    (keyed : log.Keyed) (appended : (log.append batchBytes rollMs clockMs fault).log = some next) :
    next.Keyed ∧ ∀ bytes, log.Stores bytes → next.Stores bytes := by
  obtain ⟨rolled, rolls, longer, _, map, _⟩ := append_hands_over appended
  obtain ⟨rolledKeyed, moved⟩ := roll_stores keyed rolls
  refine ⟨?_, ?_⟩
  · intro segment member
    rw [map] at member
    rw [append_active_base rolls appended]
    exact rolledKeyed segment member
  · intro bytes stored
    obtain ⟨owner, member, position, inside, same⟩ := moved bytes stored
    rcases List.mem_cons.mp member with rfl | old
    · refine ⟨next.active.toSegmentBase, List.mem_cons_self, position, inside.trans longer.size, ?_⟩
      rw [longer.keeps position bytes.length inside]
      exact same
    · exact ⟨owner, List.mem_cons_of_mem _ (by rw [map]; exact old), position, inside, same⟩

theorem read_at_written {bytes : Bytes} {position : Nat} (data : Bytes)
    (inside : position ≤ bytes.length) :
    ((overwrite bytes position data).drop position).take data.length = data := by
  have front : (bytes.take position).length = position := by simp [inside]
  rw [overwrite, List.append_assoc, List.drop_left' front, List.take_left' rfl]

theorem append_stores {batchBytes : Bytes} {rollMs clockMs : Int} {fault : Option WriteFault}
    {offset : Int}
    (long : kBatchHeaderSize ≤ batchBytes.length)
    (appended : log.append batchBytes rollMs clockMs fault = .returned offset next) :
    next.Stores (stamped batchBytes offset) := by
  unfold Log.append at appended
  split at appended
  · cases appended
  · cases appended
  next rolled _ =>
  simp only [stamp_base_offset_eq batchBytes _ long] at appended
  split at appended
  · cases appended
  next active done wrote =>
  cases appended
  refine ⟨active.toSegmentBase, List.mem_cons_self, rolled.active.log.size, ?_⟩
  unfold ActiveSegment.append at wrote
  split at wrote
  · cases wrote
  split at wrote
  · cases wrote
  split at wrote
  · cases wrote
  split at wrote
  · cases wrote
  next indexed step =>
  obtain ⟨state, _, rfl⟩ := maybe_add_index_entry_ok.mp step
  cases fault with
  | some fault => cases wrote
  | none =>
      cases wrote
      exact ⟨le_rfl, read_at_written _ rolled.active.log.within⟩

end Storing

section Names

variable {log next : Log}

/-- What burying, unmapping and swapping leave: no segment under a new name. -/
def Log.Renames (log next : Log) : Prop :=
  next.active = log.active ∧
    ∀ segment ∈ next.sealedMap, ∃ old ∈ log.sealedMap, old.baseOffset = segment.baseOffset

theorem Log.Renames.refl (log : Log) : log.Renames log :=
  ⟨rfl, fun segment member => ⟨segment, member, rfl⟩⟩

theorem Log.Renames.trans {last : Log} (first : log.Renames next) (second : next.Renames last) :
    log.Renames last := by
  refine ⟨second.1.trans first.1, ?_⟩
  intro segment member
  obtain ⟨middle, inNext, sameMiddle⟩ := second.2 segment member
  obtain ⟨old, inLog, same⟩ := first.2 middle inNext
  exact ⟨old, inLog, same.trans sameMiddle⟩

theorem Log.Renames.keyed (renames : log.Renames next) (keyed : log.Keyed) : next.Keyed := by
  intro segment member
  obtain ⟨old, present, same⟩ := renames.2 segment member
  rw [renames.1, ← same]
  exact keyed old present

theorem remove_renames (log : Log) (baseOffset nowMs : Int) :
    log.Renames (log.removeSegment baseOffset nowMs).2 := by
  unfold Log.removeSegment
  split
  · exact .refl log
  · refine ⟨rfl, ?_⟩
    intro segment member
    exact ⟨segment, (List.mem_filter.mp member).1, rfl⟩

theorem replace_renames {baseOffset nowMs : Int} {cleanedLog : Bytes} {cleanedIndex : OffsetIndex}
    (replaced : (log.replaceSegment baseOffset cleanedLog cleanedIndex nowMs).log = some next) :
    log.Renames next := by
  unfold Log.replaceSegment at replaced
  split at replaced
  · cases replaced
    exact .refl log
  split at replaced
  · cases replaced
    exact ⟨rfl, fun segment member => ⟨segment, member, rfl⟩⟩
  next replacement opened =>
  cases replaced
  refine ⟨rfl, ?_⟩
  intro segment member
  obtain ⟨old, present, rfl⟩ := List.mem_map.mp member
  refine ⟨old, present, ?_⟩
  split
  · next same => rw [same, (open_sealed_ok opened).2]
  · rfl

theorem clean_segment_renames (rules : RetainRules) (nowMs : Int) (log : Log) (result : CleanResult)
    (info : SealedInfo) : log.Renames (cleanSegment rules nowMs log result info).1 := by
  unfold cleanSegment
  split
  · exact .refl log
  · exact .refl log
  split
  · exact .refl log
  next cleaned _ =>
  simp only
  have removed := remove_renames log info.baseOffset nowMs
  split
  · split
    all_goals
      next _ same =>
      rw [same] at removed
      exact removed
  · split
    · next _ replaced => exact replace_renames (congrArg Outcome.log replaced)
    · next _ replaced => exact replace_renames (congrArg Outcome.log replaced)
    · next _ _ replaced => exact replace_renames (congrArg Outcome.log replaced)
    · exact .refl log

theorem clean_segments_renames (rules : RetainRules) (mappedThrough nowMs : Int) (log : Log)
    (result : CleanResult) (infos : List SealedInfo) :
    log.Renames (cleanSegments rules mappedThrough nowMs log result infos).log := by
  induction infos generalizing log result with
  | nil => exact .refl log
  | cons info infos ih =>
      have turn := clean_segment_renames rules nowMs log result info
      unfold cleanSegments
      split
      · exact .refl log
      split
      · next after failure cleaned =>
        rw [cleaned] at turn
        exact turn
      · next after counted cleaned =>
        rw [cleaned] at turn
        exact turn.trans (ih after counted)

theorem clean_renames (log : Log) (maxKeyMapEntries : Nat) (firstDirtyOffset nowMs : Int) :
    log.Renames (cleanLog log maxKeyMapEntries firstDirtyOffset nowMs).log := by
  unfold cleanLog
  simp only
  split
  · exact .refl log
  split
  · exact .refl log
  split
  · exact .refl log
  · exact clean_segments_renames _ _ _ _ _ _

theorem open_sealed_names {dir : String} {fd : Nat} {files : List SegmentFiles}
    {opened : List SealedSegment}
    (opens : openSealedSegments dir fd files = .ok opened) :
    opened.map (·.baseOffset) = files.map (·.baseOffset) := by
  induction files generalizing fd opened with
  | nil =>
      cases opens
      rfl
  | cons first rest ih =>
      obtain ⟨segment, isFirst, opens⟩ := except_bind_ok opens
      obtain ⟨segments, later, made⟩ := except_bind_ok opens
      cases Except.ok.inj made
      rw [List.map_cons, List.map_cons, (open_sealed_ok isFirst).2, ih later]

theorem create_keyed {tp : TopicPartition} {dir : String} {config : LogConfig}
    (created : Log.create tp dir config = .ok log) : log.Keyed := by
  obtain ⟨active, _, made⟩ := except_bind_ok created
  cases Except.ok.inj made
  exact List.forall_mem_nil _

theorem recover_base {fd base clockMs : Int} {dir : String} {bytes : Bytes} {policy : RollPolicy}
    {truncateAt : Option Int} {active : ActiveSegment}
    (recovered : ActiveSegment.recover fd dir base bytes policy truncateAt clockMs = .ok active) :
    active.baseOffset = base := by
  have unfolded := recovered
  obtain ⟨fresh, created, _⟩ := except_bind_ok unfolded
  obtain ⟨kept, _, made⟩ := recover_any fd dir base bytes policy truncateAt clockMs created
  rw [recovered] at made
  cases all : indexAll policy ⟨fresh, 0⟩ 0 kept with
  | error failure =>
      rw [all] at made
      cases made
  | ok built =>
      rw [all] at made
      cases made
      rfl

/-- A directory in which no older file has the newest one's name opens as such a log. -/
theorem open_keyed {tp : TopicPartition} {dir : String} {files : PartitionDir} {fallback : LogConfig}
    {clockMs : Int}
    (distinct : ∀ front newest, files.segments = front ++ [newest] → ∀ older ∈ front,
        older.baseOffset ≠ newest.baseOffset)
    (opened : Log.open tp dir files fallback clockMs = .ok log) : log.Keyed := by
  unfold Log.open at opened
  split at opened
  · obtain ⟨⟨config, written⟩, _, opened⟩ := except_bind_ok opened
    obtain ⟨active, _, made⟩ := except_bind_ok opened
    cases Except.ok.inj made
    exact List.forall_mem_nil _
  · next newest isNewest =>
    obtain ⟨sealedMap, opens, opened⟩ := except_bind_ok opened
    obtain ⟨⟨config, written⟩, _, opened⟩ := except_bind_ok opened
    obtain ⟨_, _, opened⟩ := except_bind_ok opened
    obtain ⟨active, recovered, made⟩ := except_bind_ok opened
    cases Except.ok.inj made
    intro segment member
    have names := open_sealed_names opens
    obtain ⟨front, split⟩ := List.getLast?_eq_some_iff.mp isNewest
    rw [split, List.dropLast_concat] at names
    have named : segment.baseOffset ∈ front.map (·.baseOffset) := by
      rw [← names]
      exact List.mem_map_of_mem member
    obtain ⟨older, present, same⟩ := List.mem_map.mp named
    simp only [Log.ofSegments, recover_base recovered]
    rw [← same]
    exact distinct front newest split older present

/-- The logs there are: made by a creation or by a startup on any files of
different names, and brought on by any calls. -/
inductive Log.Lived : Log → Prop where
  | created {tp : TopicPartition} {dir : String} {config : LogConfig} {log : Log}
      (made : Log.create tp dir config = .ok log) : Lived log
  | opened {tp : TopicPartition} {dir : String} {files : PartitionDir}
      {fallback : LogConfig} {clockMs : Int}
      {log : Log} (distinct : (files.segments.map (·.baseOffset)).Nodup)
      (made : Log.open tp dir files fallback clockMs = .ok log) : Lived log
  | stepped {log next : Log} (before : Lived log) (action : LogAction)
      (taken : Log.step action log = some next) : Lived next

theorem Log.Lived.keyed (lived : log.Lived) : log.Keyed := by
  induction lived with
  | created made => exact create_keyed made
  | opened distinct made =>
      refine open_keyed ?_ made
      intro front newest split older present
      rw [split, List.map_append] at distinct
      exact (List.nodup_append.mp distinct).2.2 _ (List.mem_map_of_mem present) _ (by simp)
  | @stepped log next _ action taken keyed =>
      cases action with
      | append batchBytes rollMs clockMs fault => exact (append_keeps_stored keyed taken).1
      | maybeRoll nowMs => exact (roll_stores keyed taken).1
      | applyRetention nowMs =>
          cases taken
          obtain ⟨count, graveyard, buried⟩ := retention_buries log nowMs
          rw [buried]
          exact fun segment member => keyed segment (List.mem_of_mem_drop member)
      | sweepGraveyard nowMs =>
          cases taken
          exact keyed
      | clean maxKeyMapEntries firstDirtyOffset nowMs =>
          cases taken
          exact (clean_renames log maxKeyMapEntries firstDirtyOffset nowMs).keyed keyed
      | reopen fallback clockMs =>
          simp only [Log.step] at taken
          split at taken
          · cases taken
          next reopened made =>
          cases taken
          refine open_keyed ?_ made
          intro front newest split older present
          obtain ⟨rfl, same⟩ := List.append_inj' split rfl
          cases List.singleton_inj.mp same
          obtain ⟨segment, member, rfl⟩ := List.mem_map.mp present
          exact keyed segment member

end Names

end DariyaKyu.Storage

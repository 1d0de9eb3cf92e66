import DariyaKyu.Group.OffsetStore
import DariyaKyu.Storage.DirectoryScan

/-!
`group/offsets_topic.cpp`: the topic that keeps the positions of the groups. A
broker creates it when no partition of it is hosted, and otherwise counts the
ones there are; nothing else says that the topic is complete. A start is a scan
of the data directory and this.
-/

namespace DariyaKyu.Groups

set_option autoImplicit false

open Storage

def hostedOffsets (manager : LogManager) : List TopicPartition :=
  (manager.logs.map (·.1)).filter fun tp => decide (tp.topic = kOffsetsTopic)

def offsetsConfig (defaults : LogConfig) : LogConfig :=
  { defaults with
    cleanup := .compact
    retention := { defaults.retention with retentionMs := 2 ^ 63 - 1, retentionBytes := none } }

def offsetsPartition (number : Nat) : TopicPartition := ⟨kOffsetsTopic, number⟩

def createOffsets (config : LogConfig) : List Nat → LogManager → Except Error LogManager
  | [], manager => .ok manager
  | number :: rest, manager => do
      let manager ← manager.createPartition (offsetsPartition number) config
      createOffsets config rest manager

def ensureOffsetsTopic (manager : LogManager) (partitions : Int) : Except Error (Int × LogManager) :=
  let existing : Int := (hostedOffsets manager).length
  if partitions ≤ 0 then .error (.error s!"__offsets: {partitions} partitions requested")
  else if 0 < existing then
    if existing ≠ partitions then
      .error (.corruptData s!"__offsets has {existing} partitions but {partitions} were requested — the count is immutable, because changing it moves every group's coordinator and orphans its offsets")
    else .ok (existing, manager)
  else do
    let manager ← createOffsets (offsetsConfig manager.defaults) (List.range partitions.toNat) manager
    return (partitions, manager)

def startBroker (fresh : LogManager) (entries : List DirEntry) (clockMs : Int) (partitions : Int) :
    Except Error LogManager := do
  let loaded ← fresh.loadAll entries clockMs
  let (_, manager) ← ensureOffsetsTopic loaded partitions
  return manager

/-- What is on disk of a partition of `__offsets` when so many steps of its creation have been made. -/
def offsetsEntry (fresh : LogManager) (number made : Nat) : Option DirEntry :=
  ((NewPartition.mk (offsetsPartition number) (fresh.partitionDir (offsetsPartition number))
    (offsetsConfig fresh.defaults)).crashedAfter made none).map (⟨(offsetsPartition number).toBytes, ·⟩)

/-- What a crash in the first run of `ensureOffsetsTopic` leaves: so many partitions
that are complete, and as much of the next one as had been made. -/
def crashedEntries (fresh : LogManager) (complete made : Nat) : List DirEntry :=
  (List.range complete).filterMap (offsetsEntry fresh · createSteps.length) ++
    (offsetsEntry fresh complete made).toList

/-- The rules that the positions of a group need: compaction, and nothing expires. -/
structure KeepsOffsets (config : LogConfig) : Prop where
  compacts : config.cleanup = .compact
  forever : config.retention.retentionMs = 2 ^ 63 - 1
  unlimited : config.retention.retentionBytes = none

/-- Exactly these partitions are hosted, each with those rules. -/
structure Established (manager : LogManager) (count : Nat) : Prop where
  hosted : (hostedOffsets manager).Perm ((List.range count).map offsetsPartition)
  keeps : ∀ hosted ∈ manager.logs, hosted.1.topic = kOffsetsTopic → KeepsOffsets hosted.2.config

section Established

variable {manager : LogManager} {count : Nat}

theorem ensure_established (hosted : (hostedOffsets manager).Perm ((List.range count).map offsetsPartition))
    (some_asked : 0 < count) : ensureOffsetsTopic manager count = .ok (count, manager) := by
  have length := hosted.length_eq
  rw [List.length_map, List.length_range] at length
  simp [ensureOffsetsTopic, length, some_asked, some_asked.ne']

theorem offsets_config_keeps (defaults : LogConfig) : KeepsOffsets (offsetsConfig defaults).reloaded :=
  ⟨rfl, rfl, rfl⟩

theorem offsets_config_storable {defaults : LogConfig} (storable : defaults.Storable) :
    (offsetsConfig defaults).Storable where
  maxSegmentBytes := storable.maxSegmentBytes
  maxSegmentAgeMs := storable.maxSegmentAgeMs
  indexIntervalBytes := storable.indexIntervalBytes
  maxIndexBytes := storable.maxIndexBytes
  retentionMs := by
    simp only [offsetsConfig, FitsSigned]
    norm_num
  retentionBytes := fun _ none => by cases none
  segmentDeleteDelayMs := storable.segmentDeleteDelayMs
  deleteRetentionMs := storable.deleteRetentionMs

theorem offsets_partition_storable {number : Nat} (small : number < 2 ^ 31) :
    StorableName (offsetsPartition number) where
  named := (by decide : 0 < kOffsetsTopic.length)
  short := (by decide : kOffsetsTopic.length < 2 ^ 15)
  numbered := Int.natCast_nonneg number
  bounded := by
    simp only [offsetsPartition]
    omega

def configAfter (defaults : LogConfig) (made : Nat) : LogConfig :=
  if .renameMeta ∈ createSteps.take made then (offsetsConfig defaults).reloaded else defaults

theorem config_after_roomy (defaults : LogConfig) (made : Nat) :
    (configAfter defaults made).roll.maxIndexBytes = defaults.roll.maxIndexBytes := by
  unfold configAfter
  split <;> rfl

theorem offsets_entry_opens {fresh : LogManager} (storable : fresh.defaults.Storable) {number made : Nat}
    (small : number < 2 ^ 31) {entry : DirEntry} (isEntry : offsetsEntry fresh number made = some entry)
    (clockMs : Int) :
    (∀ opened, fresh.openEntry clockMs entry = .ok opened → kEntrySize ≤ fresh.defaults.roll.maxIndexBytes) ∧
    (kEntrySize ≤ fresh.defaults.roll.maxIndexBytes → ∃ log,
      fresh.openEntry clockMs entry = .ok (some (offsetsPartition number, log)) ∧
        log.config = configAfter fresh.defaults made) := by
  rcases crashed_after_cases ⟨offsetsPartition number, fresh.partitionDir (offsetsPartition number),
      offsetsConfig fresh.defaults⟩ made with ⟨_, nothing⟩ | ⟨_, files, isFiles, unwritten, isMeta⟩
  · rw [offsetsEntry, nothing] at isEntry
    cases isEntry
  · rw [offsetsEntry, isFiles] at isEntry
    cases isEntry
    have parsed : topicPartitionFromDirName (offsetsPartition number).toBytes = .ok (offsetsPartition number) :=
      dir_name_parses (by decide) small
    have resolves : ∃ written, resolveConfig (fresh.dataDir ++ "/" ++ shownBytes (offsetsPartition number).toBytes)
        (offsetsPartition number) files.partitionMeta fresh.defaults false =
          .ok (configAfter fresh.defaults made, written) := by
      rw [isMeta, configAfter]
      split
      · have decoded := decode_partition_meta_encode ⟨offsetsPartition number, offsetsConfig fresh.defaults⟩
          (offsets_partition_storable small) (offsets_config_storable storable)
        simp [resolveConfig, decoded]
      · exact ⟨_, rfl⟩
    have opens := fun config => @open_unwritten (offsetsPartition number)
      (fresh.dataDir ++ "/" ++ shownBytes (offsetsPartition number).toBytes) files fresh.defaults config clockMs
      unwritten
    have entered : ¬ ((offsetsPartition number).toBytes = kMetaDirName ∨
        kDeletedSuffix.isSuffixOf (offsetsPartition number).toBytes = true) := by
      rw [not_or, Bool.not_eq_true]
      exact ⟨dir_name_not_meta _ _, dir_name_not_deleted _ _⟩
    simp only [LogManager.openEntry, if_neg entered, parsed, except_ok_bind]
    constructor
    · intro opened isOpened
      obtain ⟨log, isLog, _⟩ := except_bind_ok isOpened
      obtain ⟨roomy, written, resolved⟩ := (opens log.config).mp ⟨log, isLog, rfl⟩
      obtain ⟨_, found⟩ := resolves
      rw [found, Except.ok.injEq, Prod.mk.injEq] at resolved
      rwa [← resolved.1, config_after_roomy] at roomy
    · intro roomy
      obtain ⟨log, isLog, isConfig⟩ := (opens (configAfter fresh.defaults made)).mpr
        ⟨by rw [config_after_roomy]; exact roomy, resolves⟩
      exact ⟨log, by rw [isLog]; rfl, isConfig⟩

theorem offsets_partition_ne {number other : Nat} (different : number ≠ other) :
    offsetsPartition number ≠ offsetsPartition other := by
  intro same
  simp only [offsetsPartition, TopicPartition.mk.injEq, Nat.cast_inj, true_and] at same
  exact different same

theorem create_offsets_partition {number : Nat} {config : LogConfig}
    (absent : manager.get (offsetsPartition number) = none) :
    (∀ next, manager.createPartition (offsetsPartition number) config = .ok next →
      kEntrySize ≤ config.roll.maxIndexBytes) ∧
    (kEntrySize ≤ config.roll.maxIndexBytes → ∃ log,
      manager.createPartition (offsetsPartition number) config =
          .ok { manager with logs := manager.logs ++ [(offsetsPartition number, log)] } ∧
        log.config = config) := by
  have usable : requireUsableName (offsetsPartition number) = .ok () := by
    have named : isUsableTopicName kOffsetsTopic = true := by decide
    have numbered : ¬ (number : Int) < 0 := by omega
    simp [requireUsableName, offsetsPartition, named, numbered]
  simp only [LogManager.createPartition, usable, except_ok_bind, absent, Option.isSome_none,
    Bool.false_eq_true, if_false]
  have opens := @opens_with (offsetsPartition number) (manager.partitionDir (offsetsPartition number))
    (encodePartitionMeta ⟨offsetsPartition number, config⟩) config config 1
    (ActiveSegment.create 0 (manager.partitionDir (offsetsPartition number)) 0 config.roll false)
  rw [create_unwritten] at opens
  constructor
  · intro next isNext
    obtain ⟨log, created, _⟩ := except_bind_ok isNext
    have isConfig : log.config = config := by
      obtain ⟨active, _, made⟩ := except_bind_ok created
      cases made
      rfl
    exact (opens.mp ⟨log, created, isConfig⟩).1
  · intro roomy
    obtain ⟨log, created, isConfig⟩ := opens.mpr ⟨roomy, rfl⟩
    exact ⟨log, by rw [Log.create, created]; rfl, isConfig⟩

theorem create_offsets_all {numbers : List Nat} (distinct : numbers.Nodup) {config : LogConfig}
    (roomy : kEntrySize ≤ config.roll.maxIndexBytes)
    (absent : ∀ number ∈ numbers, manager.get (offsetsPartition number) = none) :
    ∃ created, createOffsets config numbers manager = .ok { manager with logs := manager.logs ++ created } ∧
      created.map (·.1) = numbers.map offsetsPartition ∧ ∀ hosted ∈ created, hosted.2.config = config := by
  induction numbers generalizing manager with
  | nil => exact ⟨[], by simp [createOffsets], rfl, List.forall_mem_nil _⟩
  | cons number numbers ih =>
      obtain ⟨new, distinct⟩ := List.nodup_cons.mp distinct
      obtain ⟨isAbsent, absent⟩ := List.forall_mem_cons.mp absent
      obtain ⟨log, created, isConfig⟩ := (create_offsets_partition isAbsent).2 roomy
      have later : ∀ other ∈ numbers, { manager with
          logs := manager.logs ++ [(offsetsPartition number, log)] }.get (offsetsPartition other) = none := by
        intro other inside
        have before := absent other inside
        have different : offsetsPartition number ≠ offsetsPartition other :=
          offsets_partition_ne fun same => new (same ▸ inside)
        simp only [LogManager.get, Option.map_eq_none_iff, List.find?_append] at before ⊢
        simp [before, different]
      obtain ⟨rest, createdRest, named, configs⟩ := ih distinct later
      refine ⟨(offsetsPartition number, log) :: rest, ?_, ?_, ?_⟩
      · simp only [createOffsets, created, except_ok_bind, createdRest, List.append_assoc, List.cons_append,
          List.nil_append]
      · simp [named]
      · rw [List.forall_mem_cons]
        exact ⟨isConfig, configs⟩

end Established

section Crash

variable {fresh loaded manager : LogManager} {entries others : List DirEntry} {clockMs : Int}
  {count complete made : Nat}

/-- An entry is there once its directory has been made, under the name of its partition. -/
theorem offsets_entry_shape (fresh : LogManager) (number made : Nat) :
    (.makeDirectory ∉ createSteps.take made ∧ offsetsEntry fresh number made = none) ∨
      .makeDirectory ∈ createSteps.take made ∧ ∃ entry, offsetsEntry fresh number made = some entry ∧
        entry.name = (offsetsPartition number).toBytes := by
  rcases crashed_after_cases ⟨offsetsPartition number, fresh.partitionDir (offsetsPartition number),
      offsetsConfig fresh.defaults⟩ made with ⟨none_yet, nothing⟩ | ⟨begun, files, isFiles, _⟩
  · exact .inl ⟨none_yet, by rw [offsetsEntry, nothing]; rfl⟩
  · exact .inr ⟨begun, _, by rw [offsetsEntry, isFiles]; rfl, rfl⟩

theorem mem_crashed_entries {entry : DirEntry} (inside : entry ∈ crashedEntries fresh complete made) :
    (∃ number < complete, offsetsEntry fresh number createSteps.length = some entry) ∨
      offsetsEntry fresh complete made = some entry := by
  rcases List.mem_append.mp inside with early | late
  · obtain ⟨number, below, isEntry⟩ := List.mem_filterMap.mp early
    exact .inl ⟨number, List.mem_range.mp below, isEntry⟩
  · exact .inr (Option.mem_toList.mp late)

/-- The partitions that have a directory when the crash comes. -/
def numbersOnDisk (complete made : Nat) : List Nat :=
  List.range complete ++ if .makeDirectory ∈ createSteps.take made then [complete] else []

def namedPartitions (entries : List DirEntry) : List TopicPartition :=
  entries.filterMap fun entry => (topicPartitionFromDirName entry.name).toOption

def offsetsNamed (entries : List DirEntry) : List TopicPartition :=
  (namedPartitions entries).filter fun tp => decide (tp.topic = kOffsetsTopic)

theorem offsets_entry_named {number : Nat} (small : number < 2 ^ 31) (begun : .makeDirectory ∈ createSteps.take made) :
    namedPartitions (offsetsEntry fresh number made).toList = [offsetsPartition number] := by
  obtain ⟨_, entry, isEntry, isName⟩ := (offsets_entry_shape fresh number made).resolve_left
    fun none_yet => none_yet.1 begun
  have parsed : topicPartitionFromDirName (offsetsPartition number).toBytes = .ok (offsetsPartition number) :=
    dir_name_parses (by decide) small
  simp [namedPartitions, isEntry, isName, parsed, Except.toOption]

theorem named_append (first second : List DirEntry) :
    namedPartitions (first ++ second) = namedPartitions first ++ namedPartitions second :=
  List.filterMap_append

theorem crashed_entries_named (small : complete < 2 ^ 31) :
    namedPartitions (crashedEntries fresh complete made) = (numbersOnDisk complete made).map offsetsPartition := by
  have full : ∀ numbers : List Nat, (∀ number ∈ numbers, number < 2 ^ 31) →
      namedPartitions (numbers.filterMap (offsetsEntry fresh · createSteps.length)) =
        numbers.map offsetsPartition := by
    intro numbers
    induction numbers with
    | nil => exact fun _ => rfl
    | cons number numbers ih =>
        intro each
        obtain ⟨isSmall, each⟩ := List.forall_mem_cons.mp each
        have first := @offsets_entry_named fresh createSteps.length number isSmall (by decide)
        have listed : (number :: numbers).filterMap (offsetsEntry fresh · createSteps.length) =
            (offsetsEntry fresh number createSteps.length).toList ++
              numbers.filterMap (offsetsEntry fresh · createSteps.length) := by
          cases isEntry : offsetsEntry fresh number createSteps.length <;> simp [isEntry]
        rw [listed, named_append, first, ih each]
        rfl
  have before := full (List.range complete) fun number inside => by
    have below := List.mem_range.mp inside
    omega
  rw [crashedEntries, numbersOnDisk, named_append, before, List.map_append]
  congr 1
  split
  · next begun => exact offsets_entry_named small begun
  · next none_yet =>
    rw [((offsets_entry_shape fresh complete made).resolve_right fun begun => none_yet begun.1).2]
    rfl

theorem hosted_after_scan (empty : fresh.logs = []) (loads : fresh.loadAll entries clockMs = .ok loaded) :
    hostedOffsets loaded = offsetsNamed entries := by
  simp only [LogManager.loadAll, empty, ne_eq, not_true_eq_false, if_false] at loads
  obtain ⟨each, rfl⟩ := load_entries_ok_iff.mp loads
  rw [hostedOffsets, offsetsNamed, namedPartitions]
  simp only [empty, List.nil_append, List.map_filterMap]
  congr 1
  apply List.filterMap_congr
  intro entry inside
  obtain ⟨opened, opens⟩ := each entry inside
  exact opened_is_named opens

/-- What a crash must leave, and what the rest of the data directory must be, for the
next start to establish the topic. -/
structure SurvivesCrash (fresh : LogManager) (others : List DirEntry) (clockMs : Int)
    (count complete made : Nat) : Prop where
  loads : ∀ entry ∈ others, ∃ opened, fresh.openEntry clockMs entry = .ok opened
  roomy : kEntrySize ≤ fresh.defaults.roll.maxIndexBytes
  outside : complete = 0 ∧ .makeDirectory ∉ createSteps.take made ∨
    complete + 1 = count ∧ (.renameMeta ∈ createSteps.take made ∨
      .makeDirectory ∈ createSteps.take made ∧ KeepsOffsets fresh.defaults)

theorem scanned_offsets (elsewhere : offsetsNamed others = []) (small : complete < 2 ^ 31)
    (scan : entries.Perm (others ++ crashedEntries fresh complete made)) :
    (offsetsNamed entries).Perm ((numbersOnDisk complete made).map offsetsPartition) := by
  have named := (scan.filterMap fun entry => (topicPartitionFromDirName entry.name).toOption).filter
    fun tp => decide (tp.topic = kOffsetsTopic)
  refine named.trans (List.Perm.of_eq ?_)
  have both := named_append others (crashedEntries fresh complete made)
  rw [crashed_entries_named small] at both
  simp only [namedPartitions] at both
  rw [both, List.filter_append]
  simp only [offsetsNamed, namedPartitions] at elsewhere
  rw [elsewhere, List.nil_append]
  apply List.filter_eq_self.mpr
  intro tp inside
  obtain ⟨number, _, rfl⟩ := List.mem_map.mp inside
  rfl

theorem crashed_entry_opens (storable : fresh.defaults.Storable) (small : complete < 2 ^ 31)
    (roomy : kEntrySize ≤ fresh.defaults.roll.maxIndexBytes) {entry : DirEntry}
    (inside : entry ∈ crashedEntries fresh complete made) (clockMs : Int) :
    ∃ number log, fresh.openEntry clockMs entry = .ok (some (offsetsPartition number, log)) ∧
      (log.config = (offsetsConfig fresh.defaults).reloaded ∨ log.config = configAfter fresh.defaults made) := by
  rcases mem_crashed_entries inside with ⟨number, below, isEntry⟩ | isEntry
  · obtain ⟨log, opens, isConfig⟩ := (offsets_entry_opens storable (by omega) isEntry clockMs).2 roomy
    have full : configAfter fresh.defaults createSteps.length = (offsetsConfig fresh.defaults).reloaded :=
      if_pos (by decide)
    exact ⟨number, log, opens, .inl (isConfig.trans full)⟩
  · obtain ⟨log, opens, isConfig⟩ := (offsets_entry_opens storable small isEntry clockMs).2 roomy
    exact ⟨complete, log, opens, .inr isConfig⟩

theorem mem_hosted_offsets {hosted : TopicPartition × Log} (inside : hosted ∈ manager.logs)
    (isOffsets : hosted.1.topic = kOffsetsTopic) : hosted.1 ∈ hostedOffsets manager :=
  List.mem_filter.mpr ⟨List.mem_map.mpr ⟨hosted, inside, rfl⟩, by simpa using isOffsets⟩

theorem get_no_offsets (nothing : hostedOffsets manager = []) (number : Nat) :
    manager.get (offsetsPartition number) = none := by
  simp only [LogManager.get, Option.map_eq_none_iff, List.find?_eq_none, decide_eq_true_eq]
  intro hosted inside same
  have member := mem_hosted_offsets inside (congrArg TopicPartition.topic same)
  rw [nothing] at member
  cases member

/-- On a broker without the topic it is created whole if an index entry has room. -/
theorem ensure_creates (nothing : hostedOffsets manager = []) (some_asked : 0 < count) :
    (∀ final, ensureOffsetsTopic manager count = .ok final → kEntrySize ≤ manager.defaults.roll.maxIndexBytes) ∧
    (kEntrySize ≤ manager.defaults.roll.maxIndexBytes →
      ∃ final, ensureOffsetsTopic manager count = .ok (count, final) ∧ Established final count) := by
  have positive : ¬ (count : Int) ≤ 0 := by omega
  have ensures : ensureOffsetsTopic manager count = do
      let manager ← createOffsets (offsetsConfig manager.defaults) (List.range count) manager
      return ((count : Int), manager) := by
    simp only [ensureOffsetsTopic, nothing, List.length_nil, if_neg positive, Nat.cast_zero, lt_irrefl,
      if_false, Int.toNat_natCast]
  obtain ⟨fewer, isCount⟩ : ∃ fewer, count = fewer + 1 := ⟨count - 1, by omega⟩
  rw [ensures]
  constructor
  · intro final isFinal
    obtain ⟨created, isCreated, _⟩ := except_bind_ok isFinal
    rw [isCount, List.range_succ_eq_map, createOffsets] at isCreated
    obtain ⟨first, isFirst, _⟩ := except_bind_ok isCreated
    have roomy := (@create_offsets_partition manager 0 (offsetsConfig manager.defaults)
      (get_no_offsets nothing 0)).1 first isFirst
    exact roomy
  · intro roomy
    obtain ⟨created, isCreated, named, configs⟩ := @create_offsets_all manager _ List.nodup_range
      (offsetsConfig manager.defaults) roomy fun number _ => get_no_offsets nothing number
    refine ⟨{ manager with logs := manager.logs ++ created }, by rw [isCreated, except_ok_bind]; rfl, ?_, ?_⟩
    · have kept : (hostedOffsets manager ++ (created.map (·.1)).filter fun tp =>
          decide (tp.topic = kOffsetsTopic)) = (List.range count).map offsetsPartition := by
        rw [nothing, List.nil_append, named]
        apply List.filter_eq_self.mpr
        intro tp inside
        obtain ⟨number, _, rfl⟩ := List.mem_map.mp inside
        rfl
      rw [hostedOffsets, List.map_append, List.filter_append]
      exact List.Perm.of_eq kept
    · intro hosted inside isOffsets
      rcases List.mem_append.mp inside with old | new
      · have member := mem_hosted_offsets old isOffsets
        rw [nothing] at member
        cases member
      · rw [configs hosted new]
        exact ⟨rfl, rfl, rfl⟩

theorem ensure_counts {answer : Int × LogManager} (ensured : ensureOffsetsTopic manager count = .ok answer)
    (occupied : hostedOffsets manager ≠ []) : (hostedOffsets manager).length = count ∧ answer.2 = manager := by
  have positive := List.length_pos_iff.mpr occupied
  simp only [ensureOffsetsTopic] at ensured
  split at ensured
  · cases ensured
  · rw [if_pos (by omega)] at ensured
    split at ensured
    · cases ensured
    · next same =>
      cases ensured
      exact ⟨by omega, rfl⟩

theorem directory_before_meta (renamed : .renameMeta ∈ createSteps.take made) :
    .makeDirectory ∈ createSteps.take made := by
  cases made with
  | zero => cases renamed
  | succ more => exact List.mem_cons_self

theorem scanned_config (storable : fresh.defaults.Storable) (small : complete < 2 ^ 31)
    (roomy : kEntrySize ≤ fresh.defaults.roll.maxIndexBytes) (elsewhere : offsetsNamed others = [])
    (loads : ∀ entry ∈ others, ∃ opened, fresh.openEntry clockMs entry = .ok opened)
    {entry : DirEntry} (inside : entry ∈ others ++ crashedEntries fresh complete made)
    {hosted : TopicPartition × Log} (opened : fresh.opened clockMs entry = some hosted)
    (isOffsets : hosted.1.topic = kOffsetsTopic) :
    hosted.2.config = (offsetsConfig fresh.defaults).reloaded ∨
      hosted.2.config = configAfter fresh.defaults made := by
  rcases List.mem_append.mp inside with other | crashed
  · obtain ⟨result, opens⟩ := loads entry other
    have parsed := opened_is_named opens
    rw [opened] at parsed
    have named : hosted.1 ∈ offsetsNamed others :=
      List.mem_filter.mpr ⟨List.mem_filterMap.mpr ⟨entry, other, parsed.symm⟩, by simpa using isOffsets⟩
    rw [elsewhere] at named
    cases named
  · obtain ⟨number, log, opens, isConfig⟩ := crashed_entry_opens storable small roomy crashed clockMs
    rw [LogManager.opened, opens] at opened
    cases opened
    exact isConfig

theorem survivor_established (storable : fresh.defaults.Storable) (empty : fresh.logs = [])
    (within : complete < count) (small : count < 2 ^ 31) (elsewhere : offsetsNamed others = [])
    (scan : entries.Perm (others ++ crashedEntries fresh complete made))
    (survives : SurvivesCrash fresh others clockMs count complete made) :
    ∃ manager, startBroker fresh entries clockMs count = .ok manager ∧ Established manager count := by
  have smallComplete : complete < 2 ^ 31 := by omega
  have some_asked : 0 < count := by omega
  have each : ∀ entry ∈ entries, ∃ opened, fresh.openEntry clockMs entry = .ok opened := by
    intro entry inside
    rcases List.mem_append.mp (scan.mem_iff.mp inside) with other | crashed
    · exact survives.loads entry other
    · obtain ⟨_, _, opens, _⟩ := crashed_entry_opens storable smallComplete survives.roomy crashed clockMs
      exact ⟨_, opens⟩
  have loads := (load_all_ok_iff empty).mpr ⟨each, rfl⟩
  have hosted := scanned_offsets elsewhere smallComplete scan
  rw [← hosted_after_scan empty loads] at hosted
  rcases survives.outside with ⟨rfl, none_yet⟩ | ⟨rfl, last⟩
  · rw [numbersOnDisk, if_neg none_yet] at hosted
    obtain ⟨final, ensured, established⟩ := (ensure_creates (List.perm_nil.mp hosted) some_asked).2 survives.roomy
    exact ⟨final, by simp only [startBroker, loads, except_ok_bind, ensured]; rfl, established⟩
  · have begun : .makeDirectory ∈ createSteps.take made := last.elim directory_before_meta (·.1)
    rw [numbersOnDisk, if_pos begun, ← List.range_succ] at hosted
    refine ⟨_, by simp only [startBroker, loads, except_ok_bind, ensure_established hosted some_asked]; rfl,
      hosted, ?_⟩
    intro kept inside isOffsets
    obtain ⟨entry, isEntry, opened⟩ := List.mem_filterMap.mp inside
    rcases scanned_config storable smallComplete survives.roomy elsewhere survives.loads
        (scan.mem_iff.mp isEntry) opened isOffsets with isConfig | isConfig
    · rw [isConfig]
      exact offsets_config_keeps _
    · rw [isConfig, configAfter]
      split
      · exact offsets_config_keeps _
      · next unnamed => exact (last.resolve_left unnamed).2

theorem established_survived (storable : fresh.defaults.Storable) (empty : fresh.logs = [])
    (within : complete < count) (small : count < 2 ^ 31) (elsewhere : offsetsNamed others = [])
    (scan : entries.Perm (others ++ crashedEntries fresh complete made))
    (started : startBroker fresh entries clockMs count = .ok manager) (established : Established manager count) :
    SurvivesCrash fresh others clockMs count complete made := by
  have smallComplete : complete < 2 ^ 31 := by omega
  obtain ⟨loaded, loads, ensured⟩ := except_bind_ok started
  obtain ⟨⟨existing, final⟩, ensured, same⟩ := except_bind_ok ensured
  cases same
  have hosted := scanned_offsets elsewhere smallComplete scan
  rw [← hosted_after_scan empty loads] at hosted
  obtain ⟨each, rfl⟩ := (load_all_ok_iff empty).mp loads
  have othersLoad : ∀ entry ∈ others, ∃ opened, fresh.openEntry clockMs entry = .ok opened :=
    fun entry inside => each entry (scan.mem_iff.mpr (List.mem_append_left _ inside))
  have length := hosted.length_eq
  rw [List.length_map, numbersOnDisk, List.length_append, List.length_range] at length
  by_cases begun : .makeDirectory ∈ createSteps.take made
  · rw [if_pos begun, List.length_singleton] at length
    obtain ⟨isCount, isLoaded⟩ := ensure_counts ensured (List.length_pos_iff.mp (by omega))
    obtain ⟨_, entry, isEntry, _⟩ := (offsets_entry_shape fresh complete made).resolve_left
      fun none_yet => none_yet.1 begun
    have crashed : entry ∈ entries := by
      apply scan.mem_iff.mpr
      exact List.mem_append_right _ (List.mem_append_right _ (Option.mem_toList.mpr isEntry))
    obtain ⟨opened, opens⟩ := each entry crashed
    have roomy := (offsets_entry_opens storable smallComplete isEntry clockMs).1 opened opens
    refine ⟨othersLoad, roomy, .inr ⟨by omega, ?_⟩⟩
    by_cases renamed : .renameMeta ∈ createSteps.take made
    · exact .inl renamed
    · obtain ⟨log, opensLog, isConfig⟩ := (offsets_entry_opens storable smallComplete isEntry clockMs).2 roomy
      rw [configAfter, if_neg renamed] at isConfig
      refine .inr ⟨begun, isConfig ▸ established.keeps (offsetsPartition complete, log) ?_ rfl⟩
      simp only at isLoaded
      rw [isLoaded]
      refine List.mem_filterMap.mpr ⟨entry, crashed, ?_⟩
      rw [LogManager.opened, opensLog]
      rfl
  · rw [if_neg begun, List.length_nil] at length
    by_cases nothing : hostedOffsets { fresh with logs := entries.filterMap (fresh.opened clockMs) } = []
    · have roomy := (ensure_creates nothing (by omega)).1 _ ensured
      rw [nothing, List.length_nil] at length
      exact ⟨othersLoad, roomy, .inl ⟨by omega, begun⟩⟩
    · obtain ⟨isCount, _⟩ := ensure_counts ensured nothing
      omega

/-- The first run of `ensureOffsetsTopic` crashes when so many partitions are complete
and so many steps of the next one have been made. The next start establishes the topic
if and only if the crash came before anything was made, or when the last partition
had its rules or is given the right ones by the defaults. A later start creates nothing. -/
theorem crashed_start_establishes (storable : fresh.defaults.Storable) (empty : fresh.logs = [])
    (within : complete < count) (small : count < 2 ^ 31)
    (elsewhere : offsetsNamed others = [])
    (scan : entries.Perm (others ++ crashedEntries fresh complete made)) :
    ((∃ manager, startBroker fresh entries clockMs count = .ok manager ∧ Established manager count) ↔
      SurvivesCrash fresh others clockMs count complete made) ∧
    ∀ (later : List DirEntry) (laterMs : Int) (loaded : LogManager),
      (offsetsNamed later).Perm ((List.range count).map offsetsPartition) →
      fresh.loadAll later laterMs = .ok loaded → startBroker fresh later laterMs count = .ok loaded := by
  refine ⟨⟨?_, survivor_established storable empty within small elsewhere scan⟩, ?_⟩
  · rintro ⟨manager, started, established⟩
    exact established_survived storable empty within small elsewhere scan started established
  · intro later laterMs loaded named loads
    rw [← hosted_after_scan empty loads] at named
    simp only [startBroker, loads, except_ok_bind, ensure_established named (by omega)]
    rfl

end Crash

def newBroker : LogManager := { dataDir := "data", defaults := {} }

theorem new_broker_storable : newBroker.defaults.Storable where
  maxSegmentBytes := by decide
  maxSegmentAgeMs := by decide
  indexIntervalBytes := by decide
  maxIndexBytes := by decide
  retentionMs := by decide
  retentionBytes := fun _ none => by cases none
  segmentDeleteDelayMs := by decide
  deleteRetentionMs := by decide

theorem crashed_start_establishes_last :
    ∃ manager, startBroker newBroker (crashedEntries newBroker 1 6) 0 2 = .ok manager ∧ Established manager 2 := by
  have settled := @crashed_start_establishes newBroker (crashedEntries newBroker 1 6) [] 0 2 1 6
    new_broker_storable rfl (by decide) (by decide) rfl (List.Perm.refl _)
  exact settled.1.mpr ⟨List.forall_mem_nil _, by decide, .inr ⟨rfl, .inl (by decide)⟩⟩

/-- One of two partitions has been made: the next start takes the topic for one of another size. -/
theorem crash_between_partitions_refuses_start :
    ¬ ∀ (fresh : LogManager) (entries others : List DirEntry) (clockMs : Int) (count complete made : Nat),
      fresh.defaults.Storable → fresh.logs = [] → complete < count → count < 2 ^ 31 →
      offsetsNamed others = [] → entries.Perm (others ++ crashedEntries fresh complete made) →
      ∃ manager, startBroker fresh entries clockMs count = .ok manager ∧ Established manager count := by
  intro all
  obtain ⟨manager, started, _⟩ := all newBroker (crashedEntries newBroker 1 0) [] 0 2 1 0 new_broker_storable rfl
    (by decide) (by decide) rfl (List.Perm.refl _)
  have refused : (startBroker newBroker (crashedEntries newBroker 1 0) 0 2).isOk = false := by decide +kernel
  rw [show startBroker newBroker (crashedEntries newBroker 1 0) 0 2 = .ok manager from started] at refused
  cases refused

end DariyaKyu.Groups

import DariyaKyu.Library.GuardedRun
import DariyaKyu.Storage.DirectoryScan

/-!
The names under which a data directory keeps its partitions. A directory stands
at its name, byte by byte, as on a case-sensitive file system; a name longer than
the file system takes is refused, and so is a rename onto a directory that is not
empty. Nothing else fails. While partitions are created and removed, the names
in the data directory are those of the hosted partitions, the reserved one, and
names with the suffix of a deletion, so that the scan of a restart finds the
hosted partitions and no other.
-/

namespace DariyaKyu.Storage

set_option autoImplicit false

/-- A partition that can be hosted: its topic is usable, its number an int32 from zero on. -/
structure Nameable (tp : TopicPartition) : Prop where
  usable : isUsableTopicName tp.topic = true
  numbered : 0 ≤ tp.partition
  small : tp.partition < 2 ^ 31

section Names

variable {tp other : TopicPartition} {name : Bytes}

theorem Nameable.named (nameable : Nameable tp) : tp.topic ≠ [] := by
  intro nothing
  have usable := nameable.usable
  rw [nothing] at usable
  cases usable

theorem Nameable.numeral (nameable : Nameable tp) :
    ∃ number : Nat, number < 2 ^ 31 ∧ tp = ⟨tp.topic, number⟩ := by
  obtain ⟨number, isNumber⟩ := Int.eq_ofNat_of_zero_le nameable.numbered
  have small := nameable.small
  refine ⟨number, by omega, ?_⟩
  rw [TopicPartition.mk.injEq]
  exact ⟨rfl, isNumber⟩

theorem Nameable.parses (nameable : Nameable tp) : topicPartitionFromDirName tp.toBytes = .ok tp := by
  obtain ⟨number, small, isTp⟩ := nameable.numeral
  rw [isTp]
  exact dir_name_parses nameable.named small

theorem Nameable.not_deleted (nameable : Nameable tp) : kDeletedSuffix.isSuffixOf tp.toBytes =
    false := by
  obtain ⟨number, _, isTp⟩ := nameable.numeral
  rw [isTp]
  exact dir_name_not_deleted tp.topic number

theorem Nameable.distinct (nameable : Nameable tp) (alike : Nameable other) (same : tp.toBytes =
    other.toBytes) :
    tp = other := by
  have parsed := nameable.parses
  rw [same, alike.parses] at parsed
  exact (Except.ok.inj parsed).symm

theorem parsed_numbered (parsed : topicPartitionFromDirName name = .ok tp) :
    0 ≤ tp.partition ∧ tp.partition < 2 ^ 31 := by
  simp only [topicPartitionFromDirName] at parsed
  split at parsed
  · cases parsed
  · split at parsed
    · cases parsed
    · split at parsed
      · cases parsed
      · split at parsed
        · cases parsed
        · split at parsed
          · cases parsed
          · next small =>
            split at parsed
            · cases parsed
            · cases parsed
              simp only
              omega

theorem parsed_canonical (parsed : topicPartitionFromDirName name = .ok tp) : tp.toBytes = name := by
  have numbered := (parsed_numbered parsed).1
  have written := dir_name_of_parsed parsed
  rwa [Int.toNat_of_nonneg numbered] at written

theorem deleted_suffix (front : Bytes) : kDeletedSuffix.isSuffixOf (front ++ kDeletedSuffix) =
    true := by
  rw [List.isSuffixOf_iff_suffix]
  exact List.suffix_append front kDeletedSuffix

end Names

/-- The broker's partitions and what stands at each name in its data directory. -/
structure DataDisk where
  manager : LogManager
  directories : Bytes → Option PartitionDir

inductive DiskCall where
  | create (tp : TopicPartition) (config : LogConfig)
  | remove (tp : TopicPartition) (nowMs : Int)
  | sweep (nowMs : Int)

def removedName (tp : TopicPartition) (nowMs : Int) : Bytes :=
  tp.toBytes ++ [46] ++ toStringBytes nowMs ++ kDeletedSuffix

def PartitionDir.occupied (files : PartitionDir) : Bool :=
  files.partitionMeta.isSome || !files.segments.isEmpty

namespace DataDisk

def call (nameMax : Nat) : DiskCall → DataDisk → Option DataDisk
  | .create tp config, disk =>
      if nameMax < tp.toBytes.length then none
      else
        let new : NewPartition := ⟨tp, disk.manager.partitionDir tp, config⟩
        match new.runSteps none createSteps (disk.directories tp.toBytes),
            disk.manager.createPartition tp config with
        | (files, none), .ok manager =>
            some ⟨manager, Function.update disk.directories tp.toBytes files⟩
        | _, _ => none
  | .remove tp nowMs, disk =>
      let target := removedName tp nowMs
      if nameMax < target.length ∨ (disk.directories target).any (·.occupied) = true then none
      else
        match disk.manager.removePartition tp nowMs, disk.directories tp.toBytes with
        | .ok manager, some files =>
            let vacated := Function.update disk.directories tp.toBytes none
            some ⟨manager, Function.update vacated target (some files)⟩
        | _, _ => none
  | .sweep nowMs, disk =>
      let due := disk.manager.removed.filter fun gone =>
        decide (disk.manager.defaults.retention.segmentDeleteDelayMs ≤ nowMs - gone.removedAtMs)
      some ⟨disk.manager.sweepDeletedPartitions nowMs, fun name =>
        if due.any (fun gone => decide (gone.directory = name)) = true then none else disk.directories name⟩

def Admits (_ : DataDisk) : DiskCall → Prop
  | .create tp config => tp.partition < 2 ^ 31 ∧ config.Storable
  | .remove _ _ | .sweep _ => True

def Opens (fresh : LogManager) (clockMs : Int) (tp : TopicPartition) (files : PartitionDir) : Prop :=
  ∃ log, Log.open tp (fresh.dataDir ++ "/" ++ shownBytes tp.toBytes) files fresh.defaults clockMs =
    .ok log

/-- Every hosted partition stands at its name and opens there; the other names are
the reserved one and those of deletions. -/
structure Mirrors (fresh : LogManager) (clockMs : Int) (disk : DataDisk) : Prop where
  once : (disk.manager.logs.map (·.1)).Nodup
  named : ∀ tp ∈ disk.manager.logs.map (·.1), Nameable tp
  kept : ∀ tp ∈ disk.manager.logs.map (·.1), ∃ files, disk.directories tp.toBytes = some files ∧
    Opens fresh clockMs tp files
  others : ∀ name files, disk.directories name = some files → name = kMetaDirName ∨
    kDeletedSuffix.isSuffixOf name = true ∨ ∃ tp ∈ disk.manager.logs.map (·.1), tp.toBytes = name
  retired : ∀ gone ∈ disk.manager.removed, kDeletedSuffix.isSuffixOf gone.directory = true

/-- What the iteration over the data directory meets: every directory, once, in some order. -/
structure Lists (disk : DataDisk) (entries : List DirEntry) : Prop where
  once : (entries.map (·.name)).Nodup
  every : ∀ entry, entry ∈ entries ↔ disk.directories entry.name = some entry.contents

end DataDisk

section Calls

variable {nameMax : Nat} {fresh : LogManager} {clockMs : Int} {disk next : DataDisk}

theorem run_steps_makes (new : NewPartition) (steps : List CreateStep) (files : Option PartitionDir)
    (done : (new.runSteps none steps files).2 = none) :
    (new.runSteps none steps files).1 = steps.foldl new.makes files := by
  induction steps generalizing files with
  | nil => rfl
  | cons step steps ih =>
      simp only [NewPartition.runSteps, failsAt, Option.none_or] at done ⊢
      cases refused : new.refuses files step with
      | some failure =>
          rw [refused] at done
          cases done
      | none =>
          rw [refused] at done
          exact ih _ done

theorem created_opens {new : NewPartition} {files : Option PartitionDir} (nameable : Nameable new.tp)
    (short : new.tp.topic.length < 2 ^ 15) (storable : new.config.Storable)
    (ran : new.runSteps none createSteps none = (files, none)) (fresh : LogManager) (clockMs : Int) :
    ∃ written, files = some written ∧ DataDisk.Opens fresh clockMs new.tp written := by
  have done : (new.runSteps none createSteps none).2 = none := by rw [ran]
  have made := run_steps_makes new createSteps none done
  obtain ⟨_, _, roomy⟩ := run_steps_done_iff.mp done
  rw [ran] at made
  rcases crashed_after_cases new createSteps.length with ⟨unmade, _⟩ | ⟨_, written, isWritten,
    unwritten, isMeta⟩
  · exact absurd (by decide) unmade
  · rw [NewPartition.crashedAfter, List.take_length, ← made] at isWritten
    refine ⟨written, isWritten, ?_⟩
    have named : StorableName new.tp :=
      ⟨List.length_pos_iff.mpr nameable.named, short, nameable.numbered, nameable.small⟩
    have decoded := decode_partition_meta_encode ⟨new.tp, new.config⟩ named storable
    have resolves : ∃ bytes, resolveConfig (fresh.dataDir ++ "/" ++ shownBytes new.tp.toBytes) new.tp
        written.partitionMeta fresh.defaults false = .ok (new.config.reloaded, bytes) := by
      rw [isMeta, if_pos (by decide)]
      simp [resolveConfig, decoded]
    have room : kEntrySize ≤ new.config.reloaded.roll.maxIndexBytes := roomy
    obtain ⟨log, opens, _⟩ := (open_unwritten unwritten).mpr ⟨room, resolves⟩
    exact ⟨log, opens⟩

theorem hosted_absent {manager : LogManager} {tp : TopicPartition}
    (absent : ¬ (manager.get tp).isSome = true) :
    tp ∉ manager.logs.map (·.1) := by
  intro inside
  obtain ⟨hosted, member, isTp⟩ := List.mem_map.mp inside
  apply absent
  simpa [LogManager.get] using ⟨hosted.2, isTp ▸ member⟩

theorem created_call {tp : TopicPartition} {config : LogConfig}
    (called : DataDisk.call nameMax (.create tp config) disk = some next) :
    tp.toBytes.length ≤ nameMax ∧ isUsableTopicName tp.topic = true ∧ 0 ≤ tp.partition ∧
      tp ∉ disk.manager.logs.map (·.1) ∧
      ∃ files log, (NewPartition.mk tp (disk.manager.partitionDir tp) config).runSteps none createSteps
          (disk.directories tp.toBytes) = (files, none) ∧
        next = ⟨{ disk.manager with logs := disk.manager.logs ++ [(tp, log)] },
          Function.update disk.directories tp.toBytes files⟩ := by
  simp only [DataDisk.call] at called
  split at called
  · cases called
  · next short =>
    split at called
    · next files manager ran created =>
      cases called
      obtain ⟨_, usable, created⟩ := except_bind_ok created
      split at created
      · cases created
      · next absent =>
        obtain ⟨log, _, created⟩ := except_bind_ok created
        cases created
        simp only [requireUsableName] at usable
        split at usable
        · cases usable
        · next named =>
          split at usable
          · cases usable
          · next numbered =>
            exact ⟨by omega, by simpa using named, by omega, hosted_absent absent, files, log, ran, rfl⟩
    · cases called

theorem removed_call {tp : TopicPartition} {nowMs : Int}
    (called : DataDisk.call nameMax (.remove tp nowMs) disk = some next) :
    tp ∈ disk.manager.logs.map (·.1) ∧ ∃ log files, disk.directories tp.toBytes = some files ∧
      next = ⟨{ disk.manager with
          logs := disk.manager.logs.filter (·.1 ≠ tp)
          removed := disk.manager.removed ++ [⟨log, removedName tp nowMs, nowMs⟩] },
        Function.update (Function.update disk.directories tp.toBytes none) (removedName tp nowMs) (some files)⟩ := by
  simp only [DataDisk.call] at called
  split at called
  · cases called
  · split at called
    · next manager files removed stood =>
      cases called
      simp only [LogManager.removePartition] at removed
      split at removed
      · cases removed
      · next log found =>
        cases removed
        obtain ⟨hosted, isHosted, _⟩ := Option.map_eq_some_iff.mp found
        have isTp : hosted.1 = tp := by simpa using List.find?_some isHosted
        exact ⟨List.mem_map.mpr ⟨hosted, List.mem_of_find?_eq_some isHosted, isTp⟩, log, files,
          stood, rfl⟩
    · cases called

theorem mirrors_created {tp : TopicPartition} {config : LogConfig} (limit : nameMax < 2 ^ 15)
    (mirrors : disk.Mirrors fresh clockMs) (admitted : disk.Admits (.create tp config))
    (called : DataDisk.call nameMax (.create tp config) disk = some next) :
    next.Mirrors fresh clockMs := by
  obtain ⟨small, storable⟩ := admitted
  obtain ⟨fits, usable, numbered, absent, files, log, ran, rfl⟩ := created_call called
  have nameable : Nameable tp := ⟨usable, numbered, small⟩
  have hostedNames : (disk.manager.logs ++ [(tp, log)]).map (·.1) =
    disk.manager.logs.map (·.1) ++ [tp] := by simp
  -- nothing stands at the name, since it is neither reserved nor hosted
  have vacant : disk.directories tp.toBytes = none := by
    cases stands : disk.directories tp.toBytes with
    | none => rfl
    | some found =>
        rcases mirrors.others _ _ stands with isMeta | deleted | ⟨other, inside, same⟩
        · exact absurd isMeta (dir_name_not_meta tp.topic tp.partition)
        · rw [nameable.not_deleted] at deleted
          cases deleted
        · have isOther := (mirrors.named other inside).distinct nameable same
          exact absurd (isOther ▸ inside) absent
  rw [vacant] at ran
  have short : tp.topic.length < 2 ^ 15 := by
    simp only [TopicPartition.toBytes, List.length_append, List.length_singleton] at fits
    omega
  obtain ⟨written, rfl, opens⟩ := created_opens nameable short storable ran fresh clockMs
  constructor
  · rw [hostedNames, List.nodup_append]
    refine ⟨mirrors.once, List.nodup_singleton _, ?_⟩
    intro other inside new isNew same
    rw [List.mem_singleton.mp isNew] at same
    exact absent (same ▸ inside)
  · intro other inside
    rw [hostedNames, List.mem_append, List.mem_singleton] at inside
    rcases inside with before | rfl
    · exact mirrors.named other before
    · exact nameable
  · intro other inside
    rw [hostedNames, List.mem_append, List.mem_singleton] at inside
    by_cases isNew : other = tp
    · subst isNew
      exact ⟨written, Function.update_self .., opens⟩
    · have before := inside.resolve_right isNew
      obtain ⟨found, stands, isOpen⟩ := mirrors.kept other before
      have elsewhere : other.toBytes ≠ tp.toBytes :=
        fun same => isNew ((mirrors.named other before).distinct nameable same)
      exact ⟨found, (Function.update_of_ne elsewhere _ _).trans stands, isOpen⟩
  · intro name found stands
    simp only at stands
    by_cases isNew : name = tp.toBytes
    · exact .inr (.inr ⟨tp, by
        rw [hostedNames]; exact List.mem_append_right _ (List.mem_singleton_self tp), isNew.symm⟩)
    · rw [Function.update_of_ne isNew] at stands
      rcases mirrors.others _ _ stands with isMeta | deleted | ⟨other, inside, same⟩
      · exact .inl isMeta
      · exact .inr (.inl deleted)
      · exact .inr (.inr ⟨other, by rw [hostedNames]; exact List.mem_append_left _ inside, same⟩)
  · exact mirrors.retired

theorem mirrors_removed {tp : TopicPartition} {nowMs : Int} (mirrors : disk.Mirrors fresh clockMs)
    (called : DataDisk.call nameMax (.remove tp nowMs) disk = some next) :
    next.Mirrors fresh clockMs := by
  obtain ⟨hosted, log, files, stood, rfl⟩ := removed_call called
  have hostedNames : ∀ other, other ∈ (disk.manager.logs.filter (·.1 ≠ tp)).map (·.1) ↔
      other ∈ disk.manager.logs.map (·.1) ∧ other ≠ tp := by
    intro other
    simp only [List.mem_map, List.mem_filter, decide_eq_true_eq]
    constructor
    · rintro ⟨hosted, ⟨inside, different⟩, rfl⟩
      exact ⟨⟨hosted, inside, rfl⟩, different⟩
    · rintro ⟨⟨hosted, inside, rfl⟩, different⟩
      exact ⟨hosted, ⟨inside, different⟩, rfl⟩
  have deletion : kDeletedSuffix.isSuffixOf (removedName tp nowMs) = true := deleted_suffix _
  constructor
  · exact mirrors.once.sublist (List.filter_sublist.map _)
  · intro other inside
    exact mirrors.named other ((hostedNames other).mp inside).1
  · intro other inside
    obtain ⟨before, different⟩ := (hostedNames other).mp inside
    obtain ⟨found, stands, isOpen⟩ := mirrors.kept other before
    have nameable := mirrors.named other before
    have notGone : other.toBytes ≠ removedName tp nowMs := by
      intro same
      have live := nameable.not_deleted
      rw [same, deletion] at live
      cases live
    have notSame : other.toBytes ≠ tp.toBytes :=
      fun same => different (nameable.distinct (mirrors.named tp hosted) same)
    refine ⟨found, ?_, isOpen⟩
    exact (Function.update_of_ne notGone _ _).trans ((Function.update_of_ne notSame _ _).trans stands)
  · intro name found stands
    simp only at stands
    by_cases isGone : name = removedName tp nowMs
    · exact .inr (.inl (isGone ▸ deletion))
    · rw [Function.update_of_ne isGone] at stands
      by_cases isTp : name = tp.toBytes
      · rw [isTp, Function.update_self] at stands
        cases stands
      · rw [Function.update_of_ne isTp] at stands
        rcases mirrors.others _ _ stands with isMeta | deleted | ⟨other, inside, same⟩
        · exact .inl isMeta
        · exact .inr (.inl deleted)
        · refine .inr (.inr ⟨other, (hostedNames other).mpr ⟨inside, ?_⟩, same⟩)
          intro isOther
          exact isTp (isOther ▸ same).symm
  · intro gone inside
    rcases List.mem_append.mp inside with before | new
    · exact mirrors.retired gone before
    · rw [List.mem_singleton.mp new]
      exact deletion

theorem mirrors_swept {nowMs : Int} (mirrors : disk.Mirrors fresh clockMs)
    (called : DataDisk.call nameMax (.sweep nowMs) disk = some next) : next.Mirrors fresh clockMs := by
  cases called
  constructor
  · exact mirrors.once
  · exact mirrors.named
  · intro tp inside
    obtain ⟨files, stands, isOpen⟩ := mirrors.kept tp inside
    refine ⟨files, (if_neg ?_).trans stands, isOpen⟩
    intro swept
    obtain ⟨gone, due, isName⟩ := List.any_eq_true.mp swept
    have deleted := mirrors.retired gone (List.mem_of_mem_filter due)
    rw [of_decide_eq_true isName, (mirrors.named tp inside).not_deleted] at deleted
    cases deleted
  · intro name files stands
    simp only at stands
    split at stands
    · cases stands
    · exact mirrors.others name files stands
  · intro gone inside
    exact mirrors.retired gone (List.mem_of_mem_filter inside)

end Calls

section Restart

variable {nameMax : Nat} {fresh : LogManager} {clockMs : Int} {start disk final : DataDisk}
  {entries : List DirEntry}

theorem mirrors_run (limit : nameMax < 2 ^ 15) (mirrors : start.Mirrors fresh clockMs)
    (reached : GuardedRun.Reaches (DataDisk.call nameMax) DataDisk.Admits start final) :
    final.Mirrors fresh clockMs := by
  apply reached.invariant _ _ (fun disk => disk.Mirrors fresh clockMs) mirrors
  intro disk called next before admitted succeeded
  cases called with
  | create tp config => exact mirrors_created limit before admitted succeeded
  | remove tp nowMs => exact mirrors_removed before succeeded
  | sweep nowMs => exact mirrors_swept before succeeded

theorem entry_opens (mirrors : disk.Mirrors fresh clockMs) (lists : disk.Lists entries)
    {entry : DirEntry}
    (inside : entry ∈ entries) : ∃ opened, fresh.openEntry clockMs entry = .ok opened := by
  have stands := (lists.every entry).mp inside
  by_cases skipped : entry.name = kMetaDirName ∨ kDeletedSuffix.isSuffixOf entry.name = true
  · exact ⟨none, by rw [LogManager.openEntry, if_pos skipped]⟩
  · obtain ⟨isNotMeta, isNotDeleted⟩ := not_or.mp skipped
    obtain ⟨tp, hosted, isName⟩ :=
      ((mirrors.others _ _ stands).resolve_left isNotMeta).resolve_left isNotDeleted
    obtain ⟨files, found, log, opens⟩ := mirrors.kept tp hosted
    rw [isName, stands] at found
    cases found
    rw [isName] at opens
    have parsed := (mirrors.named tp hosted).parses
    rw [isName] at parsed
    refine ⟨some (tp, log), ?_⟩
    simp only [LogManager.openEntry, if_neg skipped, parsed, opens, except_ok_bind]
    rfl

theorem read_name_hosted (mirrors : disk.Mirrors fresh clockMs) (lists : disk.Lists entries)
    (tp : TopicPartition) :
    (∃ entry ∈ entries, topicPartitionFromDirName entry.name = .ok tp) ↔ tp ∈ disk.manager.logs.map
    (·.1) := by
  constructor
  · rintro ⟨entry, inside, parsed⟩
    have canonical := parsed_canonical parsed
    obtain ⟨numbered, _⟩ := parsed_numbered parsed
    rcases mirrors.others _ _ ((lists.every entry).mp inside) with isMeta | deleted | ⟨other,
      hosted, isName⟩
    · exact absurd (canonical.trans isMeta) (dir_name_not_meta tp.topic tp.partition)
    · have live := dir_name_not_deleted tp.topic tp.partition.toNat
      rw [Int.toNat_of_nonneg numbered] at live
      rw [← canonical, live] at deleted
      cases deleted
    · have read := (mirrors.named other hosted).parses
      rw [isName, parsed] at read
      rwa [Except.ok.inj read]
  · intro hosted
    obtain ⟨files, stands, _⟩ := mirrors.kept tp hosted
    exact ⟨⟨tp.toBytes, files⟩, (lists.every _).mpr stands, (mirrors.named tp hosted).parses⟩

theorem scan_mirrored (restarted : fresh.logs = []) (mirrors : disk.Mirrors fresh clockMs)
    (lists : disk.Lists entries) :
    ∃ loaded, fresh.loadAll entries clockMs = .ok loaded ∧
      (loaded.logs.map (·.1)).Perm (disk.manager.logs.map (·.1)) := by
  have opens : ∀ entry ∈ entries, ∃ opened, fresh.openEntry clockMs entry = .ok opened :=
    fun entry inside => entry_opens mirrors lists inside
  refine ⟨_, (load_all_ok_iff restarted).mpr ⟨opens, rfl⟩, ?_⟩
  have read : (entries.filterMap (fresh.opened clockMs)).map (·.1) =
      (entries.map (·.name)).filterMap fun name => (topicPartitionFromDirName name).toOption := by
    rw [List.map_filterMap, List.filterMap_map]
    apply List.filterMap_congr
    intro entry inside
    obtain ⟨opened, isOpened⟩ := opens entry inside
    exact opened_is_named isOpened
  have parsed : ∀ name tp, tp ∈ (topicPartitionFromDirName name).toOption ↔
      topicPartitionFromDirName name = .ok tp := by
    intro name tp
    cases topicPartitionFromDirName name with
    | error failure => simp [Except.toOption]
    | ok found => simp [Except.toOption]
  simp only
  rw [read, List.perm_ext_iff_of_nodup _ mirrors.once]
  · intro tp
    rw [← read_name_hosted mirrors lists tp]
    simp only [List.mem_filterMap, List.mem_map]
    constructor
    · rintro ⟨_, ⟨entry, inside, rfl⟩, isTp⟩
      exact ⟨entry, inside, (parsed _ _).mp isTp⟩
    · rintro ⟨entry, inside, isTp⟩
      exact ⟨entry.name, ⟨entry, inside, rfl⟩, (parsed _ _).mpr isTp⟩
  · apply lists.once.filterMap
    intro name other tp isName isOther
    rw [← parsed_canonical ((parsed _ _).mp isName), parsed_canonical ((parsed _ _).mp isOther)]

/-- The name of a partition's directory says which partition it is and nothing else does; so after
any creations and removals that succeed, a restart hosts the partitions that were hosted,
each once, and none that had been removed. -/
theorem restart_hosts_the_same {dataDir : String} {defaults : LogConfig} (limit : nameMax < 2 ^ 15)
    (mirrors : start.Mirrors { dataDir, defaults } clockMs)
    (reached : GuardedRun.Reaches (DataDisk.call nameMax) DataDisk.Admits start final)
    (lists : final.Lists entries) :
    (∀ tp, Nameable tp → topicPartitionFromDirName tp.toBytes = .ok tp ∧ tp.toBytes ≠ kMetaDirName ∧
        kDeletedSuffix.isSuffixOf tp.toBytes = false) ∧
      (∀ tp other, Nameable tp → Nameable other → tp ≠ other → tp.toBytes ≠ other.toBytes) ∧
      (∀ name tp, topicPartitionFromDirName name = .ok tp →
        tp.toBytes = name ∧ 0 ≤ tp.partition ∧ tp.partition < 2 ^ 31) ∧
      ∃ loaded, ({ dataDir, defaults } : LogManager).loadAll entries clockMs = .ok loaded ∧
        (loaded.logs.map (·.1)).Perm (final.manager.logs.map (·.1)) ∧
          (loaded.logs.map (·.1)).Nodup := by
  have after := mirrors_run limit mirrors reached
  obtain ⟨loaded, loads, same⟩ := scan_mirrored rfl after lists
  refine ⟨?_, ?_, ?_, loaded, loads, same, same.nodup_iff.mpr after.once⟩
  · intro tp nameable
    exact ⟨nameable.parses, dir_name_not_meta tp.topic tp.partition, nameable.not_deleted⟩
  · intro tp other nameable alike different same
    exact different (nameable.distinct alike same)
  · intro name tp parsed
    exact ⟨parsed_canonical parsed, parsed_numbered parsed⟩

theorem listed_names (names : List Bytes) (covered : ∀ name files, disk.directories name =
    some files → name ∈ names) :
    ∃ entries, disk.Lists entries := by
  refine ⟨names.dedup.filterMap fun name => (disk.directories name).map (DirEntry.mk name), ?_, ?_⟩
  · have kept : (names.dedup.filterMap fun name =>
      (disk.directories name).map (DirEntry.mk name)).map (·.name) =
        names.dedup.filter fun name => (disk.directories name).isSome := by
      induction names.dedup with
      | nil => rfl
      | cons name names ih =>
          cases stands : disk.directories name <;> simp [stands, ih]
    rw [kept]
    exact (List.nodup_dedup names).filter _
  · intro entry
    obtain ⟨name, contents⟩ := entry
    simp only [List.mem_filterMap, List.mem_dedup, Option.map_eq_some_iff, DirEntry.mk.injEq]
    constructor
    · rintro ⟨_, _, _, stands, rfl, rfl⟩
      exact stands
    · intro stands
      exact ⟨name, covered name contents stands, contents, stands, rfl, rfl⟩

theorem restart_hosts_the_same_dashed :
    ∃ (final : DataDisk) (entries : List DirEntry) (loaded : LogManager),
      GuardedRun.Reaches (DataDisk.call 255) DataDisk.Admits ⟨{ dataDir := "data", defaults := {} },
        fun _ => none⟩ final ∧
        final.Lists entries ∧
        ({ dataDir := "data", defaults := {} } : LogManager).loadAll entries 9 = .ok loaded ∧
        loaded.logs.map (·.1) = [⟨[97, 45, 49], 0⟩] := by
  have storable : ({} : LogConfig).Storable := by constructor <;> decide
  have mirrors : DataDisk.Mirrors { dataDir := "data", defaults := {} } 9
      ⟨{ dataDir := "data", defaults := {} }, fun _ => none⟩ := by
    constructor <;> simp
  have succeeds : (((DataDisk.call 255 (.create ⟨[97, 45, 49], 0⟩ {})
      ⟨{ dataDir := "data", defaults := {} }, fun _ => none⟩).bind
        (DataDisk.call 255 (.create ⟨[97], 10⟩ {}))).bind
          (DataDisk.call 255 (.remove ⟨[97], 10⟩ 7))).isSome = true := by decide
  obtain ⟨final, ran⟩ := Option.isSome_iff_exists.mp succeeds
  obtain ⟨both, ran, removed⟩ := Option.bind_eq_some_iff.mp ran
  obtain ⟨first, created, second⟩ := Option.bind_eq_some_iff.mp ran
  have reached : GuardedRun.Reaches (DataDisk.call 255) DataDisk.Admits _ final :=
    .step (.step (.step .start (.create ⟨[97, 45, 49], 0⟩ {}) ⟨by decide, storable⟩ created)
      (.create ⟨[97], 10⟩ {}) ⟨by decide, storable⟩ second) (.remove ⟨[97], 10⟩ 7) trivial removed
  obtain ⟨_, _, _, _, dashedFiles, dashedLog, _, rfl⟩ := created_call created
  obtain ⟨_, _, _, _, plainFiles, plainLog, _, rfl⟩ := created_call second
  obtain ⟨_, goneLog, goneFiles, _, isFinal⟩ := removed_call removed
  obtain ⟨entries, lists⟩ := @listed_names final
    [removedName ⟨[97], 10⟩ 7, TopicPartition.toBytes ⟨[97], 10⟩, TopicPartition.toBytes ⟨[97, 45,
      49], 0⟩] (by
      intro name files stands
      by_contra outside
      simp only [List.mem_cons, List.not_mem_nil, or_false, not_or] at outside
      obtain ⟨notGone, notPlain, notDashed⟩ := outside
      rw [isFinal] at stands
      simp only at stands
      rw [Function.update_of_ne notGone, Function.update_of_ne notPlain, Function.update_of_ne notPlain,
        Function.update_of_ne notDashed] at stands
      cases stands)
  obtain ⟨_, _, _, loaded, loads, same, _⟩ := restart_hosts_the_same (by decide) mirrors reached lists
  rw [isFinal] at same
  exact ⟨final, entries, loaded, reached, lists, loads, List.perm_singleton.mp same⟩

end Restart

end DariyaKyu.Storage

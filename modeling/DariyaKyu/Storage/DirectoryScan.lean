import DariyaKyu.Common.Digits
import DariyaKyu.Storage.PartitionCreation

/-!
The scan of the data directory at startup. A name that a partition was given is
read back as that partition, so what is hosted after a scan is what has a
directory, in whatever order the directories were met. A partition that has only
been created opens with the configuration in its `partition.meta`, or with the
broker's own if there is none yet.
-/

namespace DariyaKyu.Storage

set_option autoImplicit false

section Names

variable {topic : Bytes} {number : Nat}

theorem behind_last_dash (topic : Bytes) (number : Nat) :
    behindLastDash (topic ++ [45] ++ toStringBytes (number : Int)) = toStringBytes (number : Int) := by
  rw [behindLastDash, take_while_number, List.reverse_reverse]

theorem digits_value (number : Nat) : digitsValue (toStringBytes (number : Int)) = number := by
  have folded : ∀ (digits : List Char) (value : Nat), (∀ digit ∈ digits, 48 ≤ digit.toNat ∧ digit.toNat ≤ 57) →
      (digits.map fun digit => UInt8.ofNat digit.toNat).foldl
          (fun value byte => value * 10 + (byte.toNat - 48)) value = Nat.ofDigitChars 10 digits value := by
    intro digits
    induction digits with
    | nil => exact fun _ _ => rfl
    | cons digit digits ih =>
        intro value ranges
        obtain ⟨range, later⟩ := List.forall_mem_cons.mp ranges
        have small : digit.toNat % 2 ^ 8 = digit.toNat := by omega
        rw [List.map_cons, List.foldl_cons, ih _ later, Nat.ofDigitChars_cons]
        simp only [UInt8.toNat_ofNat', small]
        rw [Nat.mul_comm value 10]
        rfl
  rw [digitsValue, to_string_digits, folded _ _ fun digit member => digit_range member]
  simp

theorem digits_are_digits (number : Nat) : (toStringBytes (number : Int)).any (!isDigit ·) = false := by
  rw [to_string_digits, List.any_eq_false]
  intro byte member
  obtain ⟨digit, inside, rfl⟩ := List.mem_map.mp member
  have range := digit_range inside
  have small : digit.toNat % 2 ^ 8 = digit.toNat := by omega
  simp only [isDigit, UInt8.le_iff_toNat_le, UInt8.toNat_ofNat', small]
  simpa using range

theorem digits_occupied (number : Nat) : toStringBytes (number : Int) ≠ [] := by
  rw [to_string_digits]
  simp [Nat.toDigits_ne_nil]

theorem dir_name_parses (named : topic ≠ []) (small : number < 2 ^ 31) :
    topicPartitionFromDirName (TopicPartition.toBytes ⟨topic, number⟩) = .ok ⟨topic, number⟩ := by
  have digits := behind_last_dash topic number
  have occupied := digits_occupied number
  have length : (TopicPartition.toBytes ⟨topic, number⟩).length =
      topic.length + 1 + (toStringBytes (number : Int)).length := by
    simp [TopicPartition.toBytes]
    omega
  have before : (TopicPartition.toBytes ⟨topic, number⟩).take
      ((TopicPartition.toBytes ⟨topic, number⟩).length - (toStringBytes (number : Int)).length - 1) = topic := by
    rw [length]
    simp [TopicPartition.toBytes]
  have someTopic := List.length_pos_iff.mpr named
  simp only [TopicPartition.toBytes] at length before ⊢
  have notAll : ¬ (toStringBytes (number : Int)).length = (topic ++ [45] ++ toStringBytes (number : Int)).length := by
    omega
  have notFirst : ¬ (topic ++ [45] ++ toStringBytes (number : Int)).length -
      (toStringBytes (number : Int)).length - 1 = 0 := by omega
  simp only [topicPartitionFromDirName, digits, before, digits_value, digits_are_digits, notAll, notFirst,
    occupied, Bool.false_eq_true, if_false, Nat.not_le.mpr small, TopicPartition.toBytes, ne_eq,
    not_true_eq_false]

theorem dir_name_of_parsed {name : Bytes} {tp : TopicPartition}
    (parsed : topicPartitionFromDirName name = .ok tp) :
    TopicPartition.toBytes ⟨tp.topic, tp.partition.toNat⟩ = name := by
  simp only [topicPartitionFromDirName] at parsed
  split at parsed
  · cases parsed
  · split at parsed
    · cases parsed
    · split at parsed
      · cases parsed
      · split at parsed
        · cases parsed
        · split at parsed
          · cases parsed
          · split at parsed
            · cases parsed
            · next same =>
              cases parsed
              exact not_not.mp same

theorem dir_name_not_meta (topic : Bytes) (partition : Int) :
    TopicPartition.toBytes ⟨topic, partition⟩ ≠ kMetaDirName := by
  intro same
  have dash : (45 : UInt8) ∈ TopicPartition.toBytes ⟨topic, partition⟩ := by simp [TopicPartition.toBytes]
  rw [same] at dash
  exact absurd dash (by decide)

theorem dir_name_not_deleted (topic : Bytes) (number : Nat) :
    kDeletedSuffix.isSuffixOf (TopicPartition.toBytes ⟨topic, number⟩) = false := by
  rw [Bool.eq_false_iff, ne_eq, List.isSuffixOf_iff_suffix]
  intro suffix
  have occupied := digits_occupied number
  have last : (TopicPartition.toBytes ⟨topic, number⟩).getLast? = (toStringBytes (number : Int)).getLast? := by
    simp only [TopicPartition.toBytes]
    rw [List.getLast?_append_of_ne_nil _ occupied]
  have isLetter : (TopicPartition.toBytes ⟨topic, number⟩).getLast? = some 101 := by
    obtain ⟨front, isName⟩ := suffix
    rw [← isName, List.getLast?_append_of_ne_nil _ (by decide)]
    decide
  have inside := List.mem_of_getLast? (last.symm.trans isLetter)
  have digits := List.any_eq_false.mp (digits_are_digits number) _ inside
  exact absurd digits (by decide)

end Names

def LogManager.openEntry (manager : LogManager) (clockMs : Int) (entry : DirEntry) :
    Except Error (Option (TopicPartition × Log)) :=
  if entry.name = kMetaDirName ∨ kDeletedSuffix.isSuffixOf entry.name = true then .ok none
  else do
    let tp ← topicPartitionFromDirName entry.name
    let log ← Log.open tp (manager.dataDir ++ "/" ++ shownBytes entry.name) entry.contents
      manager.defaults clockMs
    return some (tp, log)

def LogManager.opened (manager : LogManager) (clockMs : Int) (entry : DirEntry) : Option (TopicPartition × Log) :=
  (manager.openEntry clockMs entry).toOption.join

section Scan

variable {manager loaded : LogManager} {clockMs : Int} {entries : List DirEntry}

/-- An entry that is no obstacle opens the partition of its name, if it is one. -/
theorem opened_is_named {entry : DirEntry} {opened : Option (TopicPartition × Log)}
    (opens : manager.openEntry clockMs entry = .ok opened) :
    (manager.opened clockMs entry).map (·.1) = (topicPartitionFromDirName entry.name).toOption := by
  rw [LogManager.opened, opens]
  simp only [LogManager.openEntry] at opens
  split at opens
  · next skipped =>
    cases opens
    cases parsed : topicPartitionFromDirName entry.name with
    | error failure => rfl
    | ok tp =>
        rw [← dir_name_of_parsed parsed] at skipped
        rcases skipped with isMeta | isDeleted
        · exact absurd isMeta (dir_name_not_meta _ _)
        · rw [dir_name_not_deleted] at isDeleted
          cases isDeleted
  · obtain ⟨tp, parsed, opens⟩ := except_bind_ok opens
    obtain ⟨log, _, opens⟩ := except_bind_ok opens
    cases opens
    rw [parsed]
    rfl

theorem load_entries_cons (entry : DirEntry) (entries : List DirEntry) :
    manager.loadEntries clockMs (entry :: entries) = (do
      let opened ← manager.openEntry clockMs entry
      { manager with logs := manager.logs ++ opened.toList }.loadEntries clockMs entries) := by
  have same : { manager with logs := manager.logs ++ [] } = manager := by simp
  simp only [LogManager.loadEntries, LogManager.openEntry]
  by_cases isMeta : entry.name = kMetaDirName
  · simp [isMeta]
  · by_cases isDeleted : kDeletedSuffix.isSuffixOf entry.name = true
    · simp [isMeta, isDeleted]
    · simp only [isMeta, isDeleted, if_false, or_self, Bool.false_eq_true]
      cases topicPartitionFromDirName entry.name with
      | error failure => rfl
      | ok tp =>
          simp only [except_ok_bind]
          cases Log.open tp (manager.dataDir ++ "/" ++ shownBytes entry.name) entry.contents
              manager.defaults clockMs with
          | error failure => rfl
          | ok log => rfl

theorem load_entries_ok_iff :
    manager.loadEntries clockMs entries = .ok loaded ↔
      (∀ entry ∈ entries, ∃ opened, manager.openEntry clockMs entry = .ok opened) ∧
        loaded = { manager with logs := manager.logs ++ entries.filterMap (manager.opened clockMs) } := by
  induction entries generalizing manager with
  | nil => simp [LogManager.loadEntries, eq_comm]
  | cons entry entries ih =>
      rw [load_entries_cons, List.forall_mem_cons]
      cases opens : manager.openEntry clockMs entry with
      | error failure => simp
      | ok opened =>
          have isOpened : manager.opened clockMs entry = opened := by
            rw [LogManager.opened, opens]
            cases opened <;> rfl
          have listed : entries.filterMap ({ manager with logs := manager.logs ++ opened.toList }.opened clockMs) =
              entries.filterMap (manager.opened clockMs) := rfl
          have together : manager.logs ++ opened.toList ++ entries.filterMap (manager.opened clockMs) =
              manager.logs ++ (entry :: entries).filterMap (manager.opened clockMs) := by
            rw [List.filterMap_cons, isOpened]
            cases opened <;> simp
          rw [except_ok_bind, ih, listed, together]
          constructor
          · rintro ⟨later, isLoaded⟩
            exact ⟨⟨⟨_, rfl⟩, later⟩, isLoaded⟩
          · rintro ⟨⟨_, later⟩, isLoaded⟩
            exact ⟨later, isLoaded⟩

theorem load_all_ok_iff (empty : manager.logs = []) :
    manager.loadAll entries clockMs = .ok loaded ↔
      (∀ entry ∈ entries, ∃ opened, manager.openEntry clockMs entry = .ok opened) ∧
        loaded = { manager with logs := entries.filterMap (manager.opened clockMs) } := by
  rw [LogManager.loadAll, if_neg (not_not.mpr empty), load_entries_ok_iff, empty, List.nil_append]

end Scan

/-- A partition that has been created and not written to, or only partly created. -/
def PartitionDir.Unwritten (files : PartitionDir) : Prop :=
  files.segments = [] ∨ ∃ index, files.segments = [⟨0, [], index⟩]

/-- What a crash leaves of a partition that was not there before: nothing as long as
it has no directory, then an unwritten partition, whose `partition.meta` is there
once it has been renamed. -/
theorem crashed_after_cases (new : NewPartition) (made : Nat) :
    (.makeDirectory ∉ createSteps.take made ∧ new.crashedAfter made none = none) ∨
      (.makeDirectory ∈ createSteps.take made ∧ ∃ files, new.crashedAfter made none = some files ∧
        files.Unwritten ∧ files.partitionMeta =
          if .renameMeta ∈ createSteps.take made then some (encodePartitionMeta ⟨new.tp, new.config⟩) else none) := by
  rcases made with _ | _ | _ | _ | _ | _ | _ | more
  · exact .inl ⟨by decide, rfl⟩
  · exact .inr ⟨by decide, _, rfl, .inl rfl, rfl⟩
  iterate 5 exact .inr ⟨by decide, _, rfl, .inr ⟨_, rfl⟩, rfl⟩
  have whole : createSteps.take (more + 7) = createSteps := by
    apply List.take_of_length_le
    simp [createSteps]
  simp only [NewPartition.crashedAfter, whole]
  exact .inr ⟨by decide, _, rfl, .inr ⟨_, rfl⟩, rfl⟩

theorem recover_unwritten {fd : Int} {dir : String} {policy : RollPolicy} {clockMs : Int} :
    (∃ active, ActiveSegment.recover fd dir 0 [] policy none clockMs = .ok active) ↔
      kEntrySize ≤ policy.maxIndexBytes := by
  rw [← @offset_index_ok_iff (segmentIndexPath dir 0) 0]
  unfold ActiveSegment.recover
  cases OffsetIndex.create (segmentIndexPath dir 0) 0 policy.maxIndexBytes with
  | error failure => simp
  | ok index => exact iff_of_true ⟨_, rfl⟩ ⟨_, rfl⟩

theorem create_unwritten {fd : Int} {dir : String} {policy : RollPolicy} :
    (∃ active, ActiveSegment.create fd dir 0 policy false = .ok active) ↔
      kEntrySize ≤ policy.maxIndexBytes := by
  rw [← @offset_index_ok_iff (segmentIndexPath dir 0) 0]
  unfold ActiveSegment.create
  cases OffsetIndex.create (segmentIndexPath dir 0) 0 policy.maxIndexBytes with
  | error failure => simp
  | ok index => exact iff_of_true ⟨_, rfl⟩ ⟨_, rfl⟩

theorem opens_with {tp : TopicPartition} {dir : String} {written : Bytes} {found config : LogConfig} {nextFd : Nat}
    (start : Except Error ActiveSegment) :
    (∃ log, (do
        let active ← start
        return Log.ofSegments tp dir written found [] active nextFd : Except Error Log) = .ok log ∧
          log.config = config) ↔
      (∃ active, start = .ok active) ∧ found = config := by
  cases start with
  | error failure => simp
  | ok active =>
      constructor
      · rintro ⟨log, isLog, isConfig⟩
        cases isLog
        exact ⟨⟨active, rfl⟩, isConfig⟩
      · rintro ⟨_, isConfig⟩
        exact ⟨_, rfl, isConfig⟩

/-- An unwritten partition opens with the configuration that is resolved for it, if
its index has room for an entry. -/
theorem open_unwritten {tp : TopicPartition} {dir : String} {files : PartitionDir} {fallback config : LogConfig}
    {clockMs : Int} (unwritten : files.Unwritten) :
    (∃ log, Log.open tp dir files fallback clockMs = .ok log ∧ log.config = config) ↔
      kEntrySize ≤ config.roll.maxIndexBytes ∧
        ∃ written, resolveConfig dir tp files.partitionMeta fallback false = .ok (config, written) := by
  have opens : (∃ log, Log.open tp dir files fallback clockMs = .ok log ∧ log.config = config) ↔
      ∃ found written, resolveConfig dir tp files.partitionMeta fallback false = .ok (found, written) ∧
        kEntrySize ≤ found.roll.maxIndexBytes ∧ found = config := by
    rcases unwritten with none_yet | ⟨index, only⟩
    · simp only [Log.open, none_yet, List.getLast?_nil]
      cases resolveConfig dir tp files.partitionMeta fallback false with
      | error failure => simp
      | ok resolved =>
          obtain ⟨found, written⟩ := resolved
          simp only [except_ok_bind, opens_with, create_unwritten]
          refine ⟨fun here => ⟨found, written, rfl, here⟩, ?_⟩
          rintro ⟨_, _, same, here⟩
          cases same
          exact here
    · simp only [Log.open, only, List.getLast?_singleton, List.dropLast_singleton, openSealedSegments,
        except_ok_bind, List.isEmpty_nil, List.length_nil, Nat.lt_irrefl, decide_false, Bool.not_true,
        Bool.or_false]
      cases resolveConfig dir tp files.partitionMeta fallback false with
      | error failure => simp
      | ok resolved =>
          obtain ⟨found, written⟩ := resolved
          simp only [except_ok_bind, checkContiguity, opens_with, recover_unwritten]
          refine ⟨fun here => ⟨found, written, rfl, here⟩, ?_⟩
          rintro ⟨_, _, same, here⟩
          cases same
          exact here
  rw [opens]
  constructor
  · rintro ⟨found, written, isFound, roomy, rfl⟩
    exact ⟨roomy, written, isFound⟩
  · rintro ⟨roomy, written, isFound⟩
    exact ⟨config, written, isFound, roomy, rfl⟩

end DariyaKyu.Storage

import DariyaKyu.Storage.CleanedView
import DariyaKyu.Storage.HostedNames

/-!
The cleaner over the lives of a partition. Its marks are kept by name: removing a
partition does not take its mark away, and creating one under the same name finds
it. A restart scans the data directory and begins without marks. As long as no
partition meets the mark of another one, no pass brings a deleted value back.
-/

namespace DariyaKyu.Storage

set_option autoImplicit false

section Identity

variable {log next : Log}

theorem step_stays {action : LogAction} (cleanable : Cleanable log) (settled : LogSettled log)
    (admits : log.Admits action) (taken : Log.step action log = some next) :
    next.tp = log.tp ∧ next.dir = log.dir := by
  cases action with
  | append batchBytes rollMs clockMs fault =>
      obtain ⟨formed, rfl, _⟩ := admits
      obtain ⟨undangling, quiet⟩ := settled_clear settled rollMs
      obtain ⟨rolled, moved, ends⟩ :=
        append_spec settled.toLogHolds formed.toIntactBatch clockMs none undangling quiet
      obtain ⟨_, again, _, named, _⟩ := maybe_roll_spec settled.toLogHolds undangling quiet
      rw [moved] at again
      cases again
      rcases ends with ⟨active, appended, _⟩ | ⟨failure, active, failed, _⟩
      · simp only [Log.step, appended, Outcome.log, Option.some.injEq] at taken
        subst taken
        exact ⟨named.tp, named.dir⟩
      · simp only [Log.step, failed, Outcome.log, Option.some.injEq] at taken
        subst taken
        exact ⟨named.tp, named.dir⟩
  | maybeRoll nowMs =>
      obtain ⟨undangling, quiet⟩ := settled_clear settled nowMs
      obtain ⟨rolled, moved, _, named, _⟩ := maybe_roll_spec settled.toLogHolds undangling quiet
      simp only [Log.step, moved, Outcome.log, Option.some.injEq] at taken
      subst taken
      exact ⟨named.tp, named.dir⟩
  | applyRetention nowMs =>
      obtain ⟨count, graveyard, buried⟩ := retention_buries log nowMs
      cases taken
      rw [buried]
      exact ⟨rfl, rfl⟩
  | sweepGraveyard nowMs =>
      cases taken
      exact ⟨rfl, rfl⟩
  | clean maxKeyMapEntries firstDirtyOffset nowMs =>
      obtain ⟨rules, front, back, passed⟩ :=
        clean_log_passes cleanable maxKeyMapEntries firstDirtyOffset nowMs
      cases taken
      obtain ⟨_, cleaned, graveyard, nextFd, _, isSwap⟩ := passed
      rw [isSwap]
      exact ⟨rfl, rfl⟩
  | reopen fallback clockMs =>
      obtain ⟨reopened, opened, _, _, _, tp, dir, _⟩ :=
        open_spec settled.toLogHolds settled.endsClean fallback clockMs
      simp only [Log.step, opened] at taken
      cases checked : checkContiguity log.dir log.config.reloaded log.active.baseOffset
          reopened.sealedMap with
      | error failure => simp [checked] at taken
      | ok done =>
          simp only [checked, except_ok_bind, Option.some.injEq] at taken
          exact taken ▸ ⟨tp, dir⟩

end Identity

/-- What a process does to its partitions, and what comes between two processes. -/
inductive ServiceAction (ρ : Type) where
  | during (action : CompactionAction)
  | createPartition (tp : TopicPartition) (config : LogConfig)
  | removePartition (tp : TopicPartition) (nowMs : Int)
  | restart (config : CleanerConfig ρ) (defaults : LogConfig) (clockMs : Int)

structure Hosts (dataDir : String) (tp : TopicPartition) (log : Log) : Prop where
  nameable : Nameable tp
  named : log.tp = tp
  placed : log.dir = dataDir ++ "/" ++ shownBytes tp.toBytes
  holds : MarkHolds log 0

section Service

variable {ρ : Type}

/-- Partitions whose names and rules the types of the source can hold. -/
def Compaction.Serves (state : Compaction ρ) : ServiceAction ρ → Prop
  | .during action => state.Admits action
  | .createPartition tp config => tp.topic.length < 2 ^ 15 ∧ tp.partition < 2 ^ 31 ∧ config.Storable ∧
      config.roll.indexIntervalBytes + 2 ^ 31 + 12 ≤ 2 ^ 32
  | .removePartition _ _ | .restart _ _ _ => True

/-- Every hosted log is in order and in its place, and what has been removed is named so. -/
structure Compaction.Sound (state : Compaction ρ) : Prop where
  hosts : ∀ hosted ∈ state.logs.logs, Hosts state.logs.dataDir hosted.1 hosted.2
  retired : ∀ gone ∈ state.logs.removed, kDeletedSuffix.isSuffixOf gone.directory = true

/-- The mark of every hosted partition stands where a pass of this log has left it. -/
def Compaction.OwnMarks (state : Compaction ρ) : Prop :=
  ∀ hosted ∈ state.logs.logs, MarkHolds hosted.2 (state.cleaner.firstDirtyOffset hosted.1)

/-- No partition is created for which the cleaner has a mark. -/
def Compaction.Unmarked (state : Compaction ρ) : ServiceAction ρ → Prop
  | .createPartition tp _ => state.cleaner.firstDirtyOffset tp = 0
  | _ => True

theorem mem_of_get {logs : LogManager} {tp : TopicPartition} {log : Log} (found : logs.get tp = some log) :
    (tp, log) ∈ logs.logs := by
  obtain ⟨hosted, isHosted, rfl⟩ := Option.map_eq_some_iff.mp found
  have named : hosted.1 = tp := by simpa using List.find?_some isHosted
  exact named ▸ List.mem_of_find?_eq_some isHosted

theorem mem_put {logs : LogManager} {tp : TopicPartition} {log : Log} {hosted : TopicPartition × Log}
    (member : hosted ∈ (logs.put tp log).logs) :
    hosted = (tp, log) ∨ (hosted ∈ logs.logs ∧ hosted.1 ≠ tp) := by
  obtain ⟨old, isOld, rfl⟩ := List.mem_map.mp member
  by_cases same : old.1 = tp
  · simp [same]
  · right
    simpa [same] using isOld

theorem partition_created {logs next : LogManager} {tp : TopicPartition} {config : LogConfig}
    (created : logs.createPartition tp config = .ok next) :
    isUsableTopicName tp.topic = true ∧ 0 ≤ tp.partition ∧
      ∃ log, Log.create tp (logs.partitionDir tp) config = .ok log ∧
        next = { logs with logs := logs.logs ++ [(tp, log)] } := by
  obtain ⟨_, usable, created⟩ := except_bind_ok created
  split at created
  · cases created
  · obtain ⟨log, made, created⟩ := except_bind_ok created
    cases created
    simp only [requireUsableName] at usable
    split at usable
    · cases usable
    · next named =>
      split at usable
      · cases usable
      · next numbered => exact ⟨by simpa using named, by omega, log, made, rfl⟩

theorem mem_scanned {fresh loaded : LogManager} {entries : List DirEntry} {clockMs : Int}
    (empty : fresh.logs = []) (loads : fresh.loadAll entries clockMs = .ok loaded)
    {hosted : TopicPartition × Log} (member : hosted ∈ loaded.logs) :
    ∃ entry ∈ entries, kDeletedSuffix.isSuffixOf entry.name = false ∧
      topicPartitionFromDirName entry.name = .ok hosted.1 ∧
      Log.open hosted.1 (fresh.dataDir ++ "/" ++ shownBytes entry.name) entry.contents fresh.defaults clockMs =
        .ok hosted.2 := by
  obtain ⟨opens, rfl⟩ := (load_all_ok_iff empty).mp loads
  obtain ⟨entry, isEntry, isHosted⟩ := List.mem_filterMap.mp member
  obtain ⟨opened, isOpened⟩ := opens entry isEntry
  rw [LogManager.opened, isOpened] at isHosted
  have same : opened = some hosted := by simpa [Except.toOption] using isHosted
  subst same
  simp only [LogManager.openEntry] at isOpened
  split at isOpened
  · cases isOpened
  · next live =>
    obtain ⟨tp, parsed, isOpened⟩ := except_bind_ok isOpened
    obtain ⟨log, opened, isOpened⟩ := except_bind_ok isOpened
    cases isOpened
    refine ⟨entry, isEntry, ?_, parsed, opened⟩
    exact Bool.eq_false_iff.mpr (not_or.mp live).2

theorem restart_reopens {state : Compaction ρ} (sound : state.Sound) {defaults : LogConfig} {clockMs : Int}
    {loaded : LogManager}
    (loads : ({ dataDir := state.logs.dataDir, defaults } : LogManager).loadAll state.logs.entries clockMs =
      .ok loaded) {hosted : TopicPartition × Log} (member : hosted ∈ loaded.logs) :
    ∃ log, (hosted.1, log) ∈ state.logs.logs ∧ Log.step (.reopen defaults clockMs) log = some hosted.2 := by
  obtain ⟨entry, isEntry, live, parsed, opened⟩ := mem_scanned rfl loads member
  rcases List.mem_append.mp isEntry with isLog | isGone
  · obtain ⟨old, isOld, rfl⟩ := List.mem_map.mp isLog
    have hosts := sound.hosts old isOld
    rw [hosts.nameable.parses] at parsed
    have same := Except.ok.inj parsed
    refine ⟨old.2, same ▸ isOld, ?_⟩
    simp only at opened
    rw [← same, ← hosts.placed] at opened
    have reopened : Log.open old.2.tp old.2.dir old.2.files defaults clockMs = .ok hosted.2 := by
      rw [hosts.named]
      exact opened
    simp only [Log.step, reopened]
  · obtain ⟨gone, isRemoved, rfl⟩ := List.mem_map.mp isGone
    rw [sound.retired gone isRemoved] at live
    cases live

def Compaction.start (dataDir : String) (defaults : LogConfig) (config : CleanerConfig ρ) : Compaction ρ :=
  ⟨{ dataDir, defaults }, { config }⟩

theorem start_sound (dataDir : String) (defaults : LogConfig) (config : CleanerConfig ρ) :
    (Compaction.start dataDir defaults config).Sound := by
  constructor <;> simp [Compaction.start]

theorem Hosts.step {dataDir : String} {tp : TopicPartition} {log next : Log} {action : LogAction}
    (hosts : Hosts dataDir tp log) (admits : log.Admits action) (taken : Log.step action log = some next) :
    Hosts dataDir tp next := by
  obtain ⟨named, placed⟩ := step_stays hosts.holds.cleanable hosts.holds.settled admits taken
  exact ⟨hosts.nameable, named.trans hosts.named, placed.trans hosts.placed,
    marks_step hosts.holds admits taken⟩

theorem created_hosts {logs : LogManager} {tp : TopicPartition} {config : LogConfig} {log : Log}
    (usable : isUsableTopicName tp.topic = true) (numbered : 0 ≤ tp.partition) (short : tp.topic.length < 2 ^ 15)
    (small : tp.partition < 2 ^ 31) (storable : config.Storable)
    (room : config.roll.indexIntervalBytes + 2 ^ 31 + 12 ≤ 2 ^ 32)
    (made : Log.create tp (logs.partitionDir tp) config = .ok log) : Hosts logs.dataDir tp log := by
  have nameable : Nameable tp := ⟨usable, numbered, small⟩
  have named : StorableName tp := ⟨List.length_pos_iff.mpr nameable.named, short, numbered, small⟩
  obtain ⟨_, _, _, isTp, isDir, _⟩ := create_spec named storable made
  exact ⟨nameable, isTp, isDir, marks_reached named storable room made .start⟩

variable [LinearOrder ρ] (ratios : Ratios ρ)

/-- Calls that succeed. Neither creation nor removal tells the cleaner; a restart
scans the data directory and begins with a cleaner without marks. -/
def Compaction.serve : ServiceAction ρ → Compaction ρ → Option (Compaction ρ)
  | .during action, state => state.step ratios action
  | .createPartition tp config, state =>
      (state.logs.createPartition tp config).toOption.map fun logs => { state with logs }
  | .removePartition tp nowMs, state =>
      (state.logs.removePartition tp nowMs).toOption.map fun logs => { state with logs }
  | .restart config defaults clockMs, state =>
      let fresh : LogManager := { dataDir := state.logs.dataDir, defaults }
      (fresh.loadAll state.logs.entries clockMs).toOption.map fun logs => ⟨logs, { config }⟩

inductive Served (state : Compaction ρ) : ServiceAction ρ → Compaction ρ → Prop where
  | on {tp : TopicPartition} {action : LogAction} {log after : Log} (hosted : state.logs.get tp = some log)
      (moved : Log.step action log = some after) :
      Served state (.during (.on tp action)) ⟨state.logs.put tp after, state.cleaner⟩
  | idle (tp : TopicPartition) (nowMs : Int) : Served state (.during (.cleanOnce tp nowMs)) state
  | cleaned {tp : TopicPartition} {nowMs : Int} {log : Log} {cleaner : LogCleaner ρ} {outcome}
      (hosted : state.logs.get tp = some log)
      (passes : state.cleaner.Passes state.logs tp
        (cleanLog log state.cleaner.config.maxKeyMapEntries (state.cleaner.firstDirtyOffset tp) nowMs)
        ⟨state.logs.put tp (cleanLog log state.cleaner.config.maxKeyMapEntries
          (state.cleaner.firstDirtyOffset tp) nowMs).log, cleaner, outcome⟩) :
      Served state (.during (.cleanOnce tp nowMs)) ⟨state.logs.put tp (cleanLog log
        state.cleaner.config.maxKeyMapEntries (state.cleaner.firstDirtyOffset tp) nowMs).log, cleaner⟩
  | created {tp : TopicPartition} {config : LogConfig} {log : Log} (usable : isUsableTopicName tp.topic = true)
      (numbered : 0 ≤ tp.partition) (made : Log.create tp (state.logs.partitionDir tp) config = .ok log) :
      Served state (.createPartition tp config)
        ⟨{ state.logs with logs := state.logs.logs ++ [(tp, log)] }, state.cleaner⟩
  | removed {tp : TopicPartition} {nowMs : Int} (log : Log) :
      Served state (.removePartition tp nowMs)
        ⟨{ state.logs with
            logs := state.logs.logs.filter (·.1 ≠ tp)
            removed := state.logs.removed ++ [⟨log, removedName tp nowMs, nowMs⟩] }, state.cleaner⟩
  | restarted {config : CleanerConfig ρ} {defaults : LogConfig} {clockMs : Int} {loaded : LogManager}
      (loads : ({ dataDir := state.logs.dataDir, defaults } : LogManager).loadAll state.logs.entries clockMs =
        .ok loaded) : Served state (.restart config defaults clockMs) ⟨loaded, { config }⟩

theorem served {state next : Compaction ρ} {action : ServiceAction ρ}
    (taken : state.serve ratios action = some next) : Served state action next := by
  cases action with
  | during action =>
      cases action with
      | on tp action =>
          obtain ⟨log, hosted, taken⟩ := Option.bind_eq_some_iff.mp taken
          obtain ⟨after, moved, made⟩ := Option.bind_eq_some_iff.mp taken
          cases made
          exact .on hosted moved
      | cleanOnce tp nowMs =>
          cases taken
          rcases state.cleaner.clean_once_cases ratios state.logs tp nowMs with
            idle | ⟨log, hosted, _, _, passes⟩
          · rw [idle]
            exact .idle tp nowMs
          · cases call : state.cleaner.cleanOnce ratios state.logs tp nowMs with
            | mk logs cleaner outcome =>
                rw [call] at passes
                obtain rfl : logs = _ := passes.logs
                exact .cleaned hosted passes
  | createPartition tp config =>
      simp only [Compaction.serve] at taken
      cases created : state.logs.createPartition tp config with
      | error failure => simp [created, Except.toOption] at taken
      | ok logs =>
          simp only [created, Except.toOption, Option.map_some, Option.some.injEq] at taken
          obtain ⟨usable, numbered, log, made, rfl⟩ := partition_created created
          exact taken ▸ .created usable numbered made
  | removePartition tp nowMs =>
      simp only [Compaction.serve, LogManager.removePartition] at taken
      cases found : state.logs.get tp with
      | none => simp [found, Except.toOption] at taken
      | some log =>
          simp only [found, Except.toOption, Option.map_some, Option.some.injEq] at taken
          exact taken ▸ .removed log
  | restart config defaults clockMs =>
      simp only [Compaction.serve] at taken
      cases loads : ({ dataDir := state.logs.dataDir, defaults } : LogManager).loadAll state.logs.entries
          clockMs with
      | error failure => simp [loads, Except.toOption] at taken
      | ok loaded =>
          simp only [loads, Except.toOption, Option.map_some, Option.some.injEq] at taken
          exact taken ▸ .restarted loads

theorem sound_step {state next : Compaction ρ} {action : ServiceAction ρ} (sound : state.Sound)
    (serves : state.Serves action) (taken : state.serve ratios action = some next) : next.Sound := by
  cases served ratios taken with
  | on hosted moved =>
      refine ⟨?_, sound.retired⟩
      intro other member
      rcases mem_put member with rfl | ⟨before, _⟩
      · exact (sound.hosts _ (mem_of_get hosted)).step (serves _ hosted) moved
      · exact sound.hosts other before
  | idle => exact sound
  | @cleaned tp nowMs log _ _ hosted _ =>
      refine ⟨?_, sound.retired⟩
      intro other member
      rcases mem_put member with rfl | ⟨before, _⟩
      · have admits : log.Admits (.clean state.cleaner.config.maxKeyMapEntries
            (state.cleaner.firstDirtyOffset tp) nowMs) := trivial
        exact (sound.hosts _ (mem_of_get hosted)).step admits rfl
      · exact sound.hosts other before
  | created usable numbered made =>
      obtain ⟨short, small, storable, room⟩ := serves
      refine ⟨?_, sound.retired⟩
      intro other member
      rcases List.mem_append.mp member with before | new
      · exact sound.hosts other before
      · rw [List.mem_singleton.mp new]
        exact created_hosts usable numbered short small storable room made
  | removed log =>
      constructor
      · exact fun other member => sound.hosts other (List.mem_filter.mp member).1
      · intro gone member
        rcases List.mem_append.mp member with before | new
        · exact sound.retired gone before
        · rw [List.mem_singleton.mp new]
          exact deleted_suffix _
  | @restarted config defaults clockMs loaded loads =>
      obtain ⟨_, isLoaded⟩ := (load_all_ok_iff rfl).mp loads
      constructor
      · intro hosted member
        obtain ⟨log, isLog, reopened⟩ := restart_reopens sound loads member
        have placed : loaded.dataDir = state.logs.dataDir := by rw [isLoaded]
        have admits : log.Admits (.reopen defaults clockMs) := trivial
        simp only [placed]
        exact (sound.hosts _ isLog).step admits reopened
      · simp [isLoaded]

theorem own_marks_step {state next : Compaction ρ} {action : ServiceAction ρ} (sound : state.Sound)
    (own : state.OwnMarks) (serves : state.Serves action) (unmarked : state.Unmarked action)
    (taken : state.serve ratios action = some next) : next.OwnMarks := by
  have nextSound := sound_step ratios sound serves taken
  cases served ratios taken with
  | on hosted moved =>
      have mine := own _ (mem_of_get hosted)
      intro other member
      rcases mem_put member with rfl | ⟨before, _⟩
      · exact marks_step mine (serves _ hosted) moved
      · exact own other before
  | idle => exact own
  | @cleaned tp nowMs log cleaner outcome hosted passes =>
      obtain ⟨still, moves⟩ := pass_keeps_mark (own _ (mem_of_get hosted))
        state.cleaner.config.maxKeyMapEntries nowMs
      intro other member
      rcases passes.ends with ⟨failure, _, _, unmoved⟩ | ⟨result, returned, _, _, marks⟩
      · simp only at unmoved
        simp only [unmoved]
        rcases mem_put member with rfl | ⟨before, _⟩
        · exact still
        · exact own other before
      · simp only at marks
        simp only [marks]
        rcases mem_put member with rfl | ⟨before, different⟩
        · rw [if_pos rfl]
          exact moves result returned
        · rw [if_neg different]
          exact own other before
  | @created tp config log usable numbered made =>
      have fresh : state.cleaner.firstDirtyOffset tp = 0 := unmarked
      intro other member
      have hosts := nextSound.hosts other member
      rcases List.mem_append.mp member with before | new
      · exact own other before
      · rw [List.mem_singleton.mp new] at hosts ⊢
        simp only [fresh]
        exact hosts.holds
  | removed log => exact fun other member => own other (List.mem_filter.mp member).1
  | restarted loads => exact fun hosted member => (nextSound.hosts hosted member).holds

end Service

section Runs

variable {ρ : Type} [LinearOrder ρ] (ratios : Ratios ρ) {dataDir : String} {defaults : LogConfig}
  {config : CleanerConfig ρ} {state : Compaction ρ}

theorem sound_reached (reached : GuardedRun.Reaches (Compaction.serve ratios) Compaction.Serves
    (.start dataDir defaults config) state) : state.Sound :=
  reached.invariant _ _ Compaction.Sound (start_sound dataDir defaults config)
    fun _ _ _ sound serves taken => sound_step ratios sound serves taken

/-- As long as no partition is created for which the cleaner has a mark, what is
below a mark has no deletion left to spend. -/
theorem spent_without_stale_marks {tp : TopicPartition} {log : Log}
    (reached : GuardedRun.Reaches (Compaction.serve ratios)
      (fun state action => state.Serves action ∧ state.Unmarked action) (.start dataDir defaults config) state)
    (hosted : state.logs.get tp = some log) (budget : Nat) (nowMs : Int) :
    log.DeletionsSpent budget (state.cleaner.firstDirtyOffset tp) nowMs := by
  have both := reached.invariant _ _ (fun state : Compaction ρ => state.Sound ∧ state.OwnMarks)
    ⟨start_sound dataDir defaults config, by simp [Compaction.start, Compaction.OwnMarks]⟩ fun _ _ _ holds allowed taken =>
      ⟨sound_step ratios holds.1 allowed.1 taken,
        own_marks_step ratios holds.1 holds.2 allowed.1 allowed.2 taken⟩
  exact own_mark_spent (both.2 _ (mem_of_get hosted)) budget nowMs

/-- A pass that comes upon no unspent deletion leaves what every partition says of
its keys as it was, at its end and after each segment it deals with. -/
theorem passes_keep_views {tp : TopicPartition} {log : Log}
    (reached : GuardedRun.Reaches (Compaction.serve ratios) Compaction.Serves
      (.start dataDir defaults config) state)
    (hosted : state.logs.get tp = some log) (distinct : DigestsDistinct log.records) (nowMs : Int)
    (spent : log.DeletionsSpent state.cleaner.config.maxKeyMapEntries
      (state.cleaner.firstDirtyOffset tp) nowMs) :
    (∀ swap ∈ (cleanLog log state.cleaner.config.maxKeyMapEntries
        (state.cleaner.firstDirtyOffset tp) nowMs).swaps, swap.view = log.view) ∧
      ∀ other before, state.logs.get other = some before →
        ∃ after, (state.cleaner.cleanOnce ratios state.logs tp nowMs).logs.get other = some after ∧
          after.view = before.view := by
  have holds := ((sound_reached ratios reached).hosts _ (mem_of_get hosted)).holds
  obtain ⟨swaps, ends⟩ := pass_keeps_view holds.cleanable holds.settled distinct spent
  refine ⟨swaps, ?_⟩
  intro other before found
  rcases state.cleaner.clean_once_cases ratios state.logs tp nowMs with
    idle | ⟨cleaned, isCleaned, _, _, logs, _⟩
  · exact ⟨before, by rw [idle]; exact found, rfl⟩
  · rw [hosted] at isCleaned
    cases isCleaned
    rw [logs, LogManager.get_put]
    by_cases same : other = tp
    · subst same
      rw [hosted] at found
      cases found
      exact ⟨_, by rw [if_pos rfl, hosted, Option.map_some], ends⟩
    · exact ⟨before, by rw [if_neg same]; exact found, rfl⟩

end Runs

instance (config : LogConfig) : Decidable config.Storable :=
  decidable_of_iff (config.roll.maxSegmentBytes < 2 ^ 64 ∧ FitsSigned 64 config.roll.maxSegmentAgeMs ∧
      config.roll.indexIntervalBytes < 2 ^ 64 ∧ config.roll.maxIndexBytes < 2 ^ 64 ∧
      FitsSigned 64 config.retention.retentionMs ∧
      (∀ limit ∈ config.retention.retentionBytes, limit < 2 ^ 64) ∧
      FitsSigned 64 config.retention.segmentDeleteDelayMs ∧
      FitsSigned 64 config.compaction.deleteRetentionMs)
    ⟨fun ⟨bytes, age, interval, index, retained, limit, delay, deleted⟩ =>
        ⟨bytes, age, interval, index, retained, limit, delay, deleted⟩,
      fun storable => ⟨storable.maxSegmentBytes, storable.maxSegmentAgeMs, storable.indexIntervalBytes,
        storable.maxIndexBytes, storable.retentionMs, storable.retentionBytes,
        storable.segmentDeleteDelayMs, storable.deleteRetentionMs⟩⟩

instance {ρ : Type} (state : Compaction ρ) (action : ServiceAction ρ) : Decidable (state.Serves action) :=
  match action with
  | .during action => inferInstanceAs (Decidable (state.Admits action))
  | .createPartition tp config => inferInstanceAs (Decidable (tp.topic.length < 2 ^ 15 ∧
      tp.partition < 2 ^ 31 ∧ config.Storable ∧ config.roll.indexIntervalBytes + 2 ^ 31 + 12 ≤ 2 ^ 32))
  | .removePartition _ _ | .restart _ _ _ => inferInstanceAs (Decidable True)

instance (records : List LogRecord) : Decidable (DigestsDistinct records) :=
  inferInstanceAs (Decidable (∀ first ∈ _, ∀ second ∈ _, _ = _ → _ = _))

instance (segment : SealedSegment) (budget : Nat) (mark : Int) : Decidable (segment.Unmapped budget mark) :=
  inferInstanceAs (Decidable (_ ∧ (_ → _)))

instance (log : Log) (budget : Nat) (mark nowMs : Int) : Decidable (log.DeletionsSpent budget mark nowMs) :=
  inferInstanceAs (Decidable (∀ segment ∈ _, _ → ∀ dead ∈ _, _ → ∀ key ∈ _, _ → _))

/-- Appends of records with these keys and values to the only partition. -/
def putAll (records : List (UInt8 × Option Bytes)) : List (ServiceAction ℚ) :=
  records.map fun record =>
    .during (.on ⟨[116], 0⟩ (.append (recordBatchOf 10 (some [record.1]) record.2) 0 0 none))

/-- A life whose pass leaves a mark, and another with a deletion below that. -/
def twoLives : List (ServiceAction ℚ) :=
  let compacted : LogConfig := { twoBatchConfig with cleanup := .compact }
  [.createPartition ⟨[116], 0⟩ compacted] ++ putAll [(97, some [1]), (98, some [1]), (97, some [1])] ++
    [.during (.cleanOnce ⟨[116], 0⟩ 10), .removePartition ⟨[116], 0⟩ 20,
      .createPartition ⟨[116], 0⟩ compacted] ++
    putAll [(97, some [1]), (97, none), (98, some [1]), (98, some [2]), (98, some [3]), (98, some [4]),
      (99, some [1])]

/-- A restart in front of the pass: it collects the deletion and the value. -/
theorem passes_keep_views_restarted :
    ∃ (state : Compaction ℚ) (log : Log), state.logs.get ⟨[116], 0⟩ = some log ∧ log.view [97] = none ∧
      log.records.length = 7 ∧ (cleanLog log 1000000 0 86400010).swaps.length = 3 ∧
      ∀ swap ∈ (cleanLog log 1000000 0 86400010).swaps, swap.view = log.view := by
  obtain ⟨state, reached, checked⟩ := GuardedRun.found_by_run (Compaction.serve exactRatios) Compaction.Serves
    (Compaction.start "data" {} ⟨1000000, 1 / 2⟩)
    (fun state => (state.logs.get ⟨[116], 0⟩).any fun log => decide (log.view [97] = none ∧
      log.records.length = 7 ∧ (cleanLog log 1000000 0 86400010).swaps.length = 3 ∧
      DigestsDistinct log.records ∧ log.DeletionsSpent state.cleaner.config.maxKeyMapEntries
        (state.cleaner.firstDirtyOffset ⟨[116], 0⟩) 86400010 ∧
      state.cleaner.config.maxKeyMapEntries = 1000000 ∧ state.cleaner.firstDirtyOffset ⟨[116], 0⟩ = 0))
    (twoLives ++ [.restart ⟨1000000, 1 / 2⟩ {} 30]) (by decide +kernel)
  obtain ⟨log, hosted, holds⟩ := Option.any_eq_true _ _ |>.mp checked
  obtain ⟨deleted, seven, three, distinct, spent, budget, mark⟩ := of_decide_eq_true holds
  have kept := (passes_keep_views exactRatios reached hosted distinct 86400010 spent).1
  rw [budget, mark] at kept
  exact ⟨state, log, hosted, deleted, seven, three, kept⟩

/-- The mark of the removed partition stands behind a deletion in the new one: the
pass takes the tombstone and leaves the value. -/
theorem stale_mark_uncovers_value :
    ¬ ∀ (state : Compaction ℚ) (tp : TopicPartition) (log : Log) (nowMs : Int),
      GuardedRun.Reaches (Compaction.serve exactRatios) Compaction.Serves
        (Compaction.start "data" {} ⟨1000000, 1 / 2⟩) state →
      state.logs.get tp = some log → DigestsDistinct log.records →
      ∀ after, (state.cleaner.cleanOnce exactRatios state.logs tp nowMs).logs.get tp = some after →
        after.view = log.view := by
  intro all
  obtain ⟨state, reached, checked⟩ := GuardedRun.found_by_run (Compaction.serve exactRatios) Compaction.Serves
    (Compaction.start "data" {} ⟨1000000, 1 / 2⟩)
    (fun state : Compaction ℚ => (state.logs.get ⟨[116], 0⟩).any fun log : Log =>
      decide (log.view [97] = none ∧ DigestsDistinct log.records) &&
        ((state.cleaner.cleanOnce exactRatios state.logs ⟨[116], 0⟩ 86400010).logs.get ⟨[116], 0⟩).any
          fun after : Log => decide (after.view [97] = some [1]))
    twoLives (by decide +kernel)
  obtain ⟨log, hosted, holds⟩ := Option.any_eq_true _ _ |>.mp checked
  obtain ⟨before, cleaned⟩ := Bool.and_eq_true_iff.mp holds
  obtain ⟨deleted, distinct⟩ := of_decide_eq_true before
  obtain ⟨after, left, revived⟩ := Option.any_eq_true _ _ |>.mp cleaned
  have same := congrFun (all state _ log 86400010 reached hosted distinct after left) [97]
  rw [of_decide_eq_true revived, deleted] at same
  cases same

end DariyaKyu.Storage

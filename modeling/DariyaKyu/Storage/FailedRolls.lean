import DariyaKyu.Storage.BatchCodec
import DariyaKyu.Storage.LogRuns

/-!
Rolls in which a file-system step fails. A roll creates the two files of the
next segment, gives the active segment away to be synced, trimmed and reopened,
and installs the next one last. The `.log` is opened with `CreateNew`, so a
file that an earlier roll has left behind stands in the way of a later one: the
directory is part of the state here.
-/

namespace DariyaKyu.Storage

set_option autoImplicit false

/-- The steps of a roll on the file system, in order. Opening the new `.log`
creates it; the constructor of the handle then asks for its end. -/
inductive RollStep where
  | openLog
  | seekLog
  | createIndex
  | sync
  | trimIndex
  | reopenSealed
  deriving DecidableEq, Repr

structure RollFault where
  step : RollStep
  failure : Error
  deriving DecidableEq, Repr

def throwsAt : Option RollFault → RollStep → Option Error
  | none, _ => none
  | some fault, step => if fault.step = step then some fault.failure else none

/-- A log and the base offsets of the `.log` files beside it in its directory
that none of its segments owns. -/
structure LogOnDisk where
  log : Log
  strayLogs : List Int

/-- How a member function ends; one that gave the active segment away and then
threw leaves a log without one. -/
inductive DiskOutcome (α : Type) where
  | returned (value : α) (disk : LogOnDisk)
  | threw (failure : Error) (disk : LogOnDisk)
  | ruined (failure : Error)

namespace LogOnDisk

def hasLog (disk : LogOnDisk) (baseOffset : Int) : Bool :=
  disk.log.holdsFile baseOffset || disk.strayLogs.contains baseOffset

def maybeRoll (disk : LogOnDisk) (nowMs : Int) (fault : Option RollFault) : DiskOutcome Unit :=
  if disk.log.active.shouldRoll nowMs = false then .returned () disk
  else
    let base := disk.log.active.nextOffset
    let refused := if disk.hasLog base then some (.ioError "open" (segmentLogPath disk.log.dir base) EEXIST)
      else none
    match (throwsAt fault .openLog).or refused with
    | some failure => .threw failure disk
    | none =>
        -- the file is there from here on, and no destructor removes it
        let left := { disk with strayLogs := base :: disk.strayLogs }
        match (throwsAt fault .seekLog).or (throwsAt fault .createIndex) with
        | some failure => .threw failure left
        | none =>
            match ActiveSegment.create disk.log.nextFd disk.log.dir base disk.log.config.roll false with
            | .error failure => .threw failure left
            | .ok next =>
                match ((throwsAt fault .sync).or (throwsAt fault .trimIndex)).or
                    (throwsAt fault .reopenSealed) with
                | some failure => .ruined failure
                | none =>
                    match disk.log.active.sealSegment (disk.log.nextFd + 1) with
                    | .error failure => .ruined failure
                    | .ok segment =>
                        .returned ()
                          { disk with
                            log :=
                              { disk.log with
                                sealedMap := emplaceSegment segment disk.log.sealedMap
                                active := next
                                nextFd := disk.log.nextFd + 2 } }

/-- `Log::append` in such a directory, with no failing step of its own. -/
def append (disk : LogOnDisk) (batchBytes : Bytes) (rollMs clockMs : Int) : DiskOutcome Int :=
  match disk.maybeRoll rollMs none with
  | .threw failure disk => .threw failure disk
  | .ruined failure => .ruined failure
  | .returned _ disk =>
      match stampBaseOffset batchBytes disk.log.logEndOffset with
      | .error failure => .threw failure disk
      | .ok batch =>
          match disk.log.active.append disk.log.logEndOffset batch clockMs none with
          | (active, .error failure) => .threw failure { disk with log := { disk.log with active := active } }
          | (active, .ok _) =>
              .returned disk.log.logEndOffset
                { disk with
                  log :=
                    { disk.log with
                      active := active
                      logEndOffset := active.nextOffset
                      highWatermark := active.nextOffset } }

end LogOnDisk

section Faultless

variable {disk : LogOnDisk} {nowMs : Int}

theorem next_unowned {log rolled : Log} (due : log.active.shouldRoll nowMs = true)
    (moved : log.maybeRoll nowMs = .returned () rolled) :
    log.holdsFile log.active.nextOffset = false := by
  by_contra owned
  rw [Bool.not_eq_false] at owned
  simp [Log.maybeRoll, due, owned, ActiveSegment.create] at moved

theorem next_untaken (free : disk.log.active.nextOffset ∉ disk.strayLogs)
    (due : disk.log.active.shouldRoll nowMs = true) {rolled : Log}
    (moved : disk.log.maybeRoll nowMs = .returned () rolled) :
    disk.hasLog disk.log.active.nextOffset = false := by
  have unowned := next_unowned due moved
  simpa [LogOnDisk.hasLog, unowned] using free

/-- Where no stray file stands in the way and the log can roll, a roll on disk
is a roll of the log. -/
theorem roll_on_disk (free : disk.log.active.nextOffset ∉ disk.strayLogs) {rolled : Log}
    (moved : disk.log.maybeRoll nowMs = .returned () rolled) :
    disk.maybeRoll nowMs none = .returned () ⟨rolled, disk.strayLogs⟩ := by
  cases due : disk.log.active.shouldRoll nowMs with
  | false =>
      simp only [Log.maybeRoll, due, if_true] at moved
      cases moved
      simp only [LogOnDisk.maybeRoll, due, if_true]
  | true =>
      have unowned := next_unowned due moved
      have untaken := next_untaken free due moved
      simp only [Log.maybeRoll, due, unowned, Bool.true_eq_false, if_false] at moved
      simp only [LogOnDisk.maybeRoll, due, untaken, throwsAt, Option.or_none, Bool.true_eq_false,
        Bool.false_eq_true, if_false]
      cases created : ActiveSegment.create disk.log.nextFd disk.log.dir disk.log.active.nextOffset
          disk.log.config.roll false with
      | error failure => simp [created] at moved
      | ok next =>
          simp only [created] at moved ⊢
          cases isSealed : disk.log.active.sealSegment (disk.log.nextFd + 1) with
          | error failure => simp [isSealed] at moved
          | ok segment =>
              simp only [isSealed] at moved ⊢
              cases moved
              rfl

/-- What a step that fails leaves: nothing new when it is the first, else the
new `.log` without a segment, or no active segment at all. -/
theorem failed_roll_cases (due : disk.log.active.shouldRoll nowMs = true)
    (untaken : disk.hasLog disk.log.active.nextOffset = false) (fault : RollFault) :
    (fault.step = .openLog ∧ disk.maybeRoll nowMs (some fault) = .threw fault.failure disk) ∨
      (fault.step ≠ .openLog ∧
        ((∃ failure, disk.maybeRoll nowMs (some fault) = .threw failure
            { disk with strayLogs := disk.log.active.nextOffset :: disk.strayLogs }) ∨
          ∃ failure, disk.maybeRoll nowMs (some fault) = .ruined failure)) := by
  obtain ⟨step, failure⟩ := fault
  have givenAway : ∀ fault : RollFault,
      throwsAt (some fault) .openLog = none → throwsAt (some fault) .seekLog = none →
      throwsAt (some fault) .createIndex = none →
      ((throwsAt (some fault) .sync).or (throwsAt (some fault) .trimIndex)).or
        (throwsAt (some fault) .reopenSealed) = some fault.failure →
      (∃ failure, disk.maybeRoll nowMs (some fault) = .threw failure
          { disk with strayLogs := disk.log.active.nextOffset :: disk.strayLogs }) ∨
        ∃ failure, disk.maybeRoll nowMs (some fault) = .ruined failure := by
    intro fault opened sought indexed failed
    simp only [LogOnDisk.maybeRoll, due, untaken, opened, sought, indexed, failed, Option.or_none,
      Bool.true_eq_false, Bool.false_eq_true, if_false]
    cases ActiveSegment.create disk.log.nextFd disk.log.dir disk.log.active.nextOffset
        disk.log.config.roll false with
    | error failure => exact .inl ⟨failure, rfl⟩
    | ok next => exact .inr ⟨fault.failure, rfl⟩
  cases step with
  | openLog => exact .inl ⟨rfl, by simp [LogOnDisk.maybeRoll, due, throwsAt]⟩
  | seekLog => exact .inr ⟨by simp, .inl ⟨failure, by simp [LogOnDisk.maybeRoll, due, untaken, throwsAt]⟩⟩
  | createIndex => exact .inr ⟨by simp, .inl ⟨failure, by simp [LogOnDisk.maybeRoll, due, untaken, throwsAt]⟩⟩
  | sync => exact .inr ⟨by simp, givenAway _ rfl rfl rfl rfl⟩
  | trimIndex => exact .inr ⟨by simp, givenAway _ rfl rfl rfl rfl⟩
  | reopenSealed => exact .inr ⟨by simp, givenAway _ rfl rfl rfl rfl⟩

theorem stray_stops_rolls (due : disk.log.active.shouldRoll nowMs = true)
    (stray : disk.log.active.nextOffset ∈ disk.strayLogs) :
    disk.maybeRoll nowMs none =
      .threw (.ioError "open" (segmentLogPath disk.log.dir disk.log.active.nextOffset) EEXIST) disk := by
  have taken : disk.hasLog disk.log.active.nextOffset = true := by
    simp [LogOnDisk.hasLog, stray]
  simp [LogOnDisk.maybeRoll, due, taken, throwsAt]

/-- The first batch of a segment needs no index entry, so nothing refuses it. -/
theorem fresh_append {dir : String} {active : ActiveSegment} (fresh : ActiveSettled dir active [])
    {batch : Bytes} (intact : IntactBatch batch) (starts : baseOf batch = active.nextOffset)
    (clockMs : Int) : ∃ after, active.append active.nextOffset batch clockMs none = (after, .ok ()) := by
  have empty : active.log.size = 0 := fresh.tight
  have stamped : ¬ (headerOf batch).baseOffset ≠ active.nextOffset := not_not.mpr starts
  have unindexed : active.maybeAddIndexEntry active.nextOffset active.log.size = .ok active := by
    simp [ActiveSegment.maybeAddIndexEntry, empty]
  simp only [ActiveSegment.append, intact.parsed, stamped, if_false, ne_eq, not_true_eq_false, unindexed]
  exact ⟨_, rfl⟩

theorem should_roll_later {segment : ActiveSegment} {laterMs : Int} (later : nowMs ≤ laterMs)
    (due : segment.shouldRoll nowMs = true) : segment.shouldRoll laterMs = true := by
  unfold ActiveSegment.shouldRoll at due ⊢
  split at due
  · cases due
  · next occupied =>
    rw [if_neg occupied]
    split at due
    · next large => rw [if_pos large]
    · next small =>
      rw [if_neg small]
      split at due
      · next full => rw [if_pos full]
      · next room =>
        rw [if_neg room]
        simp only [decide_eq_true_eq] at due ⊢
        omega

theorem append_on_disk (holds : LogHolds disk.log) (due : disk.log.active.shouldRoll nowMs = true)
    (clean : disk.log.RollsClean nowMs) (free : disk.log.active.nextOffset ∉ disk.strayLogs)
    (range : FitsSigned 64 disk.log.logEndOffset) {batch : Bytes} (intact : IntactBatch batch)
    (clockMs : Int) : ∃ next, disk.append batch nowMs clockMs = .returned disk.log.logEndOffset next := by
  rcases maybe_roll_cases holds (fun rolls => (clean rolls).1) (fun rolls => (clean rolls).2) with
    ⟨idle, _⟩ | ⟨_, segment, active, rolled, moved⟩
  · simp [due] at idle
  · have starts : active.nextOffset = disk.log.logEndOffset := by
      rw [holds.ends, ← rolled.begins]
      exact rolled.fresh.ends
    have stampedStarts : baseOf (stamped batch disk.log.logEndOffset) = active.nextOffset := by
      rw [base_of_stamped, as_signed_as_unsigned 64 (by norm_num) _ range, starts]
    obtain ⟨after, appended⟩ := fresh_append rolled.fresh (intact.stamped disk.log.logEndOffset)
      stampedStarts clockMs
    rw [starts] at appended
    simp only [LogOnDisk.append, roll_on_disk free moved, stamp_base_offset_eq batch _ intact.long,
      appended]
    exact ⟨_, rfl⟩

end Faultless

/-- The log goes on as if the failed roll had not been called: reads are what
they were, appends go through, and a roll completes. -/
structure RollSurvived (before after : LogOnDisk) (nowMs : Int) : Prop where
  reads : ∀ offset maxBytes, after.log.read offset maxBytes = before.log.read offset maxBytes
  appends : ∀ batch laterMs clockMs, IntactBatch batch → nowMs ≤ laterMs →
    ∃ next, after.append batch laterMs clockMs = .returned before.log.logEndOffset next
  rolls : ∀ laterMs, nowMs ≤ laterMs → ∃ rolled segment active,
    after.maybeRoll laterMs none = .returned () rolled ∧ Rolled before.log segment active ∧
      rolled.log.sealedMap = before.log.sealedMap ++ [segment] ∧ rolled.log.active = active

/-- A log that is due to roll survives the failure of one step exactly when the
step is the opening of the new `.log`. -/
theorem failed_roll_survived_iff {disk : LogOnDisk} {nowMs : Int} (holds : LogHolds disk.log)
    (due : disk.log.active.shouldRoll nowMs = true) (clean : disk.log.RollsClean nowMs)
    (free : disk.log.active.nextOffset ∉ disk.strayLogs) (range : FitsSigned 64 disk.log.logEndOffset)
    (fault : RollFault) :
    (∃ failure after, disk.maybeRoll nowMs (some fault) = .threw failure after ∧
      RollSurvived disk after nowMs) ↔ fault.step = .openLog := by
  have cleanLater : ∀ laterMs, disk.log.RollsClean laterMs := fun _ _ => clean due
  rcases maybe_roll_cases holds (fun rolls => (clean rolls).1) (fun rolls => (clean rolls).2) with
    ⟨idle, _⟩ | ⟨_, segment, active, rolled, moved⟩
  · simp [due] at idle
  have untaken := next_untaken free due moved
  rcases failed_roll_cases due untaken fault with ⟨opening, threw⟩ | ⟨other, outcome⟩
  · simp only [opening, iff_true]
    refine ⟨fault.failure, disk, threw, ?_⟩
    constructor
    · intro _ _
      rfl
    · intro batch laterMs clockMs intact later
      exact append_on_disk holds (should_roll_later later due) (cleanLater laterMs) free range intact clockMs
    · intro laterMs later
      have stillDue := should_roll_later later due
      rcases maybe_roll_cases holds (fun rolls => (cleanLater laterMs rolls).1)
        (fun rolls => (cleanLater laterMs rolls).2) with ⟨idle, _⟩ | ⟨_, segment, active, rolled, moved⟩
      · simp [stillDue] at idle
      · exact ⟨_, segment, active, roll_on_disk free moved, rolled, rfl, rfl⟩
  · simp only [other, iff_false]
    rintro ⟨failure, after, threw, survived⟩
    rcases outcome with ⟨_, stranded⟩ | ⟨_, ruined⟩
    · rw [stranded] at threw
      cases threw
      obtain ⟨_, _, _, again, _⟩ := survived.rolls nowMs (le_refl _)
      have refused := @stray_stops_rolls
        { disk with strayLogs := disk.log.active.nextOffset :: disk.strayLogs } nowMs due (by simp)
      rw [refused] at again
      cases again
    · rw [ruined] at threw
      cases threw

/-- Two batches fill a segment. The new `.log` cannot be opened, and the next
roll completes. -/
theorem failed_roll_survived_iff_open_fails :
    ∃ (disk : LogOnDisk) (fault : RollFault), disk.log.active.shouldRoll 0 = true ∧
      fault.step = .openLog ∧ ∃ failure after, disk.maybeRoll 0 (some fault) = .threw failure after ∧
        RollSurvived disk after 0 := by
  obtain ⟨created, log, made, reached, checked⟩ := found_from_creation Log.step
    (fun _ action => action.Plain) id ⟨[116], 0⟩ "data/t-0" twoBatchConfig
    (fun log => decide (log.active.shouldRoll 0 = true ∧ FitsSigned 64 log.logEndOffset))
    [.append (recordBatchOf 10 none (some [118])) 0 0 none,
      .append (recordBatchOf 20 none (some [119])) 0 0 none] (by decide +kernel)
  obtain ⟨due, range⟩ := decide_eq_true_eq.mp checked
  obtain ⟨settled, _⟩ := create_spec ⟨by decide, by decide, by decide, by decide⟩
    storable_two_batch_config made
  have settledFinal := reached.invariant _ _ LogSettled settled
    fun state action next holds plain taken => (settled_step holds plain taken).1
  refine ⟨⟨log, []⟩, ⟨.openLog, .ioError "open" "data/t-0" 28⟩, due, rfl, ?_⟩
  exact (failed_roll_survived_iff settledFinal.toLogHolds due (settledFinal.rollsClean 0) (by simp)
    range ⟨.openLog, .ioError "open" "data/t-0" 28⟩).mpr rfl

/-- The disk is full when the index of the next segment is created: the `.log`
beside it stays, and no later roll and no append gets past it. -/
theorem full_disk_ends_appends :
    ¬ ∀ (created log : Log) (fault : RollFault),
      Log.create ⟨[116], 0⟩ "data/t-0" twoBatchConfig = .ok created →
      GuardedRun.Reaches Log.step (fun _ action => action.Plain) created log →
      log.active.shouldRoll 0 = true →
      ∃ failure after, LogOnDisk.maybeRoll ⟨log, []⟩ 0 (some fault) = .threw failure after ∧
        RollSurvived ⟨log, []⟩ after 0 := by
  intro all
  obtain ⟨created, log, made, reached, checked⟩ := found_from_creation Log.step
    (fun _ action => action.Plain) id ⟨[116], 0⟩ "data/t-0" twoBatchConfig
    (fun log => decide (log.active.shouldRoll 0 = true) &&
      match LogOnDisk.maybeRoll ⟨log, []⟩ 0
          (some ⟨.createIndex, .ioError "ftruncate" "data/t-0" 28⟩) with
      | .threw _ after =>
          match after.append (recordBatchOf 30 none (some [120])) 0 0 with
          | .threw _ _ => true
          | _ => false
      | _ => false)
    [.append (recordBatchOf 10 none (some [118])) 0 0 none,
      .append (recordBatchOf 20 none (some [119])) 0 0 none] (by decide +kernel)
  simp only [Bool.and_eq_true, decide_eq_true_eq] at checked
  obtain ⟨due, refused⟩ := checked
  obtain ⟨failure, after, threw, survived⟩ := all created log
    ⟨.createIndex, .ioError "ftruncate" "data/t-0" 28⟩ made reached due
  have intact : IntactBatch (recordBatchOf 30 none (some [120])) := by decide +kernel
  obtain ⟨next, appended⟩ := survived.appends _ 0 0 intact (le_refl _)
  simp [threw, appended] at refused

end DariyaKyu.Storage

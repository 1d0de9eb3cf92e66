import DariyaKyu.Storage.FailedAppends

/-!
Retention whose file removals fail. `SealedSegment::unlinkFiles` ignores the
error, and the sweep lets the segment go from memory whether its file went or
not: what is left in the directory is tried by no later sweep. It comes to light
at the next startup, which takes the remaining files for a log with a hole.
-/

namespace DariyaKyu.Storage

set_option autoImplicit false

structure RemovalFaults where
  log : Int → Bool
  index : Int → Bool

/-- A partition and what earlier sweeps of this process could not remove: the
segments whose two files are still there, and index files without a log. -/
structure RetentionDisk where
  log : Log
  strays : List SealedSegment
  orphans : List Int

namespace RetentionDisk

/-- `SealedSegment::unlinkFiles` on each of the buried segments: a failed removal
of the `.log` stops there, and a failed removal of the `.index` leaves it behind. -/
def unlinkFiles (faults : RemovalFaults) (buried : List SealedSegment) (disk : RetentionDisk) :
    RetentionDisk :=
  { disk with
    strays := disk.strays ++ buried.filter (faults.log ·.baseOffset)
    orphans := disk.orphans ++
      (buried.filter fun segment => !faults.log segment.baseOffset && faults.index segment.baseOffset).map
        (·.baseOffset) }

def buryOldest (disk : RetentionDisk) (faults : RemovalFaults) (count : Nat) (nowMs : Int) :
    RetentionDisk :=
  { unlinkFiles faults (disk.log.sealedMap.take count) disk with log := disk.log.buryOldest count nowMs }

def applyRetention (disk : RetentionDisk) (faults : RemovalFaults) (nowMs : Int) : RetentionDisk :=
  let aged := disk.buryOldest faults
    (disk.log.sealedMap.takeWhile (Log.agedOut disk.log.config.retention.retentionMs nowMs)).length nowMs
  match disk.log.config.retention.retentionBytes with
  | none => aged
  | some limit =>
      aged.buryOldest faults (Log.overLimit limit aged.log.totalSizeBytes aged.log.sealedMap) nowMs

/-- The log whose files are all those in the directory that a startup looks at.
It lists the `.log` files; an index without one is not looked at. -/
def onDisk (disk : RetentionDisk) : Log :=
  { disk.log with sealedMap := disk.strays ++ disk.log.sealedMap }

end RetentionDisk

inductive RetentionAction where
  | append (batchBytes : Bytes) (rollMs clockMs : Int) (fault : Option WriteFault)
  | maybeRoll (nowMs : Int)
  | applyRetention (faults : RemovalFaults) (nowMs : Int)
  | sweepGraveyard (nowMs : Int)
  | restart (fallback : LogConfig) (clockMs : Int)

namespace RetentionDisk

def step : RetentionAction → RetentionDisk → Option RetentionDisk
  | .append batchBytes rollMs clockMs fault, disk =>
      (disk.log.append batchBytes rollMs clockMs fault).log.map ({ disk with log := · })
  | .maybeRoll nowMs, disk => (disk.log.maybeRoll nowMs).log.map ({ disk with log := · })
  | .applyRetention faults nowMs, disk => some (disk.applyRetention faults nowMs)
  | .sweepGraveyard nowMs, disk => some { disk with log := disk.log.sweepGraveyard nowMs }
  | .restart fallback clockMs, disk =>
      match Log.open disk.log.tp disk.log.dir disk.onDisk.files fallback clockMs with
      | .error _ => none
      | .ok reopened => some { disk with log := reopened, strays := [] }

end RetentionDisk

/-- Appends of whole batches that may fail before the last byte, and no roll and
no startup that comes upon what such a failure left. -/
def RetentionDisk.Unhindered (disk : RetentionDisk) : RetentionAction → Prop
  | .append batchBytes rollMs _ fault => disk.log.RollsClean rollMs ∧ IntactBatch batchBytes ∧
      ∀ torn ∈ fault, torn.written < batchBytes.length
  | .maybeRoll nowMs => disk.log.RollsClean nowMs
  | .restart _ _ => disk.log.EndsClean
  | _ => True

def RetentionDisk.Removes (disk : RetentionDisk) : RetentionAction → Prop
  | .applyRetention faults nowMs => ∀ segment ∈ disk.log.sealedMap,
      (disk.log.applyRetention nowMs).holdsFile segment.baseOffset = false →
        faults.log segment.baseOffset = false
  | _ => True

def RetentionAction.InProcess : RetentionAction → Prop
  | .restart _ _ => False
  | _ => True

def RetentionDisk.OpensAgain (disk : RetentionDisk) : Prop :=
  ∀ fallback clockMs, ∃ reopened,
    Log.open disk.log.tp disk.log.dir disk.onDisk.files fallback clockMs = .ok reopened

/-- Each segment whose removal failed is still served, or there is something this
process can do, sweeps among it, after which its file is gone. -/
def RetentionDisk.Retries (disk : RetentionDisk) : Prop :=
  ∀ stray ∈ disk.strays, stray ∈ disk.log.sealedMap ∨
    ∃ later, GuardedRun.Reaches RetentionDisk.step (fun _ action => action.InProcess) disk later ∧
      stray ∉ later.strays

instance (disk : RetentionDisk) (action : RetentionAction) : Decidable (disk.Unhindered action) :=
  match action with
  | .append batchBytes rollMs _ fault => inferInstanceAs (Decidable (disk.log.RollsClean rollMs ∧
      IntactBatch batchBytes ∧ ∀ torn ∈ fault, torn.written < batchBytes.length))
  | .maybeRoll nowMs => inferInstanceAs (Decidable (disk.log.RollsClean nowMs))
  | .restart _ _ => inferInstanceAs (Decidable disk.log.EndsClean)
  | .applyRetention _ _ | .sweepGraveyard _ => inferInstanceAs (Decidable True)

/-- Segments that do not overlap still do not when some are taken out. -/
theorem linked_sublist {newest : Int} {fewer segments : List SealedSegment}
    (linked : Linked (· ≤ ·) newest segments) (sublist : fewer.Sublist segments) :
    Linked (· ≤ ·) newest fewer ∧ nextBase newest segments ≤ nextBase newest fewer := by
  induction sublist with
  | slnil => exact ⟨trivial, Int.le_refl _⟩
  | @cons fewer segments segment sublist ih =>
      obtain ⟨kept, begins⟩ := ih linked.2.2
      have here := linked.1
      have ends := linked.2.1
      refine ⟨kept, ?_⟩
      change segment.baseOffset ≤ _
      omega
  | @cons_cons fewer segments segment sublist ih =>
      obtain ⟨kept, begins⟩ := ih linked.2.2
      have ends := linked.2.1
      exact ⟨⟨linked.1, by omega, kept⟩, Int.le_refl _⟩

/-- What an append or a roll makes of the segments. -/
inductive Grows (log next : Log) : Prop where
  | kept (same : next.sealedMap = log.sealedMap) (base : next.active.baseOffset = log.active.baseOffset)
  | rolled (segment : SealedSegment) (grown : next.sealedMap = log.sealedMap ++ [segment])
      (base : segment.baseOffset = log.active.baseOffset)
      (spans : segment.baseOffset < segment.nextOffset)
      (begins : segment.nextOffset = next.active.baseOffset)

theorem roll_grows {log rolled : Log} (holds : LogHolds log) {nowMs : Int} (clean : log.RollsClean nowMs)
    (moved : log.maybeRoll nowMs = .returned () rolled) : Grows log rolled := by
  rcases maybe_roll_cases holds (fun rolls => (clean rolls).1) (fun rolls => (clean rolls).2)
    with ⟨_, stays⟩ | ⟨rolls, segment, active, made, moves⟩
  · rw [moved] at stays
    cases stays
    exact .kept rfl rfl
  · rw [moved] at moves
    cases moves
    have occupied := should_roll_occupied rolls
    have ordered := start_le_end holds.activeHolds.consecutive.ascending
    rw [← holds.activeHolds.ends] at ordered
    have spans : segment.baseOffset < segment.nextOffset := by
      rw [made.base, made.next]
      omega
    exact .rolled segment rfl made.base spans (made.next.trans made.begins.symm)

theorem append_grows {log next : Log} (holds : LogHolds log) {batchBytes : Bytes}
    (intact : IntactBatch batchBytes) {rollMs clockMs : Int} (clean : log.RollsClean rollMs)
    {fault : Option WriteFault} (appended : (log.append batchBytes rollMs clockMs fault).log = some next) :
    Grows log next := by
  obtain ⟨rolled, moved, outcomes⟩ := append_spec holds intact clockMs fault
    (fun rolls => (clean rolls).1) (fun rolls => (clean rolls).2)
  have grows := roll_grows holds clean moved
  have unmoved : next.sealedMap = rolled.sealedMap ∧
      next.active.baseOffset = rolled.active.baseOffset := by
    rcases outcomes with ⟨active, returned, _, _, _, _, base, _⟩ | ⟨failure, active, threw, _, _, base, _⟩
    · rw [returned] at appended
      cases appended
      exact ⟨rfl, base⟩
    · rw [threw] at appended
      cases appended
      exact ⟨rfl, base⟩
  obtain ⟨segments, active⟩ := unmoved
  cases grows with
  | kept same base => exact .kept (segments.trans same) (active.trans base)
  | rolled segment grown base spans begins =>
      exact .rolled segment (segments.trans grown) base spans (begins.trans active.symm)

theorem Grows.joined {log next : Log} (grows : Grows log next)
    (joined : Linked (· = ·) log.active.baseOffset log.sealedMap) :
    Linked (· = ·) next.active.baseOffset next.sealedMap := by
  cases grows with
  | kept same base =>
      rw [same, base]
      exact joined
  | rolled segment grown base spans begins =>
      rw [grown, linked_concat]
      exact ⟨base ▸ joined, spans, begins⟩

/-- The invariant: what is in memory is in order, and what the directory has
beyond it lies below and does not overlap. -/
structure DiskHolds (disk : RetentionDisk) : Prop where
  log : DeleteHolds disk.log
  strays : ∀ segment ∈ disk.strays, SealedHolds segment (batchesIn segment)
  apart : Linked (· ≤ ·) disk.log.active.baseOffset (disk.strays ++ disk.log.sealedMap)

section Holds

variable {disk next : RetentionDisk}

theorem DiskHolds.onDisk (holds : DiskHolds disk) : LogHolds disk.onDisk where
  sealedHolds := by
    intro segment member
    rcases List.mem_append.mp member with stray | served
    · exact holds.strays segment stray
    · exact holds.log.sealedHolds segment served
  activeHolds := holds.log.activeHolds
  linked := holds.apart
  ends := holds.log.ends
  policy := holds.log.policy
  stored := holds.log.stored
  storable := holds.log.storable

theorem grows_holds (holds : DiskHolds disk) {log : Log} (deleted : DeleteHolds log)
    (grows : Grows disk.log log) : DiskHolds { disk with log := log } := by
  refine ⟨deleted, holds.strays, ?_⟩
  have apart := holds.apart
  cases grows with
  | kept same base => simpa only [same, base] using apart
  | rolled segment grown base spans begins =>
      simp only [grown, ← List.append_assoc]
      rw [linked_concat]
      exact ⟨base ▸ apart, spans, begins.le⟩

theorem retention_log (disk : RetentionDisk) (faults : RemovalFaults) (nowMs : Int) :
    (disk.applyRetention faults nowMs).log = disk.log.applyRetention nowMs := by
  unfold RetentionDisk.applyRetention Log.applyRetention
  cases disk.log.config.retention.retentionBytes <;> rfl

theorem retention_strays (disk : RetentionDisk) (faults : RemovalFaults) (nowMs : Int) :
    ∃ count, (disk.applyRetention faults nowMs).log.sealedMap = disk.log.sealedMap.drop count ∧
      (disk.applyRetention faults nowMs).strays =
        disk.strays ++ (disk.log.sealedMap.take count).filter (faults.log ·.baseOffset) := by
  unfold RetentionDisk.applyRetention
  cases disk.log.config.retention.retentionBytes with
  | none => exact ⟨_, rfl, rfl⟩
  | some limit =>
      simp only [RetentionDisk.buryOldest, RetentionDisk.unlinkFiles, Log.buryOldest]
      exact ⟨_, List.drop_drop, by rw [List.append_assoc, ← List.filter_append, ← List.take_add]⟩

/-- A sweep leaves part of what was in the directory, in the same order. -/
theorem retention_holds_disk (holds : DiskHolds disk) (faults : RemovalFaults) (nowMs : Int) :
    DiskHolds (disk.applyRetention faults nowMs) := by
  obtain ⟨count, served, strays⟩ := retention_strays disk faults nowMs
  have active : (disk.applyRetention faults nowMs).log.active = disk.log.active := by
    obtain ⟨_, _, buried⟩ := retention_buries disk.log nowMs
    rw [retention_log, buried]
  constructor
  · rw [retention_log]
    exact (delete_retention holds.log nowMs).1
  · intro segment member
    rw [strays] at member
    rcases List.mem_append.mp member with old | failed
    · exact holds.strays segment old
    · exact holds.log.sealedHolds segment (List.mem_of_mem_take (List.mem_of_mem_filter failed))
  · rw [served, strays, active, List.append_assoc]
    apply (linked_sublist holds.apart _).1
    apply List.Sublist.append_left
    conv_rhs => rw [← List.take_append_drop count disk.log.sealedMap]
    exact List.Sublist.append_right List.filter_sublist _

/-- A startup on the directory opens every file that is left; all that can go
wrong is the hole check. -/
theorem open_disk (holds : DiskHolds disk) (ends : disk.log.EndsClean) (fallback : LogConfig)
    (clockMs : Int) :
    ∃ reopened, Log.open disk.log.tp disk.log.dir disk.onDisk.files fallback clockMs =
        (checkContiguity disk.log.dir disk.log.config.reloaded disk.log.active.baseOffset
          reopened.sealedMap >>= fun _ => .ok reopened) ∧
      (checkContiguity disk.log.dir disk.log.config.reloaded disk.log.active.baseOffset
          reopened.sealedMap = .ok () ↔
        Linked (· = ·) disk.log.active.baseOffset (disk.strays ++ disk.log.sealedMap)) ∧
      (Linked (· = ·) disk.log.active.baseOffset (disk.strays ++ disk.log.sealedMap) →
        DeleteHolds reopened) := by
  obtain ⟨reopened, opened, settled, _, _, _, _, _, config, base, same⟩ :=
    open_spec holds.onDisk ends fallback clockMs
  have deletes : disk.log.config.reloaded.compacted = false := holds.log.deletes
  have occupied : ∀ segment ∈ reopened.sealedMap, segment.baseOffset < segment.nextOffset :=
    fun segment member => (linked_below settled.linked member).1
  have checked : checkContiguity disk.log.dir disk.log.config.reloaded disk.log.active.baseOffset
      reopened.sealedMap = .ok () ↔ Linked (· = ·) disk.log.active.baseOffset reopened.sealedMap := by
    simpa only [deletes, Bool.false_eq_true, if_false] using
      check_contiguity_ok disk.log.dir disk.log.config.reloaded occupied
  refine ⟨reopened, opened, checked.trans (same_linked same), ?_⟩
  intro joined
  refine ⟨settled.toLogHolds, by rw [config]; exact deletes, ?_⟩
  rw [base]
  exact (same_linked same).mpr joined

/-- A startup succeeds exactly when the files that are left have no hole. -/
theorem opens_again_iff (holds : DiskHolds disk) (ends : disk.log.EndsClean) :
    disk.OpensAgain ↔
      Linked (· = ·) disk.log.active.baseOffset (disk.strays ++ disk.log.sealedMap) := by
  constructor
  · intro opens
    obtain ⟨reopened, opened, checked, _⟩ := open_disk holds ends {} 0
    obtain ⟨again, succeeds⟩ := opens {} 0
    rw [opened] at succeeds
    obtain ⟨_, passed, _⟩ := except_bind_ok succeeds
    exact checked.mp passed
  · intro joined fallback clockMs
    obtain ⟨reopened, opened, checked, _⟩ := open_disk holds ends fallback clockMs
    exact ⟨reopened, by rw [opened, checked.mpr joined]; rfl⟩

theorem disk_step (holds : DiskHolds disk) {action : RetentionAction} (unhindered : disk.Unhindered action)
    (taken : RetentionDisk.step action disk = some next) : DiskHolds next := by
  cases action with
  | append batchBytes rollMs clockMs fault =>
      obtain ⟨clean, intact, _⟩ := unhindered
      obtain ⟨log, appended, rfl⟩ := Option.map_eq_some_iff.mp taken
      have deleted : DeleteHolds log := by
        obtain ⟨_, _, ⟨after, returned, afterHolds, _⟩ | ⟨_, after, threw, afterHolds, _⟩⟩ :=
          delete_append holds.log intact clean clockMs fault
        · rw [returned] at appended
          cases appended
          exact afterHolds
        · rw [threw] at appended
          cases appended
          exact afterHolds
      exact grows_holds holds deleted (append_grows holds.log.toLogHolds intact clean appended)
  | maybeRoll nowMs =>
      obtain ⟨log, rolls, rfl⟩ := Option.map_eq_some_iff.mp taken
      obtain ⟨rolled, moved, deleted, _⟩ := delete_roll holds.log unhindered
      rw [moved] at rolls
      cases rolls
      exact grows_holds holds deleted (roll_grows holds.log.toLogHolds unhindered moved)
  | applyRetention faults nowMs =>
      cases taken
      exact retention_holds_disk holds faults nowMs
  | sweepGraveyard nowMs =>
      cases taken
      have swept := sweep_holds holds.log.toLogHolds nowMs
      exact ⟨⟨swept, holds.log.deletes, holds.log.joined⟩, holds.strays, holds.apart⟩
  | restart fallback clockMs =>
      obtain ⟨reopened, opened, checked, joins⟩ := open_disk holds unhindered fallback clockMs
      simp only [RetentionDisk.step, opened] at taken
      cases passed : checkContiguity disk.log.dir disk.log.config.reloaded disk.log.active.baseOffset
          reopened.sealedMap with
      | error failure => simp [passed] at taken
      | ok done =>
          simp only [passed, except_ok_bind, Option.some.injEq] at taken
          subst taken
          have deleted := joins (checked.mp passed)
          exact ⟨deleted, by simp, by simpa using deleted.linked⟩

theorem strays_stay {later : RetentionDisk}
    (reached : GuardedRun.Reaches RetentionDisk.step (fun _ action => action.InProcess) disk later) :
    ∀ stray ∈ disk.strays, stray ∈ later.strays := by
  intro stray member
  apply reached.invariant RetentionDisk.step _ (fun state => stray ∈ state.strays) member
  intro state action next inside inProcess taken
  cases action with
  | append batchBytes rollMs clockMs fault =>
      obtain ⟨log, _, rfl⟩ := Option.map_eq_some_iff.mp taken
      exact inside
  | maybeRoll nowMs =>
      obtain ⟨log, _, rfl⟩ := Option.map_eq_some_iff.mp taken
      exact inside
  | applyRetention faults nowMs =>
      cases taken
      obtain ⟨_, _, strays⟩ := retention_strays state faults nowMs
      rw [strays]
      exact List.mem_append_left _ inside
  | sweepGraveyard nowMs =>
      cases taken
      exact inside
  | restart fallback clockMs => exact inProcess.elim

theorem retries_iff (holds : DiskHolds disk) : disk.Retries ↔ disk.strays = [] := by
  constructor
  · intro retries
    rw [List.eq_nil_iff_forall_not_mem]
    intro stray member
    rcases retries stray member with served | ⟨later, reached, gone⟩
    · obtain ⟨before, after, split⟩ := List.append_of_mem served
      have apart := holds.apart
      rw [split, ← List.append_assoc] at apart
      have below := linked_before apart (List.mem_append_left before member)
      omega
    · exact gone (strays_stay reached stray member)
  · intro empty stray member
    rw [empty] at member
    cases member

theorem taken_unlisted {log swept : Log} (linked : Linked (· ≤ ·) log.active.baseOffset log.sealedMap)
    (active : swept.active = log.active) {count : Nat} (served : swept.sealedMap = log.sealedMap.drop count)
    {segment : SealedSegment} (taken : segment ∈ log.sealedMap.take count) :
    swept.holdsFile segment.baseOffset = false := by
  have below := linked_below linked (List.mem_of_mem_take taken)
  simp only [Log.holdsFile, Bool.or_eq_false_iff, beq_eq_false_iff_ne, List.any_eq_false, active, served]
  refine ⟨by omega, ?_⟩
  intro other member
  obtain ⟨before, after, split⟩ := List.append_of_mem member
  rw [← List.take_append_drop count log.sealedMap, split, ← List.append_assoc] at linked
  have behind := linked_before linked (List.mem_append_left before taken)
  simp only [beq_iff_eq]
  omega

theorem removes_step {action : RetentionAction} (removes : disk.Removes action)
    (holds : DiskHolds disk) (empty : disk.strays = []) (taken : RetentionDisk.step action disk = some next) :
    next.strays = [] := by
  cases action with
  | append batchBytes rollMs clockMs fault =>
      obtain ⟨log, _, rfl⟩ := Option.map_eq_some_iff.mp taken
      exact empty
  | maybeRoll nowMs =>
      obtain ⟨log, _, rfl⟩ := Option.map_eq_some_iff.mp taken
      exact empty
  | applyRetention faults nowMs =>
      cases taken
      obtain ⟨count, served, strays⟩ := retention_strays disk faults nowMs
      rw [strays, empty, List.nil_append, List.filter_eq_nil_iff]
      intro segment member
      rw [Bool.not_eq_true]
      apply removes segment (List.mem_of_mem_take member)
      rw [retention_log] at served
      obtain ⟨_, _, buried⟩ := retention_buries disk.log nowMs
      exact taken_unlisted holds.log.linked (by rw [buried]) served member
  | sweepGraveyard nowMs =>
      cases taken
      exact empty
  | restart fallback clockMs =>
      simp only [RetentionDisk.step] at taken
      split at taken
      · cases taken
      · cases taken
        rfl

end Holds

/-- After any run of sweeps with failing removals: the directory opens again and
what failed is retried exactly when no `.log` has been left behind since the
process started; and none is left when every sweep removes the `.log` files. -/
theorem failed_removals_retried_iff {tp : TopicPartition} {dir : String} {config : LogConfig}
    {created : Log} {final : RetentionDisk} (named : StorableName tp) (storable : config.Storable)
    (deletes : config.compacted = false) (made : Log.create tp dir config = .ok created)
    (reached : GuardedRun.Reaches RetentionDisk.step RetentionDisk.Unhindered ⟨created, [], []⟩ final)
    (ends : final.log.EndsClean) :
    (final.OpensAgain ∧ final.Retries ↔ final.strays = []) ∧
      (GuardedRun.Reaches RetentionDisk.step
          (fun disk action => disk.Unhindered action ∧ disk.Removes action) ⟨created, [], []⟩ final →
        final.strays = []) := by
  obtain ⟨settled, _, unsealed, _, _, same, _⟩ := create_spec named storable made
  have initial : DiskHolds ⟨created, [], []⟩ := by
    refine ⟨⟨settled.toLogHolds, ?_, ?_⟩, by simp, ?_⟩
    · rw [same]
      exact deletes
    · rw [unsealed]
      trivial
    · rw [unsealed]
      trivial
  have holds := reached.invariant RetentionDisk.step _ DiskHolds initial
    fun disk action next holds unhindered taken => disk_step holds unhindered taken
  constructor
  · constructor
    · rintro ⟨_, retries⟩
      exact (retries_iff holds).mp retries
    · intro empty
      refine ⟨(opens_again_iff holds ends).mpr ?_, (retries_iff holds).mpr empty⟩
      rw [empty]
      exact holds.log.joined
  · intro removing
    exact (removing.invariant RetentionDisk.step _ (fun disk => DiskHolds disk ∧ disk.strays = [])
      ⟨initial, rfl⟩ fun disk action next ⟨diskHolds, empty⟩ ⟨unhindered, removes⟩ taken =>
        ⟨disk_step diskHolds unhindered taken, removes_step removes diskHolds empty taken⟩).2

def twoSegmentsSwept (faults : RemovalFaults) : List RetentionAction :=
  let batch := recordBatchOf 10 none (some [118])
  [.append batch 0 0 none, .append batch 0 0 none, .maybeRoll 0,
    .append batch 0 0 none, .append batch 0 0 none, .maybeRoll 0,
    .append batch 0 0 none, .applyRetention faults 2000]

/-- An index that cannot be removed does no harm. -/
theorem failed_removals_retried_index :
    ∃ (created : Log) (final : RetentionDisk), Log.create ⟨[116], 0⟩ "t-0" twoBatchConfig = .ok created ∧
      final.orphans = [0, 2] ∧ (final.OpensAgain ∧ final.Retries ↔ final.strays = []) := by
  obtain ⟨created, final, made, reached, checked⟩ := found_from_creation RetentionDisk.step
    RetentionDisk.Unhindered (⟨·, [], []⟩) ⟨[116], 0⟩ "t-0" twoBatchConfig
    (fun disk => disk.orphans == [0, 2] && decide disk.log.EndsClean)
    (twoSegmentsSwept ⟨fun _ => false, fun _ => true⟩) (by decide +kernel)
  simp only [Bool.and_eq_true, beq_iff_eq, decide_eq_true_eq] at checked
  exact ⟨created, final, made, checked.1, (failed_removals_retried_iff
    ⟨by decide, by decide, by decide, by decide⟩ storable_two_batch_config rfl made reached checked.2).1⟩

/-- The oldest `.log` stays and the next one goes: the next startup finds a hole. -/
theorem failed_removal_leaves_a_hole :
    ¬ ∀ (tp : TopicPartition) (dir : String) (config : LogConfig) (created : Log) (final : RetentionDisk),
      StorableName tp → config.Storable → config.compacted = false →
      Log.create tp dir config = .ok created →
      GuardedRun.Reaches RetentionDisk.step RetentionDisk.Unhindered ⟨created, [], []⟩ final →
      final.log.EndsClean → final.OpensAgain ∧ final.Retries := by
  intro all
  refine refuted_from_creation RetentionDisk.step RetentionDisk.Unhindered (⟨·, [], []⟩) ⟨[116], 0⟩ "t-0"
    twoBatchConfig (fun disk => disk.log.EndsClean → disk.OpensAgain)
    (fun disk => !decide disk.log.EndsClean ||
      (Log.open disk.log.tp disk.log.dir disk.onDisk.files {} 0).toBool) ?_
    (twoSegmentsSwept ⟨(· == 0), fun _ => false⟩) (by decide +kernel) ?_
  · intro disk opens
    rw [Bool.or_eq_true, Bool.not_eq_true', decide_eq_false_iff_not]
    by_cases ends : disk.log.EndsClean
    · obtain ⟨reopened, opened⟩ := opens ends {} 0
      exact .inr (by rw [opened]; rfl)
    · exact .inl ends
  · intro created final made reached ends
    exact (all _ _ _ created final ⟨by decide, by decide, by decide, by decide⟩
      storable_two_batch_config rfl made reached ends).1

end DariyaKyu.Storage

import DariyaKyu.Storage.LogManager

/-!
`LogManager::createPartition` one file-system step after the other. A step that
fails leaves what the earlier ones made, since nothing takes a half made
partition away again; a crash stops between two steps and leaves the same. Of
`writePartitionMeta` only the rename makes a file that anybody reads: the
temporary file is truncated before it is used again. The calls that make the
index, and those that write the temporary file, are a step each: wherever they
stop, the same is left for the next one who comes.
-/

namespace DariyaKyu.Storage

set_option autoImplicit false

/-- The steps of `Log::create`, in order. Opening the `.log` creates it; the
constructor of the handle then asks for its end. -/
inductive CreateStep where
  | makeDirectory
  | openLog
  | seekLog
  | createIndex
  | writeMeta
  | renameMeta
  | syncDirectory
  deriving DecidableEq, Repr

def createSteps : List CreateStep :=
  [.makeDirectory, .openLog, .seekLog, .createIndex, .writeMeta, .renameMeta, .syncDirectory]

structure CreateFault where
  step : CreateStep
  failure : Error
  deriving DecidableEq, Repr

def failsAt : Option CreateFault → CreateStep → Option Error
  | none, _ => none
  | some fault, step => if fault.step = step then some fault.failure else none

structure NewPartition where
  tp : TopicPartition
  dir : String
  config : LogConfig

/-- Whether a directory has the `.log` of offset zero. -/
def PartitionDir.hasFirstLog (files : PartitionDir) : Bool := files.segments.any (·.baseOffset = 0)

/-- The same of a path at which there may be no directory. -/
def holdsFirstLog (files : Option PartitionDir) : Bool := files.any (·.hasFirstLog)

namespace NewPartition

def index (new : NewPartition) : Except Error OffsetIndex :=
  OffsetIndex.create (segmentIndexPath new.dir 0) 0 new.config.roll.maxIndexBytes

def refuses (new : NewPartition) (files : Option PartitionDir) : CreateStep → Option Error
  | .openLog =>
      if holdsFirstLog files then some (.ioError "open" (segmentLogPath new.dir 0) EEXIST) else none
  | .createIndex =>
      match new.index with
      | .error failure => some failure
      | .ok _ => none
  | _ => none

def makes (new : NewPartition) (files : Option PartitionDir) : CreateStep → Option PartitionDir
  | .makeDirectory => some (files.getD ⟨none, []⟩)
  | .openLog => files.map fun dir => { dir with segments := ⟨0, [], none⟩ :: dir.segments }
  | .createIndex =>
      files.map fun dir =>
        { dir with
          segments := dir.segments.map fun segment =>
            if segment.baseOffset = 0 then { segment with index := new.index.toOption } else segment }
  | .renameMeta =>
      files.map fun dir => { dir with partitionMeta := some (encodePartitionMeta ⟨new.tp, new.config⟩) }
  | .seekLog | .writeMeta | .syncDirectory => files

def runSteps (new : NewPartition) (fault : Option CreateFault) :
    List CreateStep → Option PartitionDir → Option PartitionDir × Option Error
  | [], files => (files, none)
  | step :: rest, files =>
      match (failsAt fault step).or (new.refuses files step) with
      | some failure => (files, some failure)
      | none => new.runSteps fault rest (new.makes files step)

def crashedAfter (new : NewPartition) (made : Nat) (files : Option PartitionDir) : Option PartitionDir :=
  (createSteps.take made).foldl new.makes files

end NewPartition

/-- A broker's partitions and what stands at the paths of the others. -/
structure DataDirectory where
  manager : LogManager
  unhosted : TopicPartition → Option PartitionDir

namespace DataDirectory

def hosts (data : DataDirectory) (tp : TopicPartition) : Bool := (data.manager.get tp).isSome

def newPartition (data : DataDirectory) (tp : TopicPartition) (config : LogConfig) : NewPartition :=
  ⟨tp, data.manager.partitionDir tp, config⟩

def createPartition (data : DataDirectory) (tp : TopicPartition) (config : LogConfig)
    (fault : Option CreateFault) : DataDirectory × Option Error :=
  match requireUsableName tp with
  | .error failure => (data, some failure)
  | .ok _ =>
      if data.hosts tp then
        (data, some (.error s!"partition {shownBytes tp.toBytes} is already hosted on this broker"))
      else
        let (files, failed) := (data.newPartition tp config).runSteps fault createSteps (data.unhosted tp)
        let left := { data with unhosted := Function.update data.unhosted tp files }
        match failed, Log.create tp (data.manager.partitionDir tp) config with
        | some failure, _ => (left, some failure)
        | none, .error failure => (left, some failure)
        | none, .ok log =>
            ({ left with manager := { data.manager with logs := data.manager.logs ++ [(tp, log)] } }, none)

end DataDirectory

section Steps

variable {new : NewPartition} {files : Option PartitionDir} {fault : Option CreateFault}

theorem offset_index_ok_iff {path : String} {baseOffset : Int} {maxBytes : Nat} :
    (∃ index, OffsetIndex.create path baseOffset maxBytes = .ok index) ↔ kEntrySize ≤ maxBytes := by
  unfold OffsetIndex.create
  have positive : 0 < kEntrySize := by decide
  have small := @Nat.div_eq_zero_iff maxBytes kEntrySize
  split <;> simp <;> omega

theorem index_ok_iff : (∃ index, new.index = .ok index) ↔ kEntrySize ≤ new.config.roll.maxIndexBytes :=
  offset_index_ok_iff

@[simp] theorem holds_first_made : holdsFirstLog (some (files.getD ⟨none, []⟩)) = holdsFirstLog files := by
  cases files <;> rfl

/-- All steps are made if none fails and nothing stands in the way of the two files of the segment. -/
theorem run_steps_done_iff :
    (new.runSteps fault createSteps files).2 = none ↔
      fault = none ∧ holdsFirstLog files = false ∧ kEntrySize ≤ new.config.roll.maxIndexBytes := by
  rw [← index_ok_iff]
  simp only [createSteps, NewPartition.runSteps, NewPartition.refuses, NewPartition.makes, failsAt]
  rcases fault with _ | ⟨step, failure⟩
  · cases taken : holdsFirstLog files <;> cases made : new.index <;> simp [taken]
  · cases step <;> cases taken : holdsFirstLog files <;> cases made : new.index <;> simp [taken]

/-- A creation that fails leaves no `.log` only if none was there and it fails
before its own is made. -/
theorem run_steps_leaves (failed : (new.runSteps fault createSteps files).2 ≠ none) :
    holdsFirstLog (new.runSteps fault createSteps files).1 = false ↔
      holdsFirstLog files = false ∧ ∃ early ∈ fault, early.step = .makeDirectory ∨ early.step = .openLog := by
  revert failed
  simp only [createSteps, NewPartition.runSteps, NewPartition.refuses, NewPartition.makes, failsAt]
  rcases fault with _ | ⟨step, failure⟩
  · cases taken : holdsFirstLog files <;> cases made : new.index <;> simp [taken]
    rfl
  · cases step <;> cases taken : holdsFirstLog files <;> cases made : new.index <;> simp [taken]
    all_goals rfl

theorem log_create_ok (roomy : kEntrySize ≤ new.config.roll.maxIndexBytes) :
    ∃ log, Log.create new.tp new.dir new.config = .ok log := by
  obtain ⟨index, made⟩ := index_ok_iff.mpr roomy
  unfold NewPartition.index at made
  exact ⟨_, by simp only [Log.create, ActiveSegment.create, Bool.false_eq_true, if_false, made, except_ok_bind]; rfl⟩

end Steps

section Creation

variable {data : DataDirectory} {tp other : TopicPartition} {config : LogConfig}
  {fault : Option CreateFault}

/-- Nothing in the directory of a partition is in the way of its first segment. -/
def DataDirectory.Free (data : DataDirectory) (tp : TopicPartition) : Prop :=
  holdsFirstLog (data.unhosted tp) = false

/-- The name is usable and the partition is not hosted. -/
structure DataDirectory.Creatable (data : DataDirectory) (tp : TopicPartition) : Prop where
  usable : isUsableTopicName tp.topic = true
  numbered : 0 ≤ tp.partition
  absent : data.hosts tp = false

theorem require_usable_name (creatable : data.Creatable tp) : requireUsableName tp = .ok () := by
  have numbered := creatable.numbered
  simp [requireUsableName, creatable.usable]
  omega

theorem hosts_iff : data.hosts tp = true ↔ ∃ hosted ∈ data.manager.logs, hosted.1 = tp := by
  simp [DataDirectory.hosts, LogManager.get]

/-- What a creation does: it is complete if no step fails, none is refused, and
then one more partition is hosted; else the manager is as it was, and the
directory keeps what has been made. -/
inductive CreationOutcome (data : DataDirectory) (tp : TopicPartition) (config : LogConfig)
    (fault : Option CreateFault) (next : DataDirectory) : Option Error → Prop where
  | created (log : Log) (faultless : fault = none) (free : data.Free tp)
      (roomy : kEntrySize ≤ config.roll.maxIndexBytes)
      (made : next.manager = { data.manager with logs := data.manager.logs ++ [(tp, log)] }) :
      CreationOutcome data tp config fault next none
  | failed (failure : Error)
      (incomplete : ¬ (fault = none ∧ data.Free tp ∧ kEntrySize ≤ config.roll.maxIndexBytes))
      (same : next.manager = data.manager)
      (left : next.Free tp ↔
        data.Free tp ∧ ∃ early ∈ fault, early.step = .makeDirectory ∨ early.step = .openLog) :
      CreationOutcome data tp config fault next (some failure)

theorem create_partition_outcome (creatable : data.Creatable tp) :
    CreationOutcome data tp config fault (data.createPartition tp config fault).1
      (data.createPartition tp config fault).2 := by
  have done := @run_steps_done_iff (data.newPartition tp config) (data.unhosted tp) fault
  have leaves := @run_steps_leaves (data.newPartition tp config) (data.unhosted tp) fault
  simp only [DataDirectory.createPartition, require_usable_name creatable, creatable.absent,
    Bool.false_eq_true, if_false]
  cases failed : ((data.newPartition tp config).runSteps fault createSteps (data.unhosted tp)).2 with
  | some failure =>
      rw [failed] at done
      apply CreationOutcome.failed
      · intro complete
        exact absurd (done.mpr complete) (Option.some_ne_none _)
      · rfl
      · have left := leaves (by rw [failed]; exact Option.some_ne_none _)
        simpa [DataDirectory.Free] using left
  | none =>
      obtain ⟨faultless, free, roomy⟩ := done.mp failed
      obtain ⟨log, created⟩ := @log_create_ok (data.newPartition tp config) roomy
      simp only [DataDirectory.newPartition] at created
      rw [created]
      exact .created log faultless free roomy rfl

theorem create_partition_elsewhere (different : other ≠ tp) :
    (data.createPartition tp config fault).1.unhosted other = data.unhosted other := by
  unfold DataDirectory.createPartition
  split
  · rfl
  · split
    · rfl
    · simp only
      split <;> simp [different]

theorem create_partition_frame (creatable : data.Creatable tp) (different : other ≠ tp) :
    (data.createPartition tp config fault).1.hosts other = data.hosts other ∧
      ((data.createPartition tp config fault).1.Free other ↔ data.Free other) ∧
      (data.createPartition tp config fault).1.manager.defaults = data.manager.defaults := by
  have elsewhere := @create_partition_elsewhere data tp other config fault different
  have outcome := @create_partition_outcome data tp config fault creatable
  generalize data.createPartition tp config fault = result at elsewhere outcome ⊢
  obtain ⟨next, failed⟩ := result
  refine ⟨?_, by rw [DataDirectory.Free, elsewhere, DataDirectory.Free], ?_⟩
  · cases outcome with
    | created log _ _ _ made =>
        rw [Bool.eq_iff_iff, hosts_iff, hosts_iff, made]
        simp [Ne.symm different]
    | failed _ _ same _ => rw [DataDirectory.hosts, DataDirectory.hosts, same]
  · cases outcome with
    | created log _ _ _ made => rw [made]
    | failed _ _ same _ => rw [same]

/-- A creation is complete if no step fails and none is refused, and then the partition is hosted. -/
theorem create_partition_none_iff (creatable : data.Creatable tp) :
    (data.createPartition tp config fault).2 = none ↔
      fault = none ∧ data.Free tp ∧ kEntrySize ≤ config.roll.maxIndexBytes := by
  have outcome := @create_partition_outcome data tp config fault creatable
  generalize data.createPartition tp config fault = result at outcome ⊢
  obtain ⟨next, failed⟩ := result
  cases outcome with
  | created _ faultless free roomy _ => exact iff_of_true rfl ⟨faultless, free, roomy⟩
  | failed _ incomplete _ _ => exact iff_of_false (Option.some_ne_none _) incomplete

theorem create_partition_hosts (creatable : data.Creatable tp) :
    (data.createPartition tp config fault).1.hosts tp = true ↔
      (data.createPartition tp config fault).2 = none := by
  have outcome := @create_partition_outcome data tp config fault creatable
  generalize data.createPartition tp config fault = result at outcome ⊢
  obtain ⟨next, failed⟩ := result
  cases outcome with
  | created log _ _ _ made =>
      rw [hosts_iff, made]
      exact iff_of_true ⟨_, List.mem_append_right _ (List.mem_singleton_self _), rfl⟩ rfl
  | failed _ _ same _ =>
      have absent := creatable.absent
      simp only [DataDirectory.hosts] at absent ⊢
      rw [same, absent]
      simp

theorem create_partition_leaves (creatable : data.Creatable tp)
    (failed : (data.createPartition tp config fault).2 ≠ none) :
    (data.createPartition tp config fault).1.manager = data.manager ∧
      ((data.createPartition tp config fault).1.Free tp ↔
        data.Free tp ∧ ∃ early ∈ fault, early.step = .makeDirectory ∨ early.step = .openLog) := by
  have outcome := @create_partition_outcome data tp config fault creatable
  generalize data.createPartition tp config fault = result at outcome failed ⊢
  obtain ⟨next, isFailed⟩ := result
  cases outcome with
  | created => exact absurd rfl failed
  | failed _ _ same left => exact ⟨same, left⟩

end Creation

end DariyaKyu.Storage

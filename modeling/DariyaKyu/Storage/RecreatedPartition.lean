import DariyaKyu.Library.OrderedMap
import DariyaKyu.Storage.CleanerService
import DariyaKyu.Storage.CompactedReads
import DariyaKyu.Storage.FailedRemovals

/-!
A cleaning pass beside `removePartition` and `createPartition` of the same
partition. The pass holds the log object it began with and the paths of its
segments. The removal renames the directory and leaves the object alive; once
the partition has been made again, the same paths lead to the files of another
log. Lives are counted: a partition made again is another life of it.
-/

namespace DariyaKyu.Storage

set_option autoImplicit false

/-- What stands at a path: the file that the log which lives there has open, or
one that a rename has put in its place. -/
inductive FileAt (α : Type) where
  | own
  | put (contents : α)

def FileAt.contents {α : Type} (own : Option α) : FileAt α → Option α
  | .own => own
  | .put contents => some contents

def FileAt.isOwn {α : Type} : FileAt α → Bool
  | .own => true
  | .put _ => false

/-- The directory at the path of the partition, in one of its lives. -/
structure Place where
  life : Nat
  logs : OrderedMap Int (FileAt Bytes)
  indexes : OrderedMap Int (FileAt OffsetIndex)
  cleanedLogs : Int → Option Bytes := fun _ => none
  cleanedIndexes : Int → Option OffsetIndex := fun _ => none

inductive FileUse where
  | read
  | replaced
  | deleted
  deriving DecidableEq, Repr

/-- The pass used a file that belongs to the log of this life. -/
structure Touch where
  life : Nat
  use : FileUse
  baseOffset : Int
  deriving DecidableEq, Repr

/-- What a pass remembers of a sealed segment; its path follows from the base. -/
structure CapturedSegment where
  baseOffset : Int
  nextOffset : Int

structure PassWork where
  rules : RetainRules
  mappedThrough : Int
  rest : List CapturedSegment

/-- Where a pass stands. A step is one look at the directory or one change to it. -/
inductive PassAt where
  | idle
  | holding (maxKeyMapEntries : Nat) (firstDirtyOffset nowMs : Int)
  | mapping (firstDirtyOffset nowMs : Int) (dirty : DirtyMap) (captured rest : List CapturedSegment)
  | checking (work : PassWork)
  | creating (work : PassWork) (baseOffset : Int)
  | copying (work : PassWork) (baseOffset : Int) (life : Nat)
  | swappingLog (work : PassWork) (baseOffset : Int)
  | swappingIndex (work : PassWork) (baseOffset : Int)
  | reopening (work : PassWork) (baseOffset : Int)
  | droppingLog (work : PassWork) (baseOffset : Int)
  | droppingIndex (work : PassWork) (baseOffset : Int)
  | ended

def PassAt.running : PassAt → Bool
  | .idle | .ended => false
  | _ => true

def Log.segmentAt (log : Log) (baseOffset : Int) : Option SegmentBase :=
  if log.active.baseOffset = baseOffset then some log.active.toSegmentBase
  else log.sealedMap.find? (·.baseOffset == baseOffset)

namespace Place

/-- The directory of a log that nothing foreign has been put into. -/
def hosting (life : Nat) (log : Log) : Place :=
  let bases := log.sealedMap.map (·.baseOffset) ++ [log.active.baseOffset]
  { life
    logs := bases.foldl (fun logs base => logs.insert base .own) .empty
    indexes := bases.foldl (fun indexes base => indexes.insert base .own) .empty }

def bytesAt (place : Place) (log : Log) (baseOffset : Int) : Option Bytes :=
  (place.logs.find? baseOffset).bind (·.contents ((log.segmentAt baseOffset).map (·.log.bytes)))

def indexAt (place : Place) (log : Log) (baseOffset : Int) : Option OffsetIndex :=
  (place.indexes.find? baseOffset).bind (·.contents ((log.segmentAt baseOffset).map (·.index)))

def files (place : Place) (log : Log) : PartitionDir where
  partitionMeta := log.partitionMeta
  segments := place.logs.entries.filterMap fun entry =>
    (place.bytesAt log entry.1).map fun bytes => ⟨entry.1, bytes, place.indexAt log entry.1⟩

/-- A roll makes the two files of the new active segment. -/
def grow (place : Place) (before after : Log) : Place :=
  if after.active.baseOffset = before.active.baseOffset then place
  else
    { place with
      logs := place.logs.insert after.active.baseOffset .own
      indexes := place.indexes.insert after.active.baseOffset .own }

def discardCleaned (place : Place) (baseOffset : Int) : Place :=
  { place with
    cleanedLogs := Function.update place.cleanedLogs baseOffset none
    cleanedIndexes := Function.update place.cleanedIndexes baseOffset none }

def writeCleaned (place : Place) (baseOffset : Int) (log : Bytes) (index : OffsetIndex) : Place :=
  { place with
    cleanedLogs := Function.update place.cleanedLogs baseOffset (some log)
    cleanedIndexes := Function.update place.cleanedIndexes baseOffset (some index) }

end Place

/-- One partition of a broker, the directory at its path, and a pass that began
in its first life. `former` is that life's log once it is removed, and
`appended` what has been appended in the present life. -/
structure Recreation where
  manager : LogManager
  place : Option Place
  lives : Nat
  former : Option Log
  pass : PassAt
  touched : List Touch
  appended : List Bytes

namespace Recreation

section Steps

variable (tp : TopicPartition)

def start (manager : LogManager) (log : Log) : Recreation where
  manager := manager
  place := some (.hosting 0 log)
  lives := 1
  former := none
  pass := .idle
  touched := []
  appended := []

def hosted (state : Recreation) : Option Log := state.manager.get tp

def held (state : Recreation) : Option Log := state.former.or (state.hosted tp)

def setHeld (state : Recreation) (log : Log) : Recreation :=
  match state.former with
  | some _ => { state with former := some log }
  | none => { state with manager := state.manager.put tp log }

def goto (state : Recreation) (pass : PassAt) : Recreation := { state with pass := pass }

def onPlace (state : Recreation) (change : Place → Place) : Recreation :=
  { state with place := state.place.map change }

/-- Records that the pass uses the file at a path, when it is the log's own. -/
def note (state : Recreation) (use : FileUse) (baseOffset : Int) (isOwn : Place → Bool) : Recreation :=
  { state with
    touched := state.touched ++ (state.place.filter isOwn).toList.map fun place =>
      ⟨place.life, use, baseOffset⟩ }

def noteLog (state : Recreation) (use : FileUse) (baseOffset : Int) : Recreation :=
  state.note use baseOffset fun place => (place.logs.find? baseOffset).any (·.isOwn)

def noteIndex (state : Recreation) (use : FileUse) (baseOffset : Int) : Recreation :=
  state.note use baseOffset fun place => (place.indexes.find? baseOffset).any (·.isOwn)

/-- What opening the `.log` at the path yields: nothing when it is not there. -/
def readLog (state : Recreation) (baseOffset : Int) : Option Bytes := do
  let place ← state.place
  let log ← state.hosted tp
  place.bytesAt log baseOffset

def readIndex (state : Recreation) (baseOffset : Int) : Option OffsetIndex := do
  let place ← state.place
  let log ← state.hosted tp
  place.indexAt log baseOffset

def mapped (state : Recreation) (log : Log) (nowMs : Int) (dirty : DirtyMap)
    (captured : List CapturedSegment) : Recreation :=
  if dirty.map.entries.length = 0 then state.goto .ended
  else
    state.goto (.checking
      ⟨⟨some dirty.map, nowMs, log.config.compaction.deleteRetentionMs⟩, dirty.mappedThrough, captured⟩)

def mapStep (state : Recreation) (log : Log) (firstDirtyOffset nowMs : Int) (dirty : DirtyMap)
    (captured : List CapturedSegment) : List CapturedSegment → Recreation
  | [] => state.mapped log nowMs dirty captured
  | info :: rest =>
      if info.nextOffset ≤ firstDirtyOffset then
        state.goto (.mapping firstDirtyOffset nowMs dirty captured rest)
      else
        match state.readLog tp info.baseOffset with
        | none => state.goto .ended
        | some contents =>
            let state := state.noteLog .read info.baseOffset
            match mapDirty firstDirtyOffset dirty
                [⟨info.baseOffset, info.nextOffset, contents, contents.length⟩] with
            | .error _ => state.goto .ended
            | .ok dirty =>
                if dirty.mapFilled then state.mapped log nowMs dirty captured
                else state.goto (.mapping firstDirtyOffset nowMs dirty captured rest)

def checkStep (state : Recreation) (work : PassWork) : Recreation :=
  match work.rest with
  | [] => state.goto .ended
  | info :: rest =>
      if work.mappedThrough ≤ info.baseOffset then state.goto .ended
      else
        match state.readLog tp info.baseOffset with
        | none => state.goto .ended
        | some contents =>
            let state := state.noteLog .read info.baseOffset
            match wouldDropAnything contents work.rules with
            | .error _ => state.goto .ended
            | .ok false => state.goto (.checking { work with rest := rest })
            | .ok true => state.goto (.creating { work with rest := rest } info.baseOffset)

/-- `rewriteSegment` makes its two files first and opens the segment again then. -/
def createStep (state : Recreation) (log : Log) (work : PassWork) (baseOffset : Int) : Recreation :=
  match state.place with
  | none => state.goto .ended
  | some place =>
      match OffsetIndex.create (segmentIndexPath log.dir baseOffset ++ ".cleaned") baseOffset
          log.config.roll.maxIndexBytes with
      | .error _ => state.goto .ended
      | .ok index =>
          (state.onPlace (·.writeCleaned baseOffset [] index)).goto (.copying work baseOffset place.life)

/-- The two files are open: what is written to them goes to the directory they
were made in, wherever that is by now. -/
def copyStep (state : Recreation) (log : Log) (work : PassWork) (baseOffset : Int) (life : Nat) :
    Recreation :=
  match state.readLog tp baseOffset with
  | none => state.goto .ended
  | some contents =>
      let state := state.noteLog .read baseOffset
      match rewriteSegment log.dir contents baseOffset log.config.roll work.rules with
      | .error _ => state.goto .ended
      | .ok cleaned =>
          (state.onPlace fun place =>
            if place.life = life then place.writeCleaned baseOffset cleaned.log cleaned.index else place).goto
              (if cleaned.empty then .droppingLog work baseOffset else .swappingLog work baseOffset)

def swapLogStep (state : Recreation) (log : Log) (work : PassWork) (baseOffset : Int) : Recreation :=
  if log.sealedMap.any (·.baseOffset == baseOffset) then
    match state.place.bind (·.cleanedLogs baseOffset) with
    | none => state.goto .ended
    | some bytes =>
        ((state.noteLog .replaced baseOffset).onPlace fun place =>
          { place with
            logs := place.logs.insert baseOffset (.put bytes)
            cleanedLogs := Function.update place.cleanedLogs baseOffset none }).goto
              (.swappingIndex work baseOffset)
  else (state.onPlace (·.discardCleaned baseOffset)).goto (.checking work)

def swapIndexStep (state : Recreation) (work : PassWork) (baseOffset : Int) : Recreation :=
  match state.place.bind (·.cleanedIndexes baseOffset) with
  | none => state.goto .ended
  | some index =>
      ((state.noteIndex .replaced baseOffset).onPlace fun place =>
        { place with
          indexes := place.indexes.insert baseOffset (.put index)
          cleanedIndexes := Function.update place.cleanedIndexes baseOffset none }).goto
            (.reopening work baseOffset)

/-- The end of `Log::replaceSegment`: what the path leads to is opened. -/
def reopenStep (state : Recreation) (log : Log) (work : PassWork) (baseOffset : Int) : Recreation :=
  match state.readLog tp baseOffset, state.readIndex tp baseOffset with
  | some bytes, some index =>
      let state := (state.noteLog .read baseOffset).noteIndex .read baseOffset
      match log.replaceSegment baseOffset bytes index work.rules.nowMs with
      | .returned _ log => (state.setHeld tp log).goto (.checking work)
      | .threw _ log => (state.setHeld tp log).goto .ended
      | .ruined _ => state.goto .ended
  | _, _ => state.goto .ended

/-- The cleaned files go, and `Log::removeSegment` unlinks the `.log` it knows. -/
def dropLogStep (state : Recreation) (log : Log) (work : PassWork) (baseOffset : Int) : Recreation :=
  let state := state.onPlace (·.discardCleaned baseOffset)
  if log.sealedMap.any (·.baseOffset == baseOffset) then
    ((state.noteLog .deleted baseOffset).onPlace fun place =>
      { place with logs := place.logs.erase baseOffset }).goto (.droppingIndex work baseOffset)
  else state.goto (.checking work)

def dropIndexStep (state : Recreation) (log : Log) (work : PassWork) (baseOffset : Int) : Recreation :=
  (((state.noteIndex .deleted baseOffset).onPlace fun place =>
    { place with indexes := place.indexes.erase baseOffset }).setHeld tp
      (log.removeSegment baseOffset work.rules.nowMs).2).goto (.checking work)

def passStep (state : Recreation) : Option Recreation :=
  match state.held tp with
  | none => none
  | some log =>
      match state.pass with
      | .idle | .ended => none
      | .holding maxKeyMapEntries firstDirtyOffset nowMs =>
          let captured := log.sealedSegments.map fun info => ⟨info.baseOffset, info.nextOffset⟩
          if captured.isEmpty then some (state.goto .ended)
          else
            some (state.goto (.mapping firstDirtyOffset nowMs
              ⟨⟨maxKeyMapEntries, []⟩, firstDirtyOffset, false⟩ captured captured))
      | .mapping firstDirtyOffset nowMs dirty captured rest =>
          some (state.mapStep tp log firstDirtyOffset nowMs dirty captured rest)
      | .checking work => some (state.checkStep tp work)
      | .creating work baseOffset => some (state.createStep log work baseOffset)
      | .copying work baseOffset life => some (state.copyStep tp log work baseOffset life)
      | .swappingLog work baseOffset => some (state.swapLogStep log work baseOffset)
      | .swappingIndex work baseOffset => some (state.swapIndexStep work baseOffset)
      | .reopening work baseOffset => some (state.reopenStep tp log work baseOffset)
      | .droppingLog work baseOffset => some (state.dropLogStep log work baseOffset)
      | .droppingIndex work baseOffset => some (state.dropIndexStep tp log work baseOffset)

/-- The log after a call, and the files a roll has made. -/
def grown (state : Recreation) (before after : Log) : Recreation :=
  { state with
    manager := state.manager.put tp after
    place := state.place.map (·.grow before after) }

/-- Whether a roll now would come upon a file under the name of the new segment. -/
def blocked (state : Recreation) (log : Log) (nowMs : Int) : Bool :=
  log.active.shouldRoll nowMs &&
    state.place.any fun place => (place.logs.find? log.active.nextOffset).isSome

end Steps

end Recreation

inductive RecreationAction where
  | append (batchBytes : Bytes) (rollMs clockMs : Int)
  | maybeRoll (nowMs : Int)
  | removePartition (nowMs : Int)
  | createPartition (config : LogConfig)
  | beginPass (maxKeyMapEntries : Nat) (firstDirtyOffset nowMs : Int)
  | passStep

namespace Recreation

/-- A refused call changes nothing; a roll that throws on the new file is one. -/
def step (tp : TopicPartition) : RecreationAction → Recreation → Option Recreation
  | .append batchBytes rollMs clockMs, state => do
      let log ← state.hosted tp
      if state.blocked log rollMs then return state
      else
        match log.append batchBytes rollMs clockMs none with
        | .returned offset next =>
            return { state.grown tp log next with
              appended := state.appended ++ [stamped batchBytes offset] }
        | .threw _ next => return state.grown tp log next
        | .ruined _ => none
  | .maybeRoll nowMs, state => do
      let log ← state.hosted tp
      if state.blocked log nowMs then return state
      else
        match log.maybeRoll nowMs with
        | .returned _ next => return state.grown tp log next
        | .threw _ next => return state.grown tp log next
        | .ruined _ => none
  | .removePartition nowMs, state =>
      match state.manager.removePartition tp nowMs with
      | .error _ => some state
      | .ok manager =>
          some { state with manager := manager, place := none, former := state.held tp }
  | .createPartition config, state =>
      match state.manager.createPartition tp config with
      | .error _ => some state
      | .ok manager =>
          some { state with
            manager := manager
            place := (manager.get tp).map (.hosting state.lives)
            lives := state.lives + 1
            appended := [] }
  | .beginPass maxKeyMapEntries firstDirtyOffset nowMs, state =>
      if !state.pass.running && state.place.any (·.life == 0) then
        some (state.goto (.holding maxKeyMapEntries firstDirtyOffset nowMs))
      else none
  | .passStep, state => state.passStep tp

end Recreation

/-- Whole batches without failures, and configurations that can be stored. -/
def RecreationAction.Plain : RecreationAction → Prop
  | .append batchBytes _ _ => IntactBatch batchBytes
  | .createPartition config => config.Storable
  | _ => True

/-- The partition is not made again as long as a pass holds the log it had. -/
def Recreation.Apart (state : Recreation) : RecreationAction → Prop
  | .createPartition _ => state.pass.running = false
  | _ => True

/-- The log holds these batches, and a read finds the one that an offset is in. -/
def Log.Has (log : Log) (batches : List Bytes) : Prop := log.batches = batches ∧ log.ReadsOn

/-- The pass has used no file of a later life, and in a later life everything
appended is readable, now and after a restart. -/
structure Recreation.LeftAlone (tp : TopicPartition) (state : Recreation) : Prop where
  untouched : ∀ touch ∈ state.touched, touch.life = 0
  kept : ∀ place ∈ state.place, place.life ≠ 0 → ∃ log, state.hosted tp = some log ∧
    log.Has state.appended ∧ ∀ fallback clockMs, ∃ reopened,
      Log.open tp log.dir (place.files log) fallback clockMs = .ok reopened ∧ reopened.Has state.appended

/-- What the steps of a pass leave as it is, and whose files they use. -/
structure Stays (before after : Recreation) : Prop where
  life : after.place.map (·.life) = before.place.map (·.life)
  touched : ∀ touch ∈ after.touched,
    touch ∈ before.touched ∨ before.place.map (·.life) = some touch.life

section Stays

variable {before state : Recreation}

theorem Stays.refl (state : Recreation) : Stays state state := ⟨rfl, fun _ => .inl⟩

theorem Stays.goto (stays : Stays before state) (pass : PassAt) : Stays before (state.goto pass) :=
  ⟨stays.life, stays.touched⟩

theorem Stays.onPlace (stays : Stays before state) {change : Place → Place}
    (same : ∀ place, (change place).life = place.life) : Stays before (state.onPlace change) where
  life := by
    rw [← stays.life]
    simp only [Recreation.onPlace, Option.map_map]
    congr 1
    funext place
    exact same place
  touched := stays.touched

theorem Stays.note (stays : Stays before state) (use : FileUse) (baseOffset : Int)
    (isOwn : Place → Bool) : Stays before (state.note use baseOffset isOwn) where
  life := stays.life
  touched := by
    intro touch member
    rcases List.mem_append.mp member with earlier | new
    · exact stays.touched touch earlier
    · obtain ⟨place, isThere, rfl⟩ := List.mem_map.mp new
      obtain ⟨stands, _⟩ := Option.mem_filter_iff.mp (Option.mem_toList.mp isThere)
      right
      rw [← stays.life, Option.mem_def.mp stands]
      rfl

theorem Stays.setHeld (stays : Stays before state) (tp : TopicPartition) (log : Log) :
    Stays before (state.setHeld tp log) := by
  unfold Recreation.setHeld
  cases state.former <;> exact ⟨stays.life, stays.touched⟩

theorem Stays.mapped (stays : Stays before state) (log : Log) (nowMs : Int) (dirty : DirtyMap)
    (captured : List CapturedSegment) : Stays before (state.mapped log nowMs dirty captured) := by
  unfold Recreation.mapped
  split <;> exact stays.goto _

variable (state) (tp : TopicPartition)

theorem stays_map_step (log : Log) (firstDirtyOffset nowMs : Int) (dirty : DirtyMap)
    (captured rest : List CapturedSegment) :
    Stays state (state.mapStep tp log firstDirtyOffset nowMs dirty captured rest) := by
  have same := Stays.refl state
  unfold Recreation.mapStep
  cases rest with
  | nil => exact same.mapped _ _ _ _
  | cons info rest =>
      simp only
      split
      · exact same.goto _
      cases state.readLog tp info.baseOffset with
      | none => exact same.goto _
      | some contents =>
          have noted : Stays state (state.noteLog .read info.baseOffset) := same.note _ _ _
          simp only
          split
          · exact noted.goto _
          split
          · exact noted.mapped _ _ _ _
          · exact noted.goto _

theorem stays_check_step (work : PassWork) : Stays state (state.checkStep tp work) := by
  have same := Stays.refl state
  unfold Recreation.checkStep
  cases work.rest with
  | nil => exact same.goto _
  | cons info rest =>
      simp only
      split
      · exact same.goto _
      cases state.readLog tp info.baseOffset with
      | none => exact same.goto _
      | some contents =>
          have noted : Stays state (state.noteLog .read info.baseOffset) := same.note _ _ _
          simp only
          split <;> exact noted.goto _

theorem stays_create_step (log : Log) (work : PassWork) (baseOffset : Int) :
    Stays state (state.createStep log work baseOffset) := by
  have same := Stays.refl state
  unfold Recreation.createStep
  split
  · exact same.goto _
  split
  · exact same.goto _
  · apply Stays.goto
    exact same.onPlace fun _ => rfl

theorem stays_copy_step (log : Log) (work : PassWork) (baseOffset : Int) (life : Nat) :
    Stays state (state.copyStep tp log work baseOffset life) := by
  have same := Stays.refl state
  unfold Recreation.copyStep
  cases state.readLog tp baseOffset with
  | none => exact same.goto _
  | some contents =>
      have noted : Stays state (state.noteLog .read baseOffset) := same.note _ _ _
      simp only
      split
      · exact noted.goto _
      · apply Stays.goto
        apply noted.onPlace
        intro place
        split <;> rfl

theorem stays_swap_log_step (log : Log) (work : PassWork) (baseOffset : Int) :
    Stays state (state.swapLogStep log work baseOffset) := by
  have same := Stays.refl state
  unfold Recreation.swapLogStep
  split
  · split
    · exact same.goto _
    · have noted : Stays state (state.noteLog .replaced baseOffset) := same.note _ _ _
      apply Stays.goto
      exact noted.onPlace fun _ => rfl
  · apply Stays.goto
    exact same.onPlace fun _ => rfl

theorem stays_swap_index_step (work : PassWork) (baseOffset : Int) :
    Stays state (state.swapIndexStep work baseOffset) := by
  have same := Stays.refl state
  unfold Recreation.swapIndexStep
  split
  · exact same.goto _
  · have noted : Stays state (state.noteIndex .replaced baseOffset) := same.note _ _ _
    apply Stays.goto
    exact noted.onPlace fun _ => rfl

theorem stays_reopen_step (log : Log) (work : PassWork) (baseOffset : Int) :
    Stays state (state.reopenStep tp log work baseOffset) := by
  have same := Stays.refl state
  have noted : Stays state ((state.noteLog .read baseOffset).noteIndex .read baseOffset) :=
    (same.note _ _ _).note _ _ _
  unfold Recreation.reopenStep
  split
  · simp only
    split
    · exact (noted.setHeld _ _).goto _
    · exact (noted.setHeld _ _).goto _
    · exact noted.goto _
  · exact same.goto _

theorem stays_drop_log_step (log : Log) (work : PassWork) (baseOffset : Int) :
    Stays state (state.dropLogStep log work baseOffset) := by
  have discarded : Stays state (state.onPlace (·.discardCleaned baseOffset)) :=
    (Stays.refl state).onPlace fun _ => rfl
  unfold Recreation.dropLogStep
  simp only
  split
  · have noted := discarded.note .deleted baseOffset fun place =>
      (place.logs.find? baseOffset).any (·.isOwn)
    apply Stays.goto
    exact noted.onPlace fun _ => rfl
  · exact discarded.goto _

theorem stays_drop_index_step (log : Log) (work : PassWork) (baseOffset : Int) :
    Stays state (state.dropIndexStep tp log work baseOffset) := by
  have noted : Stays state (state.noteIndex .deleted baseOffset) := (Stays.refl state).note _ _ _
  apply Stays.goto
  apply Stays.setHeld
  exact noted.onPlace fun _ => rfl

end Stays

/-- A step of a pass is one of a running pass, and uses only the files of the
life whose directory is at the path. -/
theorem pass_step_stays {tp : TopicPartition} {state next : Recreation}
    (taken : state.passStep tp = some next) : state.pass.running = true ∧ Stays state next := by
  unfold Recreation.passStep at taken
  cases isHeld : state.held tp with
  | none =>
      rw [isHeld] at taken
      cases taken
  | some log =>
      rw [isHeld] at taken
      cases phase : state.pass with
      | idle => simp [phase] at taken
      | ended => simp [phase] at taken
      | holding maxKeyMapEntries firstDirtyOffset nowMs =>
          simp only [phase] at taken
          refine ⟨rfl, ?_⟩
          split at taken <;> cases taken <;> exact (Stays.refl state).goto _
      | mapping firstDirtyOffset nowMs dirty captured rest =>
          simp only [phase] at taken
          cases taken
          exact ⟨rfl, stays_map_step _ _ _ _ _ _ _ _⟩
      | checking work =>
          simp only [phase] at taken
          cases taken
          exact ⟨rfl, stays_check_step _ _ _⟩
      | creating work baseOffset =>
          simp only [phase] at taken
          cases taken
          exact ⟨rfl, stays_create_step _ _ _ _⟩
      | copying work baseOffset life =>
          simp only [phase] at taken
          cases taken
          exact ⟨rfl, stays_copy_step _ _ _ _ _ _⟩
      | swappingLog work baseOffset =>
          simp only [phase] at taken
          cases taken
          exact ⟨rfl, stays_swap_log_step _ _ _ _⟩
      | swappingIndex work baseOffset =>
          simp only [phase] at taken
          cases taken
          exact ⟨rfl, stays_swap_index_step _ _ _⟩
      | reopening work baseOffset =>
          simp only [phase] at taken
          cases taken
          exact ⟨rfl, stays_reopen_step _ _ _ _ _⟩
      | droppingLog work baseOffset =>
          simp only [phase] at taken
          cases taken
          exact ⟨rfl, stays_drop_log_step _ _ _ _⟩
      | droppingIndex work baseOffset =>
          simp only [phase] at taken
          cases taken
          exact ⟨rfl, stays_drop_index_step _ _ _ _ _⟩

def Log.bases (log : Log) : List Int := log.sealedMap.map (·.baseOffset) ++ [log.active.baseOffset]

/-- The log of a life that no pass has come near, and its directory. -/
structure Kept (tp : TopicPartition) (place : Place) (log : Log) (appended : List Bytes) : Prop where
  settled : LogSettled log
  joined : Linked (· = ·) log.active.baseOffset log.sealedMap
  named : log.tp = tp
  batches : log.batches = appended
  logs : place.logs.entries = log.bases.map (·, .own)
  indexes : place.indexes.entries = log.bases.map (·, .own)

section Kept

variable {tp : TopicPartition} {place : Place} {log next : Log} {appended : List Bytes}

theorem joined_reads_on (settled : LogSettled log)
    (joined : Linked (· = ·) log.active.baseOffset log.sealedMap) : log.ReadsOn := by
  apply (reads_on_iff settled.toLogHolds).mpr
  apply no_gap_of_at
  intro ahead segment behind split _
  rw [split] at joined
  exact linked_meets joined

theorem segment_at_sealed (linked : Linked (· ≤ ·) log.active.baseOffset log.sealedMap)
    {segment : SealedSegment} (member : segment ∈ log.sealedMap) :
    log.segmentAt segment.baseOffset = some segment := by
  have below := linked_below linked member
  obtain ⟨ahead, behind, split⟩ := List.append_of_mem member
  rw [split] at linked
  rw [Log.segmentAt, if_neg (by omega), split]
  exact find_in_order (linked_distinct linked).1

theorem own_files {base : Int} {segment : SegmentBase} (kept : Kept tp place log appended)
    (inside : base ∈ log.bases) (found : log.segmentAt base = some segment) :
    place.bytesAt log base = some segment.log.bytes ∧ place.indexAt log base = some segment.index := by
  have logs : place.logs.find? base = some .own := by
    rw [← OrderedMap.mem_entries, kept.logs]
    exact List.mem_map_of_mem inside
  have indexes : place.indexes.find? base = some .own := by
    rw [← OrderedMap.mem_entries, kept.indexes]
    exact List.mem_map_of_mem inside
  constructor
  · rw [Place.bytesAt, logs, found]
    rfl
  · rw [Place.indexAt, indexes, found]
    rfl

theorem kept_files (kept : Kept tp place log appended) : place.files log = log.files := by
  have each : ∀ segment : SegmentBase, segment.baseOffset ∈ log.bases →
      log.segmentAt segment.baseOffset = some segment →
      (place.bytesAt log segment.baseOffset).map (fun bytes =>
        SegmentFiles.mk segment.baseOffset bytes (place.indexAt log segment.baseOffset)) =
        some segment.files := by
    intro segment inside found
    obtain ⟨bytes, index⟩ := own_files kept inside found
    rw [bytes, index]
    rfl
  have active : log.segmentAt log.active.baseOffset = some log.active.toSegmentBase := if_pos rfl
  have last := each log.active.toSegmentBase (by simp [Log.bases]) active
  have front : log.sealedMap.filterMap (fun segment => (place.bytesAt log segment.baseOffset).map
      fun bytes => SegmentFiles.mk segment.baseOffset bytes (place.indexAt log segment.baseOffset)) =
      log.sealedMap.map SegmentBase.files := by
    rw [← List.filterMap_eq_map]
    apply List.filterMap_congr
    intro segment member
    exact each segment (List.mem_append_left _ (List.mem_map_of_mem member))
      (segment_at_sealed kept.settled.linked member)
  have back : [log.active.baseOffset].filterMap (fun base => (place.bytesAt log base).map
      fun bytes => SegmentFiles.mk base bytes (place.indexAt log base)) =
      [log.active.toSegmentBase.files] := List.filterMap_cons_some last
  simp only [Place.files, Log.files, kept.logs, Log.bases, List.filterMap_map, List.map_append,
    List.filterMap_append]
  congr 1
  exact congrArg₂ _ front back

theorem kept_left_alone (kept : Kept tp place log appended) :
    log.Has appended ∧ ∀ fallback clockMs, ∃ reopened,
      Log.open tp log.dir (place.files log) fallback clockMs = .ok reopened ∧
        reopened.Has appended := by
  refine ⟨⟨kept.batches, joined_reads_on kept.settled kept.joined⟩, ?_⟩
  intro fallback clockMs
  obtain ⟨reopened, opened, settled, batches, _, _, _, _, config, base, same⟩ :=
    open_spec kept.settled.toLogHolds kept.settled.endsClean fallback clockMs
  have joined : Linked (· = ·) log.active.baseOffset reopened.sealedMap :=
    (same_linked same).mpr kept.joined
  have occupied : ∀ segment ∈ reopened.sealedMap, segment.baseOffset < segment.nextOffset :=
    fun segment member => (linked_below settled.linked member).1
  have checked := (check_contiguity_ok log.dir log.config.reloaded occupied).mpr
    (linked_mono (fun ends begins (same : ends = begins) => by split <;> simp [same]) joined)
  refine ⟨reopened, ?_, batches.trans kept.batches, joined_reads_on settled (base ▸ joined)⟩
  rw [kept_files kept, ← kept.named, opened, checked]
  rfl

/-- What an append or a roll makes of the log and the directory. -/
theorem kept_grow (kept : Kept tp place log appended) (settled : LogSettled next) (named : next.tp = log.tp)
    (grows : Grows log next) : Kept tp (place.grow log next) next next.batches := by
  have fresh : ∀ base ∈ log.bases, base ≤ log.active.baseOffset := by
    intro base member
    rcases List.mem_append.mp member with inMap | last
    · obtain ⟨segment, inside, rfl⟩ := List.mem_map.mp inMap
      have below := linked_below kept.settled.linked inside
      omega
    · rw [List.mem_singleton.mp last]
  have joined := grows.joined kept.joined
  cases grows with
  | kept same base =>
      have bases : next.bases = log.bases := by rw [Log.bases, Log.bases, same, base]
      rw [Place.grow, if_pos base]
      refine ⟨settled, joined, named.trans kept.named, rfl, ?_, ?_⟩
      · rw [bases]
        exact kept.logs
      · rw [bases]
        exact kept.indexes
  | rolled segment grown base spans begins =>
      have bases : next.bases = log.bases ++ [next.active.baseOffset] := by
        simp only [Log.bases, grown, List.map_append, List.map_cons, List.map_nil, base]
      have behind : ∀ {α : Type} (map : OrderedMap Int (FileAt α)), map.entries = log.bases.map (·, .own) →
          (map.insert next.active.baseOffset .own).entries = next.bases.map (·, .own) := by
        intro α map entries
        rw [bases, List.map_append, ← entries]
        apply OrderedMap.insert_entry_behind
        intro entry member
        rw [entries] at member
        obtain ⟨other, inside, rfl⟩ := List.mem_map.mp member
        have below := fresh other inside
        simp only
        omega
      rw [Place.grow, if_neg (by omega)]
      exact ⟨settled, joined, named.trans kept.named, rfl, behind _ kept.logs, behind _ kept.indexes⟩

theorem append_kept (kept : Kept tp place log appended) {batchBytes : Bytes} (intact : IntactBatch batchBytes)
    (rollMs clockMs : Int) :
    (∃ next, log.append batchBytes rollMs clockMs none = .returned log.logEndOffset next ∧
      Kept tp (place.grow log next) next (appended ++ [stamped batchBytes log.logEndOffset])) ∨
    ∃ failure next, log.append batchBytes rollMs clockMs none = .threw failure next ∧
      Kept tp (place.grow log next) next appended := by
  have clean := kept.settled.rollsClean rollMs
  have plain : (LogAction.append batchBytes rollMs clockMs none).Plain := ⟨intact, rfl⟩
  have follows : ∀ next, (log.append batchBytes rollMs clockMs none).log = some next →
      next.tp = log.tp → Kept tp (place.grow log next) next next.batches := by
    intro next appends named
    have settled := (settled_step kept.settled plain appends).1
    exact kept_grow kept settled named (append_grows kept.settled.toLogHolds intact clean appends)
  rcases settled_append kept.settled intact rollMs clockMs with
    ⟨next, returned, named, _, batches, _⟩ | ⟨failure, next, threw, named, batches, _⟩
  · refine .inl ⟨next, returned, ?_⟩
    rw [← kept.batches, ← batches]
    exact follows next (congrArg Outcome.log returned) named
  · refine .inr ⟨failure, next, threw, ?_⟩
    rw [← kept.batches, ← batches]
    exact follows next (congrArg Outcome.log threw) named

theorem roll_kept (kept : Kept tp place log appended) (nowMs : Int) :
    ∃ next, log.maybeRoll nowMs = .returned () next ∧ Kept tp (place.grow log next) next appended := by
  have clean := kept.settled.rollsClean nowMs
  obtain ⟨next, moved, _, same, batches, _, settles⟩ := maybe_roll_spec kept.settled.toLogHolds
    (fun rolls => (clean rolls).1) (fun rolls => (clean rolls).2)
  have grown := kept_grow kept (settles kept.settled) same.tp (roll_grows kept.settled.toLogHolds clean moved)
  rw [batches, kept.batches] at grown
  exact ⟨next, moved, grown⟩

theorem created_kept {dir : String} {config : LogConfig} (named : StorableName tp)
    (storable : config.Storable) (made : Log.create tp dir config = .ok log) (life : Nat) :
    Kept tp (.hosting life log) log [] := by
  obtain ⟨settled, batches, unsealed, same, _⟩ := create_spec named storable made
  refine ⟨settled, by rw [unsealed]; trivial, same, batches, ?_, ?_⟩
  · simp only [Place.hosting, Log.bases, unsealed]
    rfl
  · simp only [Place.hosting, Log.bases, unsealed]
    rfl

end Kept

/-- The invariant of runs in which the partition is not made again under a pass. -/
structure RecreationHolds (tp : TopicPartition) (state : Recreation) : Prop where
  touched : ∀ touch ∈ state.touched, touch.life = 0
  apart : ∀ place ∈ state.place, place.life ≠ 0 → state.pass.running = false
  kept : ∀ place ∈ state.place, place.life ≠ 0 →
    ∃ log, state.hosted tp = some log ∧ Kept tp place log state.appended

section Manager

variable {tp : TopicPartition} {manager next : LogManager} {log : Log}

theorem get_put_same (isHosted : manager.get tp = some log) (after : Log) :
    (manager.put tp after).get tp = some after := by
  rw [LogManager.get_put, if_pos rfl, isHosted]
  rfl

theorem get_created {config : LogConfig} (created : manager.createPartition tp config = .ok next) :
    ∃ log, next.get tp = some log ∧ Log.create tp (manager.partitionDir tp) config = .ok log := by
  obtain ⟨_, usable, rest⟩ := except_bind_ok created
  split at rest
  · cases rest
  · next absent =>
    obtain ⟨log, made, result⟩ := except_bind_ok rest
    cases Except.ok.inj result
    refine ⟨log, ?_, made⟩
    have missing : manager.logs.find? (·.1 = tp) = none := by
      rw [LogManager.get, Option.isSome_map] at absent
      exact Option.not_isSome_iff_eq_none.mp absent
    simp [LogManager.get, List.find?_append, missing]

end Manager

/-- A call on the hosted log keeps the invariant when it keeps the log. -/
theorem grown_holds {tp : TopicPartition} {state : Recreation} {log next : Log} {appended : List Bytes}
    (holds : RecreationHolds tp state) (isHosted : state.hosted tp = some log)
    (kept : ∀ place, Kept tp place log state.appended → Kept tp (place.grow log next) next appended) :
    RecreationHolds tp { state.grown tp log next with appended := appended } := by
  have sameLife : ∀ place : Place, (place.grow log next).life = place.life := by
    intro place
    unfold Place.grow
    split <;> rfl
  refine ⟨holds.touched, ?_, ?_⟩
  · intro place stands later
    obtain ⟨before, stood, rfl⟩ := Option.map_eq_some_iff.mp stands
    exact holds.apart before stood (sameLife before ▸ later)
  · intro place stands later
    obtain ⟨before, stood, rfl⟩ := Option.map_eq_some_iff.mp stands
    obtain ⟨_, same, keeps⟩ := holds.kept before stood (sameLife before ▸ later)
    rw [isHosted] at same
    cases same
    exact ⟨next, get_put_same isHosted next, kept before keeps⟩

theorem recreation_step {tp : TopicPartition} (named : StorableName tp) {state next : Recreation}
    {action : RecreationAction} (holds : RecreationHolds tp state) (plain : action.Plain)
    (apart : state.Apart action) (taken : Recreation.step tp action state = some next) :
    RecreationHolds tp next := by
  cases action with
  | append batchBytes rollMs clockMs =>
      obtain ⟨log, isHosted, rest⟩ := Option.bind_eq_some_iff.mp taken
      split at rest
      · cases rest
        exact holds
      split at rest
      · next offset after returned =>
        cases rest
        apply grown_holds holds isHosted
        intro place kept
        rcases append_kept kept plain rollMs clockMs with ⟨_, again, grown⟩ | ⟨_, _, threw, _⟩
        · rw [returned] at again
          cases again
          exact grown
        · rw [returned] at threw
          cases threw
      · next failure after threw =>
        cases rest
        apply grown_holds holds isHosted
        intro place kept
        rcases append_kept kept plain rollMs clockMs with ⟨_, returned, _⟩ | ⟨_, _, again, grown⟩
        · rw [threw] at returned
          cases returned
        · rw [threw] at again
          cases again
          exact grown
      · cases rest
  | maybeRoll nowMs =>
      obtain ⟨log, isHosted, rest⟩ := Option.bind_eq_some_iff.mp taken
      split at rest
      · cases rest
        exact holds
      have keeps : ∀ outcome after, log.maybeRoll nowMs = outcome → outcome.log = some after →
          RecreationHolds tp (state.grown tp log after) := by
        intro outcome after rolls ends
        apply grown_holds holds isHosted
        intro place kept
        obtain ⟨_, moved, grown⟩ := roll_kept kept nowMs
        rw [← rolls, moved] at ends
        cases ends
        exact grown
      split at rest
      · next after rolls =>
        cases rest
        exact keeps _ _ rolls rfl
      · next failure after rolls =>
        cases rest
        exact keeps _ _ rolls rfl
      · cases rest
  | removePartition nowMs =>
      simp only [Recreation.step] at taken
      split at taken
      · cases taken
        exact holds
      · cases taken
        exact ⟨holds.touched, by simp, by simp⟩
  | createPartition config =>
      simp only [Recreation.step] at taken
      split at taken
      · cases taken
        exact holds
      · next manager created =>
        cases taken
        obtain ⟨log, isHosted, made⟩ := get_created created
        refine ⟨holds.touched, fun _ _ _ => apart, ?_⟩
        intro place stands _
        simp only [isHosted, Option.map_some, Option.mem_some_iff] at stands
        subst stands
        exact ⟨log, isHosted, created_kept named plain made _⟩
  | beginPass maxKeyMapEntries firstDirtyOffset nowMs =>
      simp only [Recreation.step] at taken
      split at taken
      · next first =>
        cases taken
        refine ⟨holds.touched, ?_, holds.kept⟩
        intro place stands later
        have isFirst := (Bool.and_eq_true_iff.mp first).2
        have stood : state.place = some place := stands
        rw [stood] at isFirst
        exact absurd (by simpa using isFirst) later
      · cases taken
  | passStep =>
      obtain ⟨running, stays⟩ := pass_step_stays taken
      have first : ∀ life, state.place.map (·.life) = some life → life = 0 := by
        intro life same
        obtain ⟨place, stands, rfl⟩ := Option.map_eq_some_iff.mp same
        by_contra later
        have resting := holds.apart place stands later
        rw [running] at resting
        cases resting
      have old : ∀ place ∈ next.place, place.life = 0 := by
        intro place stands
        apply first
        rw [← stays.life, Option.mem_def.mp stands]
        rfl
      refine ⟨?_, fun place stands later => absurd (old place stands) later,
        fun place stands later => absurd (old place stands) later⟩
      intro touch member
      rcases stays.touched touch member with earlier | here
      · exact holds.touched touch earlier
      · exact first _ here

/-- As long as the partition is not made again while a pass holds the log it
had, no pass uses a file of a later life, and nothing appended there is lost. -/
theorem pass_leaves_recreated_alone {tp : TopicPartition} (named : StorableName tp)
    {manager : LogManager} {log : Log} {final : Recreation}
    (reached : GuardedRun.Reaches (Recreation.step tp)
      (fun state action => action.Plain ∧ state.Apart action) (.start manager log) final) :
    final.LeftAlone tp := by
  have holds := reached.invariant (Recreation.step tp) _ (RecreationHolds tp)
    ⟨by simp [Recreation.start], by simp [Recreation.start, Place.hosting],
      by simp [Recreation.start, Place.hosting]⟩
    fun state action next holds ⟨plain, apart⟩ taken => recreation_step named holds plain apart taken
  refine ⟨holds.touched, ?_⟩
  intro place stands later
  obtain ⟨log, isHosted, kept⟩ := holds.kept place stands later
  exact ⟨log, isHosted, kept_left_alone kept⟩

section Runs

instance (action : RecreationAction) : Decidable action.Plain :=
  match action with
  | .append batchBytes _ _ => inferInstanceAs (Decidable (IntactBatch batchBytes))
  | .createPartition config => decidable_of_iff
      (config.roll.maxSegmentBytes < 2 ^ 64 ∧ FitsSigned 64 config.roll.maxSegmentAgeMs ∧
        config.roll.indexIntervalBytes < 2 ^ 64 ∧ config.roll.maxIndexBytes < 2 ^ 64 ∧
        FitsSigned 64 config.retention.retentionMs ∧
        (∀ limit ∈ config.retention.retentionBytes, limit < 2 ^ 64) ∧
        FitsSigned 64 config.retention.segmentDeleteDelayMs ∧
        FitsSigned 64 config.compaction.deleteRetentionMs)
      ⟨fun ⟨bytes, age, interval, index, ms, limit, delay, tombstones⟩ =>
          ⟨bytes, age, interval, index, ms, limit, delay, tombstones⟩,
        fun storable => ⟨storable.maxSegmentBytes, storable.maxSegmentAgeMs, storable.indexIntervalBytes,
          storable.maxIndexBytes, storable.retentionMs, storable.retentionBytes,
          storable.segmentDeleteDelayMs, storable.deleteRetentionMs⟩⟩
  | .maybeRoll _ | .removePartition _ | .beginPass _ _ _ | .passStep => inferInstanceAs (Decidable True)

instance (state : Recreation) (action : RecreationAction) : Decidable (state.Apart action) :=
  match action with
  | .createPartition _ => inferInstanceAs (Decidable (state.pass.running = false))
  | .append _ _ _ | .maybeRoll _ | .removePartition _ | .beginPass _ _ _ | .passStep =>
      inferInstanceAs (Decidable True)

def Recreation.hosting (tp : TopicPartition) (log : Log) : Recreation :=
  .start ⟨"data", {}, [(tp, log)], []⟩ log

def mappedPass : List RecreationAction :=
  let batch := recordBatchOf 10 (some [97]) (some [118])
  [.append batch 0 0, .append batch 0 0, .maybeRoll 0, .append batch 0 0, .append batch 0 0, .maybeRoll 0,
    .beginPass 10 0 1000, .passStep, .passStep, .passStep, .passStep]

def madeAgain : List RecreationAction :=
  let batch := recordBatchOf 10 (some [97]) (some [118])
  [.createPartition { twoBatchConfig with cleanup := .compact }, .append batch 0 0, .append batch 0 0,
    .maybeRoll 0, .append batch 0 0]

/-- The pass finds no file after the removal, and ends before the creation. -/
theorem pass_leaves_recreated_alone_ended :
    ∃ (created : Log) (final : Recreation),
      Log.create ⟨[116], 0⟩ "data/t-0" { twoBatchConfig with cleanup := .compact } = .ok created ∧
        final.appended.length = 3 ∧ final.LeftAlone ⟨[116], 0⟩ := by
  obtain ⟨created, final, made, reached, three⟩ := found_from_creation
    (Recreation.step ⟨[116], 0⟩) (fun state action => action.Plain ∧ state.Apart action)
    (Recreation.hosting ⟨[116], 0⟩) ⟨[116], 0⟩ "data/t-0" { twoBatchConfig with cleanup := .compact }
    (fun state => state.appended.length == 3)
    (mappedPass ++ [.removePartition 1000, .passStep] ++ madeAgain) (by decide +kernel)
  exact ⟨created, final, made, by simpa using three,
    pass_leaves_recreated_alone ⟨by decide, by decide, by decide, by decide⟩ reached⟩

/-- What a restart finds of a later life, if there is one. -/
def Recreation.survives (tp : TopicPartition) (state : Recreation) : Option Bool := do
  let place ← state.place
  let log ← state.hosted tp
  let reopened ← (Log.open tp log.dir (place.files log) {} 0).toOption
  return place.life == 0 || reopened.batches == state.appended

theorem left_alone_survives {tp : TopicPartition} {state : Recreation} (alone : state.LeftAlone tp) :
    (state.survives tp != some false) = true := by
  have survives : ∀ answer ∈ state.survives tp, answer = true := by
    intro answer given
    obtain ⟨place, stands, rest⟩ := Option.bind_eq_some_iff.mp given
    obtain ⟨log, isHosted, rest⟩ := Option.bind_eq_some_iff.mp rest
    obtain ⟨reopened, opened, result⟩ := Option.bind_eq_some_iff.mp rest
    cases Option.some.inj result
    by_cases first : place.life = 0
    · simp [first]
    · obtain ⟨_, same, _, opens⟩ := alone.kept place stands first
      rw [isHosted] at same
      cases same
      obtain ⟨_, again, batches, _⟩ := opens {} 0
      rw [again] at opened
      cases opened
      simp [batches]
  cases given : state.survives tp with
  | none => rfl
  | some answer =>
      rw [survives answer given]
      rfl

/-- Made again under the pass: it unlinks the new partition's first segment,
whose keys it has newer offsets of from the old one. -/
theorem pass_deletes_recreated_segment :
    ¬ ∀ (tp : TopicPartition) (manager : LogManager) (log : Log) (final : Recreation), StorableName tp →
      GuardedRun.Reaches (Recreation.step tp) (fun _ action => action.Plain) (.start manager log) final →
      final.LeftAlone tp := by
  intro all
  refine refuted_from_creation (Recreation.step ⟨[116], 0⟩) (fun _ action => action.Plain)
    (Recreation.hosting ⟨[116], 0⟩) ⟨[116], 0⟩ "data/t-0" { twoBatchConfig with cleanup := .compact }
    (Recreation.LeftAlone ⟨[116], 0⟩) (fun state => state.survives ⟨[116], 0⟩ != some false)
    (fun state => left_alone_survives)
    (mappedPass ++ [.removePartition 1000] ++ madeAgain ++
      [.passStep, .passStep, .passStep, .passStep, .passStep]) (by decide +kernel) ?_
  intro created final made reached
  exact all ⟨[116], 0⟩ _ created final ⟨by decide, by decide, by decide, by decide⟩ reached

end Runs

end DariyaKyu.Storage

import DariyaKyu.Storage.PartitionMeta

/-!
`storage/log.cpp`: one partition's log, a sequence of sealed segments and one
active segment. A member function that can fail leaves a log behind when it
throws, except for a roll that has already given the active segment away: that
log has no active segment left and is unusable. Descriptors are numbered in the
order they are opened and never reused, so a number names one open file.
-/

namespace DariyaKyu.Storage

set_option autoImplicit false

inductive ReadError where
  | none
  | belowLogStart
  | aboveLogEnd
  deriving DecidableEq, Repr

structure ReadResult where
  error : ReadError
  range : FileRange
  deriving DecidableEq, Repr

structure BuriedSegment where
  segment : SealedSegment
  unlinkedAtMs : Int

structure SegmentFiles where
  baseOffset : Int
  bytes : Bytes
  index : Option OffsetIndex

/-- A partition directory: `partition.meta` and the segments by base offset. -/
structure PartitionDir where
  partitionMeta : Option Bytes
  segments : List SegmentFiles

def SegmentBase.files (segment : SegmentBase) : SegmentFiles :=
  ⟨segment.baseOffset, segment.log.bytes, some segment.index⟩

structure Log where
  tp : TopicPartition
  dir : String
  partitionMeta : Option Bytes
  config : LogConfig
  sealedMap : List SealedSegment
  active : ActiveSegment
  graveyard : List BuriedSegment
  logEndOffset : Int
  highWatermark : Int
  nextFd : Nat

inductive Outcome (α : Type) where
  | returned (value : α) (log : Log)
  | threw (failure : Error) (log : Log)
  | ruined (failure : Error)

structure SealedInfo where
  baseOffset : Int
  nextOffset : Int
  contents : Bytes
  sizeBytes : Nat

/-- `map::emplace`: in key order, and nothing happens when the key is there. -/
def emplaceSegment (segment : SealedSegment) : List SealedSegment → List SealedSegment
  | [] => [segment]
  | first :: rest =>
      if segment.baseOffset < first.baseOffset then segment :: first :: rest
      else if segment.baseOffset = first.baseOffset then first :: rest
      else first :: emplaceSegment segment rest

def resolveConfig (dir : String) (tp : TopicPartition) (partitionMeta : Option Bytes)
    (fallback : LogConfig) (hasRecords : Bool) : Except Error (LogConfig × Bytes) :=
  match partitionMeta with
  | some bytes => do
      let found ← decodePartitionMeta bytes
      if found.tp ≠ tp then
        .error (.corruptData s!"partition.meta: {dir}/partition.meta describes {shownBytes found.tp.toBytes} but was found in {shownBytes tp.toBytes} — the directory was copied or renamed")
      else .ok (found.config, bytes)
  | none =>
      if hasRecords then
        .error (.corruptData s!"log {dir}: partition.meta is missing but the partition holds records — its configuration is not derivable from the log, and adopting the caller's would make a guess permanent")
      else .ok (fallback, encodePartitionMeta ⟨tp, fallback⟩)

def openSealedSegments (dir : String) : Nat → List SegmentFiles → Except Error (List SealedSegment)
  | _, [] => .ok []
  | fd, files :: rest => do
      let segment ← SealedSegment.open fd (segmentLogPath dir files.baseOffset) files.baseOffset
        files.bytes files.index
      let segments ← openSealedSegments dir (fd + 1) rest
      return segment :: segments

/-- The hole check of a startup: what counts as a hole depends on the policy. -/
def checkContiguity (dir : String) (config : LogConfig) (newest : Int) :
    List SealedSegment → Except Error Unit
  | [] => .ok ()
  | segment :: rest =>
      let expected := (rest.head?.map (·.baseOffset)).getD newest
      let broken := if config.compacted then decide (expected < segment.nextOffset)
        else segment.nextOffset != expected
      if broken then
        .error (.corruptData (s!"log {dir}: segment {segment.baseOffset} ends at {segment.nextOffset} but the next begins at {expected}" ++
          (if config.compacted then " — segments overlap" else " — a segment file is missing")))
      else checkContiguity dir config newest rest

namespace Log

def ofSegments (tp : TopicPartition) (dir : String) (partitionMeta : Bytes) (config : LogConfig)
    (sealedMap : List SealedSegment) (active : ActiveSegment) (nextFd : Nat) : Log where
  tp := tp
  dir := dir
  partitionMeta := some partitionMeta
  config := config
  sealedMap := sealedMap
  active := active
  graveyard := []
  logEndOffset := active.nextOffset
  highWatermark := active.nextOffset
  nextFd := nextFd

/-- `Log::create` in a directory without segments. -/
def create (tp : TopicPartition) (dir : String) (config : LogConfig) : Except Error Log := do
  let active ← ActiveSegment.create 0 dir 0 config.roll false
  return ofSegments tp dir (encodePartitionMeta ⟨tp, config⟩) config [] active 1

/-- What the log has on disk: buried segments have no directory entry left. -/
def files (log : Log) : PartitionDir where
  partitionMeta := log.partitionMeta
  segments := log.sealedMap.map SegmentBase.files ++ [log.active.toSegmentBase.files]

def «open» (tp : TopicPartition) (dir : String) (files : PartitionDir) (fallback : LogConfig)
    (clockMs : Int) : Except Error Log :=
  match files.segments.getLast? with
  | none => do
      let (config, written) ← resolveConfig dir tp files.partitionMeta fallback false
      let active ← ActiveSegment.create 0 dir 0 config.roll false
      return ofSegments tp dir written config [] active 1
  | some newest => do
      let sealedMap ← openSealedSegments dir 0 files.segments.dropLast
      let hasRecords := !sealedMap.isEmpty || decide (0 < newest.bytes.length)
      let (config, written) ← resolveConfig dir tp files.partitionMeta fallback hasRecords
      checkContiguity dir config newest.baseOffset sealedMap
      let active ← ActiveSegment.recover files.segments.length dir newest.baseOffset newest.bytes
        config.roll none clockMs
      return ofSegments tp dir written config sealedMap active (files.segments.length + 1)

def holdsFile (log : Log) (baseOffset : Int) : Bool :=
  log.active.baseOffset == baseOffset || log.sealedMap.any (·.baseOffset == baseOffset)

def maybeRoll (log : Log) (nowMs : Int) : Outcome Unit :=
  if log.active.shouldRoll nowMs = false then .returned () log
  else
    let base := log.active.nextOffset
    match ActiveSegment.create log.nextFd log.dir base log.config.roll (log.holdsFile base) with
    | .error failure => .threw failure log
    | .ok next =>
        -- `active_` is moved from here: an exception leaves the log without one
        match log.active.sealSegment (log.nextFd + 1) with
        | .error failure => .ruined failure
        | .ok segment =>
            .returned ()
              { log with
                sealedMap := emplaceSegment segment log.sealedMap
                active := next
                nextFd := log.nextFd + 2 }

/-- `Log::append`; the clock is read once for the roll and once by the segment. -/
def append (log : Log) (batchBytes : Bytes) (rollMs clockMs : Int) (fault : Option WriteFault) :
    Outcome Int :=
  match log.maybeRoll rollMs with
  | .threw failure log => .threw failure log
  | .ruined failure => .ruined failure
  | .returned _ log =>
      match stampBaseOffset batchBytes log.logEndOffset with
      | .error failure => .threw failure log
      | .ok batch =>
          match log.active.append log.logEndOffset batch clockMs fault with
          | (active, .error failure) => .threw failure { log with active := active }
          | (active, .ok _) =>
              .returned log.logEndOffset
                { log with
                  active := active
                  logEndOffset := active.nextOffset
                  highWatermark := active.nextOffset }

/-- The sealed segment a read is routed to: `upper_bound`, then one step back. -/
def routed (log : Log) (offset : Int) : Option SealedSegment :=
  (log.sealedMap.takeWhile (·.baseOffset ≤ offset)).getLast?

def read (log : Log) (offset : Int) (maxBytes : Nat) : Except Error ReadResult :=
  if log.logEndOffset < offset then .ok ⟨.aboveLogEnd, {}⟩
  else if offset = log.logEndOffset then .ok ⟨.none, {}⟩
  else if log.active.baseOffset ≤ offset then do
    let range ← log.active.read offset maxBytes
    return ⟨.none, range⟩
  else
    match log.routed offset with
    | none => .ok ⟨.belowLogStart, {}⟩
    | some segment => do
        let range ← segment.read offset maxBytes
        return ⟨.none, range⟩

def logStartOffset (log : Log) : Int :=
  (log.sealedMap.head?.map (·.baseOffset)).getD log.active.baseOffset

def totalSizeBytes (log : Log) : Nat :=
  log.active.sizeBytes + (log.sealedMap.map (·.sizeBytes)).sum

def agedOut (retentionMs nowMs : Int) (segment : SealedSegment) : Bool :=
  segment.isEmpty ||
    (decide (0 ≤ segment.largestTimestamp) && decide (retentionMs ≤ nowMs - segment.largestTimestamp))

def overLimit (limit : Nat) : Nat → List SealedSegment → Nat
  | _, [] => 0
  | total, oldest :: rest =>
      if limit < total then overLimit limit (total - oldest.sizeBytes) rest + 1 else 0

/-- Unlinks the oldest `count` segments and keeps their descriptors open. -/
def buryOldest (log : Log) (count : Nat) (nowMs : Int) : Log :=
  { log with
    sealedMap := log.sealedMap.drop count
    graveyard := log.graveyard ++ (log.sealedMap.take count).map (⟨·, nowMs⟩) }

def applyRetention (log : Log) (nowMs : Int) : Log :=
  let aged := log.buryOldest
    (log.sealedMap.takeWhile (agedOut log.config.retention.retentionMs nowMs)).length nowMs
  match log.config.retention.retentionBytes with
  | none => aged
  | some limit => aged.buryOldest (overLimit limit aged.totalSizeBytes aged.sealedMap) nowMs

def sealedSegments (log : Log) : List SealedInfo :=
  log.sealedMap.map fun segment =>
    ⟨segment.baseOffset, segment.nextOffset, segment.log.bytes, segment.sizeBytes⟩

/-- Swaps the cleaned files in. A cleaned file that does not open is outside the
model: the renames would already have happened. -/
def replaceSegment (log : Log) (baseOffset : Int) (cleanedLog : Bytes) (cleanedIndex : OffsetIndex)
    (nowMs : Int) : Outcome Bool :=
  match log.sealedMap.find? (·.baseOffset == baseOffset) with
  | none => .returned false log
  | some found =>
      match SealedSegment.open log.nextFd (segmentLogPath log.dir baseOffset) baseOffset cleanedLog
          (some cleanedIndex) with
      | .error failure => .threw failure { log with nextFd := log.nextFd + 1 }
      | .ok replacement =>
          .returned true
            { log with
              sealedMap := log.sealedMap.map fun segment =>
                if segment.baseOffset = baseOffset then replacement else segment
              graveyard := log.graveyard ++ [⟨found, nowMs⟩]
              nextFd := log.nextFd + 1 }

def removeSegment (log : Log) (baseOffset : Int) (nowMs : Int) : Bool × Log :=
  match log.sealedMap.find? (·.baseOffset == baseOffset) with
  | none => (false, log)
  | some found =>
      (true,
        { log with
          sealedMap := log.sealedMap.filter (·.baseOffset ≠ baseOffset)
          graveyard := log.graveyard ++ [⟨found, nowMs⟩] })

def sweepGraveyard (log : Log) (nowMs : Int) : Log :=
  { log with
    graveyard := log.graveyard.filter fun buried =>
      !decide (log.config.retention.segmentDeleteDelayMs ≤ nowMs - buried.unlinkedAtMs) }

end Log

end DariyaKyu.Storage

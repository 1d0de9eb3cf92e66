import DariyaKyu.Common.FileHandle
import DariyaKyu.Library.FrameWalk
import DariyaKyu.Storage.OffsetIndex
import DariyaKyu.Storage.RecordBatch

/-!
`storage/segment.cpp`: one file of batches and its sparse index. The loops of
the source that step from header to header are walks over `batchAt`; their fuel
is the file size, which no walk uses up because a batch is never empty. A clock
the source reads inside a function is an argument here.
-/

namespace DariyaKyu.Storage

set_option autoImplicit false

open FrameWalk

def segmentBaseName (baseOffset : Int) : String :=
  let digits := (toString baseOffset).toList
  String.ofList (List.replicate (20 - digits.length) '0' ++ digits)

def segmentLogPath (dir : String) (baseOffset : Int) : String :=
  dir ++ "/" ++ segmentBaseName baseOffset ++ ".log"

def segmentIndexPath (dir : String) (baseOffset : Int) : String :=
  dir ++ "/" ++ segmentBaseName baseOffset ++ ".index"

structure RollPolicy where
  maxSegmentBytes : Nat := 1073741824
  maxSegmentAgeMs : Int := 7 * 24 * 60 * 60 * 1000
  indexIntervalBytes : Nat := 4096
  maxIndexBytes : Nat := 10485760
  deriving DecidableEq, Repr

structure SegmentBase where
  log : FileHandle
  index : OffsetIndex
  baseOffset : Int
  nextOffset : Int
  largestTimestamp : Int

/-- One batch's header, where the batch starts and how far it is to the next. -/
structure BatchAt where
  header : BatchHeader
  position : Nat
  totalSize : Nat
  deriving DecidableEq, Repr

def batchAt (log : FileHandle) (limit position : Nat) : Except Error (Option BatchAt) :=
  if limit ≤ position then .ok none
  else if limit - position < kBatchHeaderSize then .ok none
  else
    let headerBytes := log.readAt position kBatchHeaderSize
    if headerBytes.length < kBatchHeaderSize then .ok none
    else do
      let header ← parseHeader headerBytes
      let totalSize ← totalSizeOf headerBytes
      if limit - position < totalSize then return none
      else return some { header, position, totalSize }

namespace SegmentBase

def sizeBytes (segment : SegmentBase) : Nat := segment.log.size

def isEmpty (segment : SegmentBase) : Bool := segment.nextOffset == segment.baseOffset

/-- The end state a walk accumulates: the next offset and the largest timestamp. -/
structure EndState where
  next : Int
  largest : Int
  deriving DecidableEq, Repr

def EndState.advance (state : EndState) (found : BatchAt) : EndState where
  next := found.header.lastOffset + 1
  largest := max state.largest found.header.maxTimestamp

def deriveEndStateFromLog (segment : SegmentBase) : Except Error SegmentBase := do
  let limit := segment.log.size
  let entry ← segment.index.lookup (segment.baseOffset + kMaxUint32)
  let (_, state) ← walk (batchAt segment.log limit) BatchAt.totalSize
    (fun state _ found => .ok (.next (EndState.advance state found)))
    (limit + 1) entry.position ⟨segment.baseOffset, -1⟩
  return { segment with nextOffset := state.next, largestTimestamp := state.largest }

def read (segment : SegmentBase) (offset : Int) (maxBytes : Nat) : Except Error FileRange :=
  if offset < segment.baseOffset then
    .error (.offsetInvariantViolated s!"segment {segment.log.path} was asked for {offset}, below its base offset {segment.baseOffset} — Log routed this read to the wrong segment")
  else do
    let limit := segment.log.size
    let entry ← segment.index.lookup offset
    let (_, found) ← walk (batchAt segment.log limit) BatchAt.totalSize
      (fun (_ : Option FileRange) position found =>
        if offset ≤ found.header.lastOffset then
          .ok (.stop (some ⟨segment.log.fd, position,
            max found.totalSize (min maxBytes (limit - position))⟩))
        else .ok (.next none))
      (limit + 1) entry.position none
    return found.getD ⟨segment.log.fd, limit, 0⟩

end SegmentBase

abbrev SealedSegment := SegmentBase

def SealedSegment.open (fd : Int) (path : String) (baseOffset : Int) (bytes : Bytes)
    (index : Option OffsetIndex) : Except Error SealedSegment :=
  match index with
  | none => .error (.ioError "open" path ENOENT)
  | some index =>
      SegmentBase.deriveEndStateFromLog
        { log := FileHandle.ofContents fd path bytes
          index := index.openSealed
          baseOffset := baseOffset
          nextOffset := baseOffset
          largestTimestamp := -1 }

structure ActiveSegment extends SegmentBase where
  policy : RollPolicy
  bytesSinceIndexEntry : Nat
  firstAppendMs : Int

namespace ActiveSegment

/-- `taken` says that the log file is already there, which `CreateNew` refuses. -/
def create (fd : Int) (dir : String) (baseOffset : Int) (policy : RollPolicy) (taken : Bool) :
    Except Error ActiveSegment :=
  if taken then .error (.ioError "open" (segmentLogPath dir baseOffset) EEXIST)
  else do
    let index ← OffsetIndex.create (segmentIndexPath dir baseOffset) baseOffset policy.maxIndexBytes
    return { log := FileHandle.ofContents fd (segmentLogPath dir baseOffset) []
             index, baseOffset
             nextOffset := baseOffset
             largestTimestamp := -1
             policy
             bytesSinceIndexEntry := 0
             firstAppendMs := -1 }

def maybeAddIndexEntry (segment : ActiveSegment) (baseOffset : Int) (position : Nat) :
    Except Error ActiveSegment :=
  if segment.bytesSinceIndexEntry < segment.policy.indexIntervalBytes then .ok segment
  else if position = 0 then .ok segment
  else if kMaxUint32 < position then
    .error (.offsetInvariantViolated s!"segment: byte position {position} exceeds what a 32-bit index position holds — maxSegmentBytes is set above 4 GiB")
  else do
    let index ← segment.index.append baseOffset position
    return { segment with index := index, bytesSinceIndexEntry := 0 }

/-- `ActiveSegment::append`. The segment comes back also when it throws: the
index entry is added before the write that may fail. -/
def append (segment : ActiveSegment) (baseOffset : Int) (batchBytes : Bytes) (clockMs : Int)
    (fault : Option WriteFault) : ActiveSegment × Except Error Unit :=
  match parseHeader batchBytes with
  | .error failure => (segment, .error failure)
  | .ok header =>
      if header.baseOffset ≠ baseOffset then
        (segment, .error (.offsetInvariantViolated s!"segment append: batch header says {header.baseOffset} but the caller says {baseOffset} — the stamp did not happen"))
      else if baseOffset ≠ segment.nextOffset then
        (segment, .error (.offsetInvariantViolated s!"segment append: batch starts at {baseOffset} but the segment ends at {segment.nextOffset} — a gap or overlap in Log's bookkeeping"))
      else
        match segment.maybeAddIndexEntry baseOffset segment.log.size with
        | .error failure => (segment, .error failure)
        | .ok indexed =>
            match indexed.log.append batchBytes fault with
            | (log, .error failure) => ({ indexed with log := log }, .error failure)
            | (log, .ok _) =>
                ({ indexed with
                    log := log
                    bytesSinceIndexEntry := indexed.bytesSinceIndexEntry + batchBytes.length
                    firstAppendMs := if indexed.firstAppendMs < 0 then clockMs else indexed.firstAppendMs
                    largestTimestamp := max indexed.largestTimestamp header.maxTimestamp
                    nextOffset := header.lastOffset + 1 },
                  .ok ())

structure Recovery where
  segment : ActiveSegment
  next : Int
  largest : Int

/-- `catch (const CorruptData&)`: damage is an answer, anything else a failure. -/
def orElseCorrupt {α : Type} (attempt : Except Error α) (damaged : α) : Except Error α :=
  match attempt with
  | .error (.corruptData _) => .ok damaged
  | other => other

def recoverBatch (truncateAt : Option Int) (state : Recovery) (good : Nat) (found : BatchAt) :
    Except Error (Turn Recovery) := do
  if truncateAt.any (· ≤ found.header.lastOffset) then return .stop state
  else
    let batch := state.segment.log.readAt good found.totalSize
    if batch.length < found.totalSize then return .stop state
    else
      let intact ← orElseCorrupt (verifyCrc batch) false
      if intact = false then return .stop state
      else if found.header.baseOffset ≠ state.next then return .stop state
      else
        let indexed ← state.segment.maybeAddIndexEntry found.header.baseOffset good
        return .next
          { segment :=
              { indexed with bytesSinceIndexEntry := indexed.bytesSinceIndexEntry + found.totalSize }
            next := found.header.lastOffset + 1
            largest := max state.largest found.header.maxTimestamp }

def recover (fd : Int) (dir : String) (baseOffset : Int) (bytes : Bytes) (policy : RollPolicy)
    (truncateAt : Option Int) (clockMs : Int) : Except Error ActiveSegment := do
  let log := FileHandle.ofContents fd (segmentLogPath dir baseOffset) bytes
  let index ← OffsetIndex.create (segmentIndexPath dir baseOffset) baseOffset policy.maxIndexBytes
  let segment : ActiveSegment :=
    { log, index, baseOffset
      nextOffset := baseOffset
      largestTimestamp := -1
      policy
      bytesSinceIndexEntry := 0
      firstAppendMs := -1 }
  let limit := log.size
  let (good, state) ← walk (fun position => orElseCorrupt (batchAt log limit position) none)
    BatchAt.totalSize (recoverBatch truncateAt) (limit + 1) 0 ⟨segment, baseOffset, -1⟩
  return { state.segment with
    log := if good < limit then log.truncate good else log
    nextOffset := state.next
    largestTimestamp := state.largest
    firstAppendMs := if 0 < good then clockMs else -1 }

/-- `ActiveSegment::seal`: trims the index, closes the writable handle and reopens the file. -/
def sealSegment (active : ActiveSegment) (fd : Int) : Except Error SealedSegment :=
  SealedSegment.open fd active.log.path active.baseOffset active.log.bytes (some active.index)

def shouldRoll (segment : ActiveSegment) (nowMs : Int) : Bool :=
  if segment.isEmpty then false
  else if segment.policy.maxSegmentBytes ≤ segment.sizeBytes then true
  else if segment.index.isFull then true
  else segment.policy.maxSegmentAgeMs ≤ nowMs - segment.firstAppendMs

end ActiveSegment

end DariyaKyu.Storage

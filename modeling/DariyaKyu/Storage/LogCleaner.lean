import DariyaKyu.Storage.Log

/-!
`storage/key_offset_map.cpp` and `storage/log_cleaner.cpp`: compaction. A pass
maps the keys of the dirty range to their newest offsets, then rewrites every
sealed segment up to the end of that range without the records that lost. It
swaps one segment at a time, so the log is recorded after each of them.
-/

namespace DariyaKyu.Storage

set_option autoImplicit false

open FrameWalk

def kPrime : UInt64 := 0x100000001B3

def fnv1a (bytes : Bytes) (basis : UInt64) : UInt64 :=
  bytes.foldl (fun hash byte => (hash ^^^ byte.toUInt64) * kPrime) basis

structure Digest where
  high : UInt64
  low : UInt64
  deriving DecidableEq, Repr

def digestOf (key : Bytes) : Digest :=
  ⟨fnv1a key 0xCBF29CE484222325, fnv1a key 0x9E3779B97F4A7C15⟩

/-- The map from digests to offsets; nothing depends on the order of entries. -/
structure KeyOffsetMap where
  maxEntries : Nat
  entries : List (Digest × Int)
  deriving DecidableEq, Repr

namespace KeyOffsetMap

def find (map : KeyOffsetMap) (digest : Digest) : Option Int :=
  (map.entries.find? (·.1 = digest)).map (·.2)

/-- Adds or raises an entry; `none` when the budget refuses a new key. -/
def put (map : KeyOffsetMap) (key : Bytes) (offset : Int) : Option KeyOffsetMap :=
  match map.find (digestOf key) with
  | some known =>
      if known < offset then
        some { map with
          entries := map.entries.map fun entry =>
            if entry.1 = digestOf key then (entry.1, offset) else entry }
      else some map
  | none =>
      if map.maxEntries ≤ map.entries.length then none
      else some { map with entries := map.entries ++ [(digestOf key, offset)] }

def isLatest (map : KeyOffsetMap) (key : Bytes) (offset : Int) : Bool :=
  match map.find (digestOf key) with
  | none => true
  | some newest => newest ≤ offset

end KeyOffsetMap

structure ScannedBatch where
  header : BatchHeader
  bytes : Bytes
  position : Nat
  deriving DecidableEq, Repr

/-- One turn of `scanSegment`: the complete, checked batch at a position. -/
def scanAt (contents : Bytes) (position : Nat) : Except Error (Option ScannedBatch) :=
  if contents.length < position + kBatchHeaderSize then .ok none
  else
    match totalSizeOf ((contents.drop position).take kBatchHeaderSize) with
    | .error _ => .ok none
    | .ok total =>
        if contents.length < position + total then .ok none
        else
          let bytes := (contents.drop position).take total
          match parseHeader bytes with
          | .error _ => .ok none
          | .ok header => do
              let intact ← verifyCrc bytes
              if intact then return some { header, bytes, position } else return none

def scanSegment (contents : Bytes) : Except Error (List ScannedBatch) := do
  let (_, visited) ← walk (scanAt contents) (fun batch => batch.bytes.length)
    (fun visited _ batch => .ok (.next (visited ++ [batch]))) (contents.length + 1) 0 []
  return visited

structure RetainRules where
  map : Option KeyOffsetMap
  nowMs : Int
  deleteRetentionMs : Int

def isTombstone (record : Record) : Bool := record.value.isNone

def retain (record : Record) (offset timestampMs : Int) (rules : RetainRules) : Bool :=
  match record.key with
  | none => true
  | some key =>
      if rules.map.any (fun map => !map.isLatest key offset) then false
      else if isTombstone record = false then true
      else rules.nowMs - timestampMs < rules.deleteRetentionMs

/-- `retain` with the offset and timestamp the header gives the record. -/
def retains (rules : RetainRules) (header : BatchHeader) (record : Record) : Bool :=
  retain record (record.offsetFrom header.baseOffset) (record.timestampFrom header.firstTimestamp) rules

/-- The batch under construction: `newBase` is set once something is kept. -/
structure RewrittenBatch where
  builder : RecordBatchBuilder := {}
  newBase : Option Int := none
  recordsKept : Nat := 0
  recordsDropped : Nat := 0

def rewriteRecords (rules : RetainRules) (header : BatchHeader) :
    RewrittenBatch → List Record → Except Error RewrittenBatch
  | state, [] => .ok state
  | state, record :: records =>
      if retains rules header record = false then
        rewriteRecords rules header { state with recordsDropped := state.recordsDropped + 1 } records
      else do
        let offset := record.offsetFrom header.baseOffset
        let newBase := state.newBase.getD offset
        let builder ← state.builder.appendAt (asSigned 32 (asUnsigned 32 (offset - newBase)))
          (record.timestampFrom header.firstTimestamp) record.key record.value record.headers
        rewriteRecords rules header
          { state with builder, newBase := some newBase, recordsKept := state.recordsKept + 1 } records

structure CleanedSegment where
  log : Bytes
  index : OffsetIndex
  sinceLastIndex : Nat
  recordsKept : Nat
  recordsDropped : Nat

def CleanedSegment.empty (cleaned : CleanedSegment) : Bool := cleaned.recordsKept == 0

def rewriteBatch (roll : RollPolicy) (rules : RetainRules) (state : CleanedSegment)
    (batch : ScannedBatch) : Except Error CleanedSegment := do
  let records ← decodeRecords batch.bytes
  let rewritten ← rewriteRecords rules batch.header {} records
  let counted := { state with
    recordsKept := state.recordsKept + rewritten.recordsKept
    recordsDropped := state.recordsDropped + rewritten.recordsDropped }
  match rewritten.newBase with
  | none => return counted
  | some newBase => do
      let built ← rewritten.builder.build
      let bytes ← stampBaseOffset built newBase
      let position := state.log.length
      let written := { counted with log := state.log ++ bytes }
      if 0 < position ∧ roll.indexIntervalBytes ≤ state.sinceLastIndex then do
        -- the cast of the source: a position past 4 GiB wraps here
        let index ← state.index.append newBase (position % 2 ^ 32)
        return { written with index := index, sinceLastIndex := bytes.length }
      else return { written with sinceLastIndex := state.sinceLastIndex + bytes.length }

def rewriteBatches (roll : RollPolicy) (rules : RetainRules) :
    CleanedSegment → List ScannedBatch → Except Error CleanedSegment
  | state, [] => .ok state
  | state, batch :: batches => do
      let next ← rewriteBatch roll rules state batch
      rewriteBatches roll rules next batches

def rewriteSegment (dir : String) (contents : Bytes) (baseOffset : Int) (roll : RollPolicy)
    (rules : RetainRules) : Except Error CleanedSegment := do
  let index ← OffsetIndex.create (segmentIndexPath dir baseOffset ++ ".cleaned") baseOffset
    roll.maxIndexBytes
  let batches ← scanSegment contents
  rewriteBatches roll rules
    { log := [], index, sinceLastIndex := 0, recordsKept := 0, recordsDropped := 0 } batches

/-- The loop of `wouldDropAnything`; a drop ends the decoding, not the scan. -/
def dropsAnything (rules : RetainRules) : List ScannedBatch → Except Error Bool
  | [] => .ok false
  | batch :: batches => do
      let records ← decodeRecords batch.bytes
      if records.any (fun record => !retains rules batch.header record) then return true
      else dropsAnything rules batches

def wouldDropAnything (contents : Bytes) (rules : RetainRules) : Except Error Bool := do
  let batches ← scanSegment contents
  dropsAnything rules batches

structure CleanResult where
  segmentsCleaned : Nat := 0
  segmentsDeleted : Nat := 0
  recordsKept : Nat := 0
  recordsDropped : Nat := 0
  keysMapped : Nat := 0
  mapFilled : Bool := false
  nextDirtyOffset : Int := 0
  deriving DecidableEq, Repr

/-- The keys of one batch; the flag says that the budget refused one. -/
def mapRecords (header : BatchHeader) : KeyOffsetMap → List Record → KeyOffsetMap × Bool
  | map, [] => (map, false)
  | map, record :: records =>
      match record.key with
      | none => mapRecords header map records
      | some key =>
          match map.put key (record.offsetFrom header.baseOffset) with
          | none => (map, true)
          | some next => mapRecords header next records

def mapBatches : KeyOffsetMap → List ScannedBatch → Except Error (KeyOffsetMap × Bool)
  | map, [] => .ok (map, false)
  | map, batch :: batches => do
      let records ← decodeRecords batch.bytes
      match mapRecords batch.header map records with
      | (next, true) => return (next, true)
      | (next, false) => mapBatches next batches

structure DirtyMap where
  map : KeyOffsetMap
  mappedThrough : Int
  mapFilled : Bool

/-- Phase one: map the segments that reach past the mark, until one is refused. -/
def mapDirty (firstDirtyOffset : Int) : DirtyMap → List SealedInfo → Except Error DirtyMap
  | state, [] => .ok state
  | state, info :: infos =>
      if info.nextOffset ≤ firstDirtyOffset then mapDirty firstDirtyOffset state infos
      else do
        let batches ← scanSegment info.contents
        match ← mapBatches state.map batches with
        | (map, true) => return { state with map, mapFilled := true }
        | (map, false) =>
            mapDirty firstDirtyOffset { state with map, mappedThrough := info.nextOffset } infos

/-- A pass as it runs: the log after each segment it dealt with, and the end. -/
structure CleanRun where
  swaps : List Log
  log : Log
  outcome : Except Error CleanResult

def cleanSegment (rules : RetainRules) (nowMs : Int) (log : Log) (result : CleanResult)
    (info : SealedInfo) : Log × Except Error CleanResult :=
  match wouldDropAnything info.contents rules with
  | .error failure => (log, .error failure)
  | .ok false => (log, .ok result)
  | .ok true =>
      match rewriteSegment log.dir info.contents info.baseOffset log.config.roll rules with
      | .error failure => (log, .error failure)
      | .ok cleaned =>
          let counted := { result with
            recordsKept := result.recordsKept + cleaned.recordsKept
            recordsDropped := result.recordsDropped + cleaned.recordsDropped }
          if cleaned.empty then
            match log.removeSegment info.baseOffset nowMs with
            | (true, log) => (log, .ok { counted with segmentsDeleted := counted.segmentsDeleted + 1 })
            | (false, log) => (log, .ok counted)
          else
            match log.replaceSegment info.baseOffset cleaned.log cleaned.index nowMs with
            | .returned true log => (log, .ok { counted with segmentsCleaned := counted.segmentsCleaned + 1 })
            | .returned false log => (log, .ok counted)
            | .threw failure log => (log, .error failure)
            | .ruined failure => (log, .error failure)

def cleanSegments (rules : RetainRules) (mappedThrough nowMs : Int) :
    Log → CleanResult → List SealedInfo → CleanRun
  | log, result, [] => ⟨[], log, .ok result⟩
  | log, result, info :: infos =>
      if mappedThrough ≤ info.baseOffset then ⟨[], log, .ok result⟩
      else
        match cleanSegment rules nowMs log result info with
        | (log, .error failure) => ⟨[log], log, .error failure⟩
        | (log, .ok result) =>
            let run := cleanSegments rules mappedThrough nowMs log result infos
            { run with swaps := log :: run.swaps }

def cleanLog (log : Log) (maxKeyMapEntries : Nat) (firstDirtyOffset nowMs : Int) : CleanRun :=
  let result : CleanResult := { nextDirtyOffset := firstDirtyOffset }
  match log.sealedSegments with
  | [] => ⟨[], log, .ok result⟩
  | infos =>
      match mapDirty firstDirtyOffset ⟨⟨maxKeyMapEntries, []⟩, firstDirtyOffset, false⟩ infos with
      | .error failure => ⟨[], log, .error failure⟩
      | .ok dirty =>
          let result := { result with
            keysMapped := dirty.map.entries.length
            mapFilled := dirty.mapFilled
            nextDirtyOffset := dirty.mappedThrough }
          if dirty.map.entries.length = 0 then ⟨[], log, .ok result⟩
          else
            cleanSegments ⟨some dirty.map, nowMs, log.config.compaction.deleteRetentionMs⟩
              dirty.mappedThrough nowMs log result infos

end DariyaKyu.Storage

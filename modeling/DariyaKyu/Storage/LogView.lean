import DariyaKyu.Library.KeyedHistory
import DariyaKyu.Storage.BatchCodec
import DariyaKyu.Storage.SegmentScan

/-!
The records of a log, read from its files from front to back: no index, no end
state and no earlier scan is involved, and a batch that does not decode has no
records. What the log says of a key is its record with the highest offset. A
reader sees the bytes of the range it is given, in the file of the segment that
answered.
-/

namespace DariyaKyu.Storage

set_option autoImplicit false

/-- The records of a batch; one that does not decode has none. -/
def recordsOf (batch : Bytes) : List LogRecord :=
  match logRecordsOf batch with
  | .error _ => []
  | .ok records => records

def recordsIn (segment : SegmentBase) : List LogRecord :=
  match scanSegment segment.log.bytes with
  | .error _ => []
  | .ok scanned => scanned.flatMap fun batch => recordsOf batch.bytes

def Log.records (log : Log) : List LogRecord :=
  log.sealedMap.flatMap recordsIn ++ recordsIn log.active.toSegmentBase

/-- The record is what a log with these records says of the key. -/
abbrev NewestFor (records : List LogRecord) (record : LogRecord) (key : Bytes) : Prop :=
  KeyedHistory.Newest LogRecord.key LogRecord.offset records record key

def Log.owner (log : Log) (offset : Int) : Option SegmentBase :=
  if log.active.baseOffset ≤ offset then some log.active.toSegmentBase else log.routed offset

def Log.rangeBytes (log : Log) (offset : Int) (range : FileRange) : Bytes :=
  ((log.owner offset).map fun segment => segment.log.readAt range.position range.length).getD []

theorem records_in_congr {first second : SegmentBase} (same : first.log.bytes = second.log.bytes) :
    recordsIn first = recordsIn second := by
  rw [recordsIn, recordsIn, same]

end DariyaKyu.Storage

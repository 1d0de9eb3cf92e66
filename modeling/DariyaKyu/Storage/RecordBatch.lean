import DariyaKyu.Common.Varint
import DariyaKyu.Common.Crc32c

/-!
`storage/record_batch.cpp`: the v2 record batch. The header prefix is parsed
field by field as the source does; the broker stamps only the eight base-offset
bytes, which lie ahead of the checksum. The builder's two patched fields are
written with their final values, since nothing reads the buffer in between.
-/

namespace DariyaKyu.Storage

set_option autoImplicit false

def kMagicV2 : Int := 2
def kBatchHeaderSize : Nat := 61
def kBytesBeforeBatchLengthCounted : Nat := 12
def kCrcCoverageStart : Nat := 21
def kCompressionMask : Nat := 0x07
def kNullLength : Int := -1

/-- `Compression::None`; the other codecs are the values one to four. -/
def compressionNone : Nat := 0

structure RecordHeader where
  key : Bytes
  value : Option Bytes
  deriving DecidableEq, Repr

structure Record where
  offsetDelta : Int
  timestampDelta : Int
  key : Option Bytes
  value : Option Bytes
  headers : List RecordHeader
  attributes : Int
  deriving DecidableEq, Repr

namespace Record

def offsetFrom (record : Record) (baseOffset : Int) : Int := baseOffset + record.offsetDelta

/-- A client may send a delta that leads out of int64; the sum then wraps. -/
def timestampFrom (record : Record) (firstTimestamp : Int) : Int :=
  wrapSigned 64 (firstTimestamp + record.timestampDelta)

end Record

structure BatchHeader where
  baseOffset : Int
  batchLength : Int
  partitionLeaderEpoch : Int
  magic : Int
  crc : Nat
  attributes : Int
  lastOffsetDelta : Int
  firstTimestamp : Int
  maxTimestamp : Int
  producerId : Int
  producerEpoch : Int
  baseSequence : Int
  recordCount : Int
  deriving DecidableEq, Repr

namespace BatchHeader

def compression (header : BatchHeader) : Nat := asUnsigned 16 header.attributes &&& kCompressionMask

def lastOffset (header : BatchHeader) : Int := header.baseOffset + header.lastOffsetDelta

end BatchHeader

def requireAtLeast (bytes : Bytes) (needed : Nat) (what : String) : Except Error Unit :=
  if bytes.length < needed then
    .error (.corruptData s!"record batch: {what} needs {needed} bytes but only {bytes.length} available")
  else .ok ()

def parseHeader (bytes : Bytes) : Except Error BatchHeader := do
  requireAtLeast bytes kBatchHeaderSize "header"
  let (baseOffset, input) ← (BufferReader.ofBytes bytes).readInt64
  let (batchLength, input) ← input.readInt32
  let (partitionLeaderEpoch, input) ← input.readInt32
  let (magic, input) ← input.readInt8
  if magic ≠ kMagicV2 then
    .error (.corruptData s!"record batch: magic byte {magic}, expected {kMagicV2}")
  else
    let (crc, input) ← input.readUint32
    let (attributes, input) ← input.readInt16
    let (lastOffsetDelta, input) ← input.readInt32
    let (firstTimestamp, input) ← input.readInt64
    let (maxTimestamp, input) ← input.readInt64
    let (producerId, input) ← input.readInt64
    let (producerEpoch, input) ← input.readInt16
    let (baseSequence, input) ← input.readInt32
    let (recordCount, _) ← input.readInt32
    if recordCount < 0 then
      .error (.corruptData s!"record batch: negative record count {recordCount}")
    else if batchLength < 0 then
      .error (.corruptData s!"record batch: negative batch length {batchLength}")
    else
      .ok { baseOffset, batchLength, partitionLeaderEpoch, magic, crc, attributes, lastOffsetDelta,
            firstTimestamp, maxTimestamp, producerId, producerEpoch, baseSequence, recordCount }

def kMinBatchLength : Int := kBatchHeaderSize - kBytesBeforeBatchLengthCounted

def totalSizeOf (bytes : Bytes) : Except Error Nat := do
  requireAtLeast bytes kBytesBeforeBatchLengthCounted "length prefix"
  let input ← (BufferReader.ofBytes bytes).skip 8
  let (batchLength, _) ← input.readInt32
  if batchLength < kMinBatchLength then
    .error (.corruptData s!"record batch: batch length {batchLength} is below the minimum of {kMinBatchLength}")
  else .ok (batchLength.toNat + kBytesBeforeBatchLengthCounted)

def computeCrc (bytes : Bytes) : Except Error Nat := do
  let total ← totalSizeOf bytes
  requireAtLeast bytes total "batch body"
  return (crc32c ((bytes.drop kCrcCoverageStart).take (total - kCrcCoverageStart))).toNat

def verifyCrc (bytes : Bytes) : Except Error Bool := do
  let header ← parseHeader bytes
  let computed ← computeCrc bytes
  return computed == header.crc

def readNullableBytes (input : BufferReader) : Except Error (Option Bytes × BufferReader) := do
  let (length, input) ← input.readVarint
  if length = kNullLength then .ok (none, input)
  else if length < 0 then
    .error (.corruptData s!"record batch: negative length {length} that is not the null marker")
  else do
    let (bytes, input) ← input.readBytes length.toNat
    return (some bytes, input)

def decodeRecordHeader (input : BufferReader) : Except Error (RecordHeader × BufferReader) := do
  let (keyLength, input) ← input.readVarint
  if keyLength < 0 then
    .error (.corruptData s!"record batch: header key length {keyLength} (header keys may not be null)")
  else do
    let (key, input) ← input.readBytes keyLength.toNat
    let (value, input) ← readNullableBytes input
    return (⟨key, value⟩, input)

def decodeRecordHeaders : Nat → BufferReader → Except Error (List RecordHeader × BufferReader)
  | 0, input => .ok ([], input)
  | count + 1, input => do
      let (header, input) ← decodeRecordHeader input
      let (headers, input) ← decodeRecordHeaders count input
      return (header :: headers, input)

/-- One turn of the decoding loop; `index` is the loop counter the text names. -/
def decodeRecord (index : Nat) (input : BufferReader) : Except Error (Record × BufferReader) := do
  let (recordLength, input) ← input.readVarint
  if recordLength < 0 then
    .error (.corruptData s!"record batch: negative record length {recordLength}")
  else do
    let recordEnd := input.position + recordLength.toNat
    let (attributes, input) ← input.readInt8
    let (timestampDelta, input) ← input.readVarlong
    let (offsetDelta, input) ← input.readVarint
    let (key, input) ← readNullableBytes input
    let (value, input) ← readNullableBytes input
    let (headerCount, input) ← input.readVarint
    if headerCount < 0 then
      .error (.corruptData s!"record batch: negative header count {headerCount}")
    else do
      let (headers, input) ← decodeRecordHeaders headerCount.toNat input
      if input.position ≠ recordEnd then
        .error (.corruptData s!"record batch: record {index} declared {recordLength} bytes but its fields consumed a different amount")
      else
        .ok ({ offsetDelta, timestampDelta, key, value, headers, attributes }, input)

def decodeRecordsFrom : Nat → Nat → BufferReader → Except Error (List Record)
  | 0, _, _ => .ok []
  | count + 1, index, input => do
      let (record, input) ← decodeRecord index input
      let records ← decodeRecordsFrom count (index + 1) input
      return record :: records

def decodeRecords (bytes : Bytes) : Except Error (List Record) := do
  let header ← parseHeader bytes
  if header.compression ≠ compressionNone then
    .error (.error s!"record batch: compression codec {header.compression} is not supported yet (M1 handles the flag, not the algorithm)")
  else do
    let total ← totalSizeOf bytes
    requireAtLeast bytes total "batch body"
    decodeRecordsFrom header.recordCount.toNat 0
      (BufferReader.ofBytes ((bytes.drop kBatchHeaderSize).take (total - kBatchHeaderSize)))

def stampBaseOffset (bytes : Bytes) (baseOffset : Int) : Except Error Bytes := do
  requireAtLeast bytes kBatchHeaderSize "header"
  return writeInt64 baseOffset ++ bytes.drop 8

def stampLeaderEpoch (bytes : Bytes) (epoch : Int) : Except Error Bytes := do
  requireAtLeast bytes kBatchHeaderSize "header"
  return bytes.take 12 ++ writeInt32 epoch ++ bytes.drop 16

structure RecordBatchBuilder where
  compression : Nat := compressionNone
  records : Bytes := []
  count : Nat := 0
  firstTimestamp : Int := 0
  maxTimestamp : Int := 0
  lastDelta : Int := -1
  deriving DecidableEq, Repr

def writeNullableBytes : Option Bytes → Except Error Bytes
  | none => encodeVarint kNullLength
  | some value => do
      let length ← encodeVarint value.length
      return length ++ value

def encodeRecordHeader (header : RecordHeader) : Except Error Bytes := do
  let keyLength ← encodeVarint header.key.length
  let value ← writeNullableBytes header.value
  return keyLength ++ header.key ++ value

def encodeRecordHeaders : List RecordHeader → Except Error Bytes
  | [] => .ok []
  | header :: headers => do
      let first ← encodeRecordHeader header
      let rest ← encodeRecordHeaders headers
      return first ++ rest

/-- The scratch buffer of `appendAt`: one record without its length prefix. -/
def encodeRecordFields (offsetDelta timestampDelta : Int) (key value : Option Bytes)
    (headers : List RecordHeader) : Except Error Bytes := do
  let timestampBytes ← encodeVarlong timestampDelta
  let offsetBytes ← encodeVarint offsetDelta
  let keyBytes ← writeNullableBytes key
  let valueBytes ← writeNullableBytes value
  let headerCount ← encodeVarint headers.length
  let headerBytes ← encodeRecordHeaders headers
  return writeInt8 0 ++ timestampBytes ++ offsetBytes ++ keyBytes ++ valueBytes ++ headerCount ++
    headerBytes

namespace RecordBatchBuilder

def empty (builder : RecordBatchBuilder) : Bool := builder.count == 0

def appendAt (builder : RecordBatchBuilder) (offsetDelta timestamp : Int)
    (key value : Option Bytes) (headers : List RecordHeader) : Except Error RecordBatchBuilder :=
  if offsetDelta ≤ builder.lastDelta then
    .error (.error s!"record batch: offset delta {offsetDelta} does not follow {builder.lastDelta}")
  else do
    let firstTimestamp := if builder.count = 0 then timestamp else builder.firstTimestamp
    let maxTimestamp :=
      if builder.count = 0 then timestamp
      else if builder.maxTimestamp < timestamp then timestamp else builder.maxTimestamp
    let encoded ← encodeRecordFields offsetDelta (timestamp - firstTimestamp) key value headers
    let length ← encodeVarint encoded.length
    return { builder with
      records := builder.records ++ length ++ encoded
      firstTimestamp := firstTimestamp
      maxTimestamp := maxTimestamp
      lastDelta := offsetDelta
      count := builder.count + 1 }

def append (builder : RecordBatchBuilder) (timestamp : Int) (key value : Option Bytes)
    (headers : List RecordHeader) : Except Error RecordBatchBuilder :=
  builder.appendAt builder.count timestamp key value headers

def covered (builder : RecordBatchBuilder) : Bytes :=
  writeInt16 (builder.compression &&& kCompressionMask : Nat) ++ writeInt32 builder.lastDelta ++
    writeInt64 builder.firstTimestamp ++ writeInt64 builder.maxTimestamp ++ writeInt64 (-1) ++
    writeInt16 (-1) ++ writeInt32 (-1) ++ writeInt32 builder.count ++ builder.records

def build (builder : RecordBatchBuilder) : Except Error Bytes :=
  if builder.empty then
    .error (.error "record batch: refusing to build a batch with no records")
  else
    .ok (writeInt64 0 ++
      writeInt32 ((kBatchHeaderSize + builder.records.length - kBytesBeforeBatchLengthCounted : Nat)) ++
      writeInt32 kNoEpoch ++ writeInt8 kMagicV2 ++ writeUint32 (crc32c builder.covered).toNat ++
      builder.covered)

end RecordBatchBuilder

end DariyaKyu.Storage

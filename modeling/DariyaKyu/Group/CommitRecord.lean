import DariyaKyu.Protocol.Wire

/-!
`group/commit_record.cpp`: the key and the value of a committed offset as the
bytes of a record. The key is what compaction collapses on. A version this build
does not know is refused, and so is a position below zero.
-/

namespace DariyaKyu.Groups

set_option autoImplicit false

open Protocol

structure CommitKey where
  group : Bytes
  topic : Bytes
  partition : Int := 0
  deriving DecidableEq, Repr

structure CommitValue where
  nextOffset : Int := 0
  metadata : Bytes := []
  commitTimestampMs : Int := 0
  deriving DecidableEq, Repr

def kCommitVersion : Int := 1

def encodeCommitKey (key : CommitKey) : Except Error Bytes := do
  let group ← writeString key.group
  let topic ← writeString key.topic
  return writeInt16 kCommitVersion ++ group ++ topic ++ writeInt32 key.partition

def decodeCommitKey (bytes : Bytes) : Except Error CommitKey := do
  let (version, input) ← (BufferReader.ofBytes bytes).readInt16
  if version ≠ kCommitVersion then
    .error (.corruptData s!"commit key: version {version}, this build knows {kCommitVersion}")
  else do
    let (group, input) ← readString input
    let (topic, input) ← readString input
    let (partition, input) ← input.readInt32
    if input.isEmpty then .ok { group, topic, partition }
    else .error (.corruptData s!"commit key: {input.remaining} trailing byte(s)")

def encodeCommitValue (value : CommitValue) : Except Error Bytes := do
  let metadata ← writeString value.metadata
  return writeInt16 kCommitVersion ++ writeInt64 value.nextOffset ++ metadata ++
    writeInt64 value.commitTimestampMs

def decodeCommitValue (bytes : Bytes) : Except Error CommitValue := do
  let (version, input) ← (BufferReader.ofBytes bytes).readInt16
  if version ≠ kCommitVersion then
    .error (.corruptData s!"commit value: version {version}, this build knows {kCommitVersion}")
  else do
    let (nextOffset, input) ← input.readInt64
    if nextOffset < 0 then
      .error (.corruptData s!"commit value: negative offset {nextOffset}")
    else do
      let (metadata, input) ← readString input
      let (commitTimestampMs, input) ← input.readInt64
      if input.isEmpty then .ok { nextOffset, metadata, commitTimestampMs }
      else .error (.corruptData s!"commit value: {input.remaining} trailing byte(s)")

end DariyaKyu.Groups

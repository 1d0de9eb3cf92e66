import DariyaKyu.Protocol.RequestHeader
import DariyaKyu.Server.Fetch
import DariyaKyu.Server.OffsetCommit
import DariyaKyu.Server.TopicCreation

/-!
The request decoders of `protocol/*.cpp`, into what the handlers work on. A
decoder reads from where the header ended and looks at nothing behind its last
field: bytes that are left there are ignored with the rest of the frame.
-/

namespace DariyaKyu.Server

set_option autoImplicit false

open Protocol Groups Storage

/-- One partition of a Produce request, and where in the frame its bytes are. -/
structure ProduceAsked where
  partition : Int
  batch : Bytes
  batchOffsetInBody : Nat
  deriving DecidableEq, Repr

structure ProduceRequest where
  acks : Int := 1
  timeoutMs : Int := 0
  topics : List (TopicOf ProduceAsked)

structure FetchRequest where
  maxWaitMs : Int := 0
  minBytes : Int := 0
  topics : List (TopicOf FetchAsked)

def kLatestTimestamp : Int := -1
def kEarliestTimestamp : Int := -2

structure ListOffsetsAsked where
  partition : Int := 0
  timestamp : Int := kLatestTimestamp

structure ListOffsetsRequest where
  topics : List (TopicOf ListOffsetsAsked)

structure MetadataRequest where
  allTopics : Bool := false
  topics : List Bytes

structure CreateTopicRequest where
  topics : List TopicRequest
  timeoutMs : Int := 0

structure FindCoordinatorRequest where
  groupId : Bytes

structure JoinGroupRequest where
  groupId : Bytes
  sessionTimeoutMs : Int := 10000
  memberId : Bytes
  subscription : List Bytes
  protocols : List Bytes

structure SyncGroupRequest where
  groupId : Bytes
  generation : Int := -1
  memberId : Bytes
  assignments : OrderedMap Bytes Bytes

structure HeartbeatRequest where
  groupId : Bytes
  generation : Int := -1
  memberId : Bytes

structure LeaveGroupRequest where
  groupId : Bytes
  memberId : Bytes

structure OffsetFetchRequest where
  groupId : Bytes
  topics : List (TopicOf Int)

/-- What a decoder returns beside the reader behind its last field. -/
abbrev Decoder (Request : Type) := BufferReader → Except Error (Request × BufferReader)

def readProduceAsked : Decoder ProduceAsked := fun input => do
  let (partition, input) ← input.readInt32
  let (batchLength, input) ← input.readInt32
  if batchLength < 0 then .error (.corruptData s!"produce: batch length {batchLength}")
  else do
    let (batch, after) ← input.readBytes batchLength.toNat
    return (⟨partition, batch, input.position⟩, after)

def decodeProduceRequest : Decoder ProduceRequest := fun input => do
  let (acks, input) ← input.readInt16
  let (timeoutMs, input) ← input.readInt32
  let (topics, input) ← readTopics readProduceAsked input
  return (⟨acks, timeoutMs, topics⟩, input)

def mutableBatch (asked : ProduceAsked) (body : Bytes) : Except Error Bytes :=
  if body.length < asked.batchOffsetInBody + asked.batch.length then
    .error (.offsetInvariantViolated s!"produce: batch at {asked.batchOffsetInBody} + {asked.batch.length} does not lie inside a body of {body.length}")
  else .ok ((body.drop asked.batchOffsetInBody).take asked.batch.length)

def readFetchAsked : Decoder FetchAsked := fun input => do
  let (partition, input) ← input.readInt32
  let (fetchOffset, input) ← input.readInt64
  let (maxBytes, input) ← input.readInt32
  if maxBytes < 0 then .error (.corruptData s!"fetch: maxBytes {maxBytes}")
  else .ok (⟨partition, fetchOffset, maxBytes.toNat⟩, input)

def decodeFetchRequest : Decoder FetchRequest := fun input => do
  let (maxWaitMs, input) ← input.readInt32
  let (minBytes, input) ← input.readInt32
  let (topics, input) ← readTopics readFetchAsked input
  return (⟨maxWaitMs, minBytes, topics⟩, input)

def readListOffsetsAsked : Decoder ListOffsetsAsked := fun input => do
  let (partition, input) ← input.readInt32
  let (timestamp, input) ← input.readInt64
  return (⟨partition, timestamp⟩, input)

def decodeListOffsetsRequest : Decoder ListOffsetsRequest := fun input => do
  let (topics, input) ← readTopics readListOffsetsAsked input
  return (⟨topics⟩, input)

/-- Any byte but zero asks for all topics. -/
def decodeMetadataRequest : Decoder MetadataRequest := fun input => do
  let (allTopics, input) ← input.readInt8
  let (topics, input) ← readStrings input "topic"
  return (⟨allTopics ≠ 0, topics⟩, input)

def readOverride : Decoder (Option Int) := fun input => do
  let (value, input) ← input.readInt64
  return (if value ≤ 0 then none else some value, input)

def readFlag : Decoder (Option Bool) := fun input => do
  let (value, input) ← input.readInt8
  if value < 0 then .ok (none, input)
  else if 1 < value then .error (.corruptData s!"create topic: flag {value}")
  else .ok (some (value == 1), input)

def readTopicRequest : Decoder TopicRequest := fun input => do
  let (name, input) ← readString input
  let (partitionCount, input) ← input.readInt32
  let (retentionMs, input) ← readOverride input
  let (retentionBytes, input) ← readOverride input
  let (maxSegmentBytes, input) ← readOverride input
  let (compact, input) ← readFlag input
  return (⟨name, partitionCount, retentionMs, retentionBytes, maxSegmentBytes, compact⟩, input)

def decodeCreateTopicRequest : Decoder CreateTopicRequest := fun input => do
  let (topics, input) ← readArray readTopicRequest "topic" input
  let (timeoutMs, input) ← input.readInt32
  return (⟨topics, timeoutMs⟩, input)

def decodeFindCoordinatorRequest : Decoder FindCoordinatorRequest := fun input => do
  let (groupId, input) ← readString input
  return (⟨groupId⟩, input)

def decodeJoinGroupRequest : Decoder JoinGroupRequest := fun input => do
  let (groupId, input) ← readString input
  let (sessionTimeoutMs, input) ← input.readInt32
  let (memberId, input) ← readString input
  let (subscription, input) ← readStrings input "subscription"
  let (protocols, input) ← readStrings input "protocol"
  return (⟨groupId, sessionTimeoutMs, memberId, subscription, protocols⟩, input)

def readAssignment : Decoder (Bytes × Bytes) := fun input => do
  let (memberId, input) ← readString input
  let (assignment, input) ← readBytes input "assignment"
  return ((memberId, assignment), input)

/-- A member that is named twice has what it was given last. -/
def decodeSyncGroupRequest : Decoder SyncGroupRequest := fun input => do
  let (groupId, input) ← readString input
  let (generation, input) ← input.readInt32
  let (memberId, input) ← readString input
  let (assignments, input) ← readArray readAssignment "assignment" input
  let assigned := assignments.foldl (fun map entry => map.insert entry.1 entry.2) OrderedMap.empty
  return (⟨groupId, generation, memberId, assigned⟩, input)

def decodeHeartbeatRequest : Decoder HeartbeatRequest := fun input => do
  let (groupId, input) ← readString input
  let (generation, input) ← input.readInt32
  let (memberId, input) ← readString input
  return (⟨groupId, generation, memberId⟩, input)

def decodeLeaveGroupRequest : Decoder LeaveGroupRequest := fun input => do
  let (groupId, input) ← readString input
  let (memberId, input) ← readString input
  return (⟨groupId, memberId⟩, input)

def readAskedPartition : Decoder AskedPartition := fun input => do
  let (partition, input) ← input.readInt32
  let (nextOffset, input) ← input.readInt64
  if nextOffset < 0 then .error (.corruptData s!"offset commit: negative offset {nextOffset}")
  else do
    let (metadata, input) ← readString input
    return (⟨partition, nextOffset, metadata⟩, input)

def decodeOffsetCommitRequest : Decoder OffsetCommitRequest := fun input => do
  let (groupId, input) ← readString input
  let (generation, input) ← input.readInt32
  let (memberId, input) ← readString input
  let (topics, input) ← readTopics readAskedPartition input
  return (⟨groupId, generation, memberId, topics.map fun topic => ⟨topic.name, topic.partitions⟩⟩, input)

def decodeOffsetFetchRequest : Decoder OffsetFetchRequest := fun input => do
  let (groupId, input) ← readString input
  let (topics, input) ← readTopics (·.readInt32) input
  return (⟨groupId, topics⟩, input)

section Decoded

variable {input after : BufferReader}

theorem decoded_produce_short {request : ProduceRequest}
    (decoded : decodeProduceRequest input = .ok (request, after)) :
    ∀ topic ∈ request.topics, topic.name.length < 2 ^ 15 := by
  obtain ⟨⟨acks, input⟩, _, decoded⟩ := except_bind_ok decoded
  obtain ⟨⟨timeoutMs, input⟩, _, decoded⟩ := except_bind_ok decoded
  obtain ⟨⟨topics, input⟩, read, decoded⟩ := except_bind_ok decoded
  cases decoded
  exact read_topics_short read

theorem decoded_create_topic_short {request : CreateTopicRequest}
    (decoded : decodeCreateTopicRequest input = .ok (request, after)) :
    ∀ topic ∈ request.topics, topic.name.length < 2 ^ 15 := by
  obtain ⟨⟨topics, input⟩, read, decoded⟩ := except_bind_ok decoded
  obtain ⟨⟨timeoutMs, input⟩, _, decoded⟩ := except_bind_ok decoded
  cases decoded
  apply read_array_forall (P := fun topic : TopicRequest => topic.name.length < 2 ^ 15) ?_ read
  intro input topic after isTopic
  obtain ⟨⟨name, input⟩, isName, isTopic⟩ := except_bind_ok isTopic
  obtain ⟨⟨partitionCount, input⟩, _, isTopic⟩ := except_bind_ok isTopic
  obtain ⟨⟨retentionMs, input⟩, _, isTopic⟩ := except_bind_ok isTopic
  obtain ⟨⟨retentionBytes, input⟩, _, isTopic⟩ := except_bind_ok isTopic
  obtain ⟨⟨maxSegmentBytes, input⟩, _, isTopic⟩ := except_bind_ok isTopic
  obtain ⟨⟨compact, input⟩, _, isTopic⟩ := except_bind_ok isTopic
  cases isTopic
  exact read_string_short isName

theorem decoded_offset_commit_short {request : OffsetCommitRequest}
    (decoded : decodeOffsetCommitRequest input = .ok (request, after)) :
    ∀ topic ∈ request.topics, topic.name.length < 2 ^ 15 := by
  obtain ⟨⟨groupId, input⟩, _, decoded⟩ := except_bind_ok decoded
  obtain ⟨⟨generation, input⟩, _, decoded⟩ := except_bind_ok decoded
  obtain ⟨⟨memberId, input⟩, _, decoded⟩ := except_bind_ok decoded
  obtain ⟨⟨topics, input⟩, read, decoded⟩ := except_bind_ok decoded
  cases decoded
  intro topic member
  obtain ⟨original, present, rfl⟩ := List.mem_map.mp member
  exact read_topics_short read original present

structure JoinGroupRequest.Short (request : JoinGroupRequest) : Prop where
  memberId : request.memberId.length < 2 ^ 15
  subscription : ∀ topic ∈ request.subscription, topic.length < 2 ^ 15
  protocols : ∀ strategy ∈ request.protocols, strategy.length < 2 ^ 15

theorem decoded_join_group_short {request : JoinGroupRequest}
    (decoded : decodeJoinGroupRequest input = .ok (request, after)) : request.Short := by
  have strings : ∀ {input after : BufferReader} {values : List Bytes} {what : String},
      readStrings input what = .ok (values, after) → ∀ value ∈ values, value.length < 2 ^ 15 := by
    intro input after values what read
    exact read_array_forall (fun _ _ _ one => read_string_short one) read
  obtain ⟨⟨groupId, input⟩, _, decoded⟩ := except_bind_ok decoded
  obtain ⟨⟨sessionTimeoutMs, input⟩, _, decoded⟩ := except_bind_ok decoded
  obtain ⟨⟨memberId, input⟩, isMember, decoded⟩ := except_bind_ok decoded
  obtain ⟨⟨subscription, input⟩, isSubscription, decoded⟩ := except_bind_ok decoded
  obtain ⟨⟨protocols, input⟩, isProtocols, decoded⟩ := except_bind_ok decoded
  cases decoded
  exact ⟨read_string_short isMember, strings isSubscription, strings isProtocols⟩

end Decoded

end DariyaKyu.Server

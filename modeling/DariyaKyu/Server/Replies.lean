import DariyaKyu.Protocol.Response
import DariyaKyu.Server.Produce
import DariyaKyu.Server.Requests

/-!
The response encoders of `protocol/*.cpp`. Eleven responses are built in one
buffer. That of a fetch is not: wherever records follow, what was built so far
goes into the response first, and the records are a place in a file.
-/

namespace DariyaKyu.Server

set_option autoImplicit false

open Protocol Groups Storage

structure ProducedPartition where
  partition : Int := 0
  error : ErrorCode := .none
  baseOffset : Int := -1

structure FetchedPartition where
  answer : FetchAnswer
  file : FileHandle

structure ListedPartition where
  partition : Int := 0
  error : ErrorCode := .none
  offset : Int := 0

structure BrokerAddress where
  nodeId : Int := 0
  host : Bytes
  port : Int := 0

structure DescribedPartition where
  error : ErrorCode := .none
  partition : Int := 0
  leader : Int := 0

structure DescribedTopic where
  error : ErrorCode := .none
  name : Bytes
  partitions : List DescribedPartition := []

structure MetadataResponse where
  brokers : List BrokerAddress
  controllerId : Int := -1
  topics : List DescribedTopic

structure FindCoordinatorResponse where
  error : ErrorCode := .none
  nodeId : Int := -1
  host : Bytes := []
  port : Int := 0

structure FetchedOffset where
  partition : Int := 0
  nextOffset : Int := -1
  metadata : Bytes := []
  error : ErrorCode := .none

def writeErrorCode (code : ErrorCode) : Bytes := writeInt16 code.number

def encodeProduceResponse : List (TopicOf ProducedPartition) → Except Error Bytes :=
  writeTopics fun partition =>
    .ok (writeInt32 partition.partition ++ writeErrorCode partition.error ++ writeInt64 partition.baseOffset)

def fetchedFront (answer : FetchAnswer) : Bytes :=
  writeInt32 answer.partition ++ writeErrorCode answer.error ++ writeInt64 answer.highWatermark ++
    writeInt64 answer.logStartOffset ++ writeInt32 answer.records.length

/-- One partition: the response as far as it has got and the buffer behind it. -/
def encodeFetched (state : Response × Bytes) (fetched : FetchedPartition) : Response × Bytes :=
  let buffer := state.2 ++ fetchedFront fetched.answer
  if fetched.answer.records.length = 0 then (state.1, buffer)
  else
    ((state.1.append buffer).appendRange
      ⟨fetched.file, fetched.answer.records.position, fetched.answer.records.length⟩, [])

def encodeFetchedTopic (state : Response × Bytes) (topic : TopicOf FetchedPartition) :
    Except Error (Response × Bytes) := do
  let name ← writeString topic.name
  return topic.partitions.foldl encodeFetched
    (state.1, state.2 ++ name ++ writeInt32 topic.partitions.length)

def encodeFetchResponse (out : Response) (topics : List (TopicOf FetchedPartition)) : Except Error Response := do
  let (out, buffer) ← topics.foldlM encodeFetchedTopic (out, writeInt32 topics.length)
  return out.append buffer

def encodeListOffsetsResponse : List (TopicOf ListedPartition) → Except Error Bytes :=
  writeTopics fun partition =>
    .ok (writeInt32 partition.partition ++ writeErrorCode partition.error ++ writeInt64 partition.offset)

def encodeMetadataResponse (response : MetadataResponse) : Except Error Bytes := do
  let brokers ← writeArray (fun broker : BrokerAddress => do
    let host ← writeString broker.host
    return writeInt32 broker.nodeId ++ host ++ writeInt32 broker.port) response.brokers
  let topics ← writeArray (fun topic : DescribedTopic => do
    let name ← writeString topic.name
    let partitions ← writeArray (fun partition : DescribedPartition =>
      .ok (writeErrorCode partition.error ++ writeInt32 partition.partition ++ writeInt32 partition.leader))
      topic.partitions
    return writeErrorCode topic.error ++ name ++ partitions) response.topics
  return brokers ++ writeInt32 response.controllerId ++ topics

def encodeCreateTopicResponse : List (Bytes × ErrorCode) → Except Error Bytes :=
  writeArray fun topic => do
    let name ← writeString topic.1
    return name ++ writeErrorCode topic.2

def encodeFindCoordinatorResponse (response : FindCoordinatorResponse) : Except Error Bytes := do
  let host ← writeString response.host
  return writeErrorCode response.error ++ writeInt32 response.nodeId ++ host ++ writeInt32 response.port

def writeMemberInfo (member : Member) : Except Error Bytes := do
  let memberId ← writeString member.memberId
  let subscription ← writeStrings member.subscription
  return memberId ++ subscription

def encodeJoinGroupResponse (joined : JoinResult) : Except Error Bytes := do
  let protocolName ← writeString joined.protocolName
  let leaderId ← writeString joined.leaderId
  let memberId ← writeString joined.memberId
  let members ← writeArray writeMemberInfo joined.members
  return writeErrorCode joined.error ++ writeInt32 joined.generation ++ protocolName ++ leaderId ++
    memberId ++ members

def encodeSyncGroupResponse (synced : SyncResult) : Except Error Bytes :=
  .ok (writeErrorCode synced.error ++ writeBytes synced.assignment)

def encodeHeartbeatResponse (error : ErrorCode) : Except Error Bytes := .ok (writeErrorCode error)

def encodeLeaveGroupResponse (error : ErrorCode) : Except Error Bytes := .ok (writeErrorCode error)

def encodeOffsetCommitResponse (response : OffsetCommitResponse) : Except Error Bytes :=
  writeTopics (fun partition : AnsweredPartition =>
    .ok (writeInt32 partition.partition ++ writeErrorCode partition.error))
    (response.topics.map fun topic => ⟨topic.name, topic.partitions⟩)

def encodeOffsetFetchResponse : List (TopicOf FetchedOffset) → Except Error Bytes :=
  writeTopics fun partition => do
    let metadata ← writeString partition.metadata
    return writeInt32 partition.partition ++ writeInt64 partition.nextOffset ++ metadata ++
      writeErrorCode partition.error

section Encoding

/-- Nothing but a name can keep a response from being written. -/
theorem encode_produce_ok {topics : List (TopicOf ProducedPartition)}
    (short : ∀ topic ∈ topics, topic.name.length < 2 ^ 15) :
    ∃ written, encodeProduceResponse topics = .ok written :=
  write_topics_ok short fun _ _ _ _ => ⟨_, rfl⟩

theorem encode_create_topic_ok {answers : List (Bytes × ErrorCode)}
    (short : ∀ answer ∈ answers, answer.1.length < 2 ^ 15) :
    ∃ written, encodeCreateTopicResponse answers = .ok written := by
  apply write_array_ok
  intro answer member
  exact ⟨_, by rw [write_string_ok (short answer member), except_ok_bind]; rfl⟩

theorem encode_offset_commit_ok {response : OffsetCommitResponse}
    (short : ∀ topic ∈ response.topics, topic.name.length < 2 ^ 15) :
    ∃ written, encodeOffsetCommitResponse response = .ok written := by
  apply write_topics_ok ?_ fun _ _ _ _ => ⟨_, rfl⟩
  intro topic member
  obtain ⟨original, present, rfl⟩ := List.mem_map.mp member
  exact short original present

structure JoinTold (joined : JoinResult) : Prop where
  protocolName : joined.protocolName.length < 2 ^ 15
  leaderId : joined.leaderId.length < 2 ^ 15
  memberId : joined.memberId.length < 2 ^ 15
  members : ∀ member ∈ joined.members, member.memberId.length < 2 ^ 15 ∧
    ∀ topic ∈ member.subscription, topic.length < 2 ^ 15

theorem encode_join_group_ok {joined : JoinResult} (told : JoinTold joined) :
    ∃ written, encodeJoinGroupResponse joined = .ok written := by
  obtain ⟨members, wrote⟩ : ∃ members, writeArray writeMemberInfo joined.members = .ok members := by
    apply write_array_ok
    intro member present
    obtain ⟨shortId, shortTopics⟩ := told.members member present
    obtain ⟨subscription, wrote⟩ : ∃ written, writeStrings member.subscription = .ok written :=
      write_array_ok fun topic isTopic => ⟨_, write_string_ok (shortTopics topic isTopic)⟩
    exact ⟨_, by rw [writeMemberInfo, write_string_ok shortId, except_ok_bind, wrote]; rfl⟩
  simp only [encodeJoinGroupResponse, write_string_ok told.protocolName, write_string_ok told.leaderId,
    write_string_ok told.memberId, wrote, except_ok_bind]
  exact ⟨_, rfl⟩

/-- A member id that is too long for its length field is never sent. -/
theorem encode_join_group_long {joined : JoinResult} (long : 2 ^ 15 ≤ joined.memberId.length) :
    ∃ failure, encodeJoinGroupResponse joined = .error failure := by
  have refused : ∃ failure, writeString joined.memberId = .error failure :=
    ⟨_, by rw [writeString, if_pos (by omega)]⟩
  obtain ⟨failure, refused⟩ := refused
  unfold encodeJoinGroupResponse
  cases writeString joined.protocolName with
  | error failure => exact ⟨failure, rfl⟩
  | ok protocolName =>
      cases writeString joined.leaderId with
      | error failure => exact ⟨failure, rfl⟩
      | ok leaderId =>
          rw [refused]
          exact ⟨failure, rfl⟩

/-- The records of a partition lie in the file that goes with them. -/
def FetchedPartition.Covered (fetched : FetchedPartition) : Prop :=
  fetched.answer.records.length = 0 ∨
    fetched.answer.records.position + fetched.answer.records.length ≤ fetched.file.size

/-- A response that only grows, by pieces that their files have. -/
structure GrownFrom (out next : Response) : Prop where
  starts : out.sent <+: next.sent
  covered : out.Covered → next.Covered

theorem GrownFrom.refl (out : Response) : GrownFrom out out := ⟨List.prefix_rfl, id⟩

theorem GrownFrom.trans {out next last : Response} (first : GrownFrom out next) (second : GrownFrom next last) :
    GrownFrom out last :=
  ⟨first.starts.trans second.starts, second.covered ∘ first.covered⟩

theorem grown_append (out : Response) (buffer : Bytes) : GrownFrom out (out.append buffer) :=
  ⟨by rw [sent_append]; exact List.prefix_append _ _, fun covered => covered.append buffer⟩

theorem encode_fetched_grown (state : Response × Bytes) {fetched : FetchedPartition}
    (covered : fetched.Covered) : GrownFrom state.1 (encodeFetched state fetched).1 := by
  simp only [encodeFetched]
  split
  · exact GrownFrom.refl _
  · next occupied =>
    apply (grown_append state.1 _).trans
    refine ⟨by rw [sent_append_range]; exact List.prefix_append _ _, fun before => before.append_range ?_⟩
    exact covered.resolve_left occupied

theorem encode_fetch_grown {out next : Response} {topics : List (TopicOf FetchedPartition)}
    (covered : ∀ topic ∈ topics, ∀ fetched ∈ topic.partitions, fetched.Covered)
    (encoded : encodeFetchResponse out topics = .ok next) : GrownFrom out next := by
  have one_topic : ∀ (partitions : List FetchedPartition) (state : Response × Bytes),
      (∀ fetched ∈ partitions, fetched.Covered) →
        GrownFrom state.1 (partitions.foldl encodeFetched state).1 := by
    intro partitions
    induction partitions with
    | nil => intro state _; exact GrownFrom.refl _
    | cons fetched rest ih =>
        intro state all
        obtain ⟨first, others⟩ := List.forall_mem_cons.mp all
        exact (encode_fetched_grown state first).trans (ih _ others)
  have all_topics : ∀ (topics : List (TopicOf FetchedPartition)) (state ends : Response × Bytes),
      (∀ topic ∈ topics, ∀ fetched ∈ topic.partitions, fetched.Covered) →
        topics.foldlM encodeFetchedTopic state = .ok ends → GrownFrom state.1 ends.1 := by
    intro topics
    induction topics with
    | nil =>
        intro state ends _ folded
        cases folded
        exact GrownFrom.refl _
    | cons topic rest ih =>
        intro state ends all folded
        obtain ⟨first, others⟩ := List.forall_mem_cons.mp all
        rw [List.foldlM_cons] at folded
        obtain ⟨between, step, folded⟩ := except_bind_ok folded
        obtain ⟨name, _, made⟩ := except_bind_ok step
        cases made
        have grown := one_topic topic.partitions
          (state.1, state.2 ++ name ++ writeInt32 topic.partitions.length) first
        exact grown.trans (ih _ ends others folded)
  obtain ⟨⟨grown, buffer⟩, folded, made⟩ := except_bind_ok encoded
  cases made
  exact (all_topics topics _ _ covered folded).trans (grown_append grown buffer)

end Encoding

end DariyaKyu.Server

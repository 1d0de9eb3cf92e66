import DariyaKyu.Server.Replies
import DariyaKyu.Server.RequestCodecs

/-!
The response decoders of `protocol/*.cpp`, which only a client uses, against the
encoders. An error code travels as 16 bits, and a client may receive one that
this broker does not know: what is received has the number. What the broker
sends is written as what the client will have received.
-/

namespace DariyaKyu.Server

set_option autoImplicit false

open Protocol Groups Storage PrefixCodec BufferReader

structure ReceivedProduce where
  partition : Int := 0
  error : Int := 0
  baseOffset : Int := -1

structure ReceivedPartition where
  error : Int := 0
  partition : Int := 0
  leader : Int := 0

structure ReceivedTopic where
  error : Int := 0
  name : Bytes
  partitions : List ReceivedPartition

structure ReceivedMetadata where
  brokers : List BrokerAddress
  controllerId : Int := -1
  topics : List ReceivedTopic

structure ReceivedCreation where
  name : Bytes
  error : Int := 0

structure ReceivedCoordinator where
  error : Int := 0
  nodeId : Int := -1
  host : Bytes
  port : Int := 0

structure MemberInfo where
  memberId : Bytes
  subscription : List Bytes

structure ReceivedJoin where
  error : Int := 0
  generation : Int := -1
  protocolName : Bytes
  leaderId : Bytes
  memberId : Bytes
  members : List MemberInfo

structure ReceivedSync where
  error : Int := 0
  assignment : Bytes

structure ReceivedCommit where
  partition : Int := 0
  error : Int := 0

structure ReceivedPosition where
  partition : Int := 0
  nextOffset : Int := -1
  metadata : Bytes
  error : Int := 0

section Decoders

def readProduced : Decoder ReceivedProduce := fun input => do
  let (partition, input) ← input.readInt32
  let (error, input) ← input.readInt16
  let (baseOffset, input) ← input.readInt64
  return (⟨partition, error, baseOffset⟩, input)

def decodeProduceResponse : Decoder (List (TopicOf ReceivedProduce)) := readTopics readProduced

def readBroker : Decoder BrokerAddress := fun input => do
  let (nodeId, input) ← input.readInt32
  let (host, input) ← readString input
  let (port, input) ← input.readInt32
  return (⟨nodeId, host, port⟩, input)

def readDescribedPartition : Decoder ReceivedPartition := fun input => do
  let (error, input) ← input.readInt16
  let (partition, input) ← input.readInt32
  let (leader, input) ← input.readInt32
  return (⟨error, partition, leader⟩, input)

def readDescribedTopic : Decoder ReceivedTopic := fun input => do
  let (error, input) ← input.readInt16
  let (name, input) ← readString input
  let (partitions, input) ← readArray readDescribedPartition "partition" input
  return (⟨error, name, partitions⟩, input)

def decodeMetadataResponse : Decoder ReceivedMetadata := fun input => do
  let (brokers, input) ← readArray readBroker "broker" input
  let (controllerId, input) ← input.readInt32
  let (topics, input) ← readArray readDescribedTopic "topic" input
  return (⟨brokers, controllerId, topics⟩, input)

def readCreation : Decoder ReceivedCreation := fun input => do
  let (name, input) ← readString input
  let (error, input) ← input.readInt16
  return (⟨name, error⟩, input)

def decodeCreateTopicResponse : Decoder (List ReceivedCreation) := readArray readCreation "topic"

def decodeFindCoordinatorResponse : Decoder ReceivedCoordinator := fun input => do
  let (error, input) ← input.readInt16
  let (nodeId, input) ← input.readInt32
  let (host, input) ← readString input
  let (port, input) ← input.readInt32
  return (⟨error, nodeId, host, port⟩, input)

def readMemberInfo : Decoder MemberInfo := fun input => do
  let (memberId, input) ← readString input
  let (subscription, input) ← readStrings input "subscription"
  return (⟨memberId, subscription⟩, input)

def decodeJoinGroupResponse : Decoder ReceivedJoin := fun input => do
  let (error, input) ← input.readInt16
  let (generation, input) ← input.readInt32
  let (protocolName, input) ← readString input
  let (leaderId, input) ← readString input
  let (memberId, input) ← readString input
  let (members, input) ← readArray readMemberInfo "member" input
  return (⟨error, generation, protocolName, leaderId, memberId, members⟩, input)

def decodeSyncGroupResponse : Decoder ReceivedSync := fun input => do
  let (error, input) ← input.readInt16
  let (assignment, input) ← readBytes input "assignment"
  return (⟨error, assignment⟩, input)

def decodeHeartbeatResponse : Decoder Int := fun input => input.readInt16

def decodeLeaveGroupResponse : Decoder Int := fun input => input.readInt16

def readCommitted : Decoder ReceivedCommit := fun input => do
  let (partition, input) ← input.readInt32
  let (error, input) ← input.readInt16
  return (⟨partition, error⟩, input)

def decodeOffsetCommitResponse : Decoder (List (TopicOf ReceivedCommit)) := readTopics readCommitted

def readPosition : Decoder ReceivedPosition := fun input => do
  let (partition, input) ← input.readInt32
  let (nextOffset, input) ← input.readInt64
  let (metadata, input) ← readString input
  let (error, input) ← input.readInt16
  return (⟨partition, nextOffset, metadata, error⟩, input)

def decodeOffsetFetchResponse : Decoder (List (TopicOf ReceivedPosition)) := readTopics readPosition

end Decoders

section Writers

def writeProduced (produced : ReceivedProduce) : Except Error Bytes :=
  .ok (writeInt32 produced.partition ++ writeInt16 produced.error ++ writeInt64 produced.baseOffset)

def writeProduceResponse : List (TopicOf ReceivedProduce) → Except Error Bytes := writeTopics writeProduced

def writeBroker (broker : BrokerAddress) : Except Error Bytes := do
  let host ← writeString broker.host
  return writeInt32 broker.nodeId ++ host ++ writeInt32 broker.port

def writeDescribedPartition (described : ReceivedPartition) : Except Error Bytes :=
  .ok (writeInt16 described.error ++ writeInt32 described.partition ++ writeInt32 described.leader)

def writeDescribedTopic (topic : ReceivedTopic) : Except Error Bytes := do
  let name ← writeString topic.name
  let partitions ← writeArray writeDescribedPartition topic.partitions
  return writeInt16 topic.error ++ name ++ partitions

def writeMetadataResponse (response : ReceivedMetadata) : Except Error Bytes := do
  let brokers ← writeArray writeBroker response.brokers
  let topics ← writeArray writeDescribedTopic response.topics
  return brokers ++ writeInt32 response.controllerId ++ topics

def writeCreation (created : ReceivedCreation) : Except Error Bytes := do
  let name ← writeString created.name
  return name ++ writeInt16 created.error

def writeCreateTopicResponse : List ReceivedCreation → Except Error Bytes := writeArray writeCreation

def writeFindCoordinatorResponse (response : ReceivedCoordinator) : Except Error Bytes := do
  let host ← writeString response.host
  return writeInt16 response.error ++ writeInt32 response.nodeId ++ host ++ writeInt32 response.port

def writeInfo (info : MemberInfo) : Except Error Bytes := do
  let memberId ← writeString info.memberId
  let subscription ← writeStrings info.subscription
  return memberId ++ subscription

def writeJoinGroupResponse (joined : ReceivedJoin) : Except Error Bytes := do
  let protocolName ← writeString joined.protocolName
  let leaderId ← writeString joined.leaderId
  let memberId ← writeString joined.memberId
  let members ← writeArray writeInfo joined.members
  return writeInt16 joined.error ++ writeInt32 joined.generation ++ protocolName ++ leaderId ++ memberId ++ members

def writeSyncGroupResponse (synced : ReceivedSync) : Except Error Bytes :=
  .ok (writeInt16 synced.error ++ writeBytes synced.assignment)

def writeHeartbeatResponse (error : Int) : Except Error Bytes := .ok (writeInt16 error)

def writeLeaveGroupResponse (error : Int) : Except Error Bytes := .ok (writeInt16 error)

def writeCommitted (committed : ReceivedCommit) : Except Error Bytes :=
  .ok (writeInt32 committed.partition ++ writeInt16 committed.error)

def writeOffsetCommitResponse : List (TopicOf ReceivedCommit) → Except Error Bytes := writeTopics writeCommitted

def writePosition (position : ReceivedPosition) : Except Error Bytes := do
  let metadata ← writeString position.metadata
  return writeInt32 position.partition ++ writeInt64 position.nextOffset ++ metadata ++ writeInt16 position.error

def writeOffsetFetchResponse : List (TopicOf ReceivedPosition) → Except Error Bytes := writeTopics writePosition

end Writers

section Sent

def ProducedPartition.received (produced : ProducedPartition) : ReceivedProduce :=
  ⟨produced.partition, produced.error.number, produced.baseOffset⟩

def DescribedPartition.received (described : DescribedPartition) : ReceivedPartition :=
  ⟨described.error.number, described.partition, described.leader⟩

def DescribedTopic.received (topic : DescribedTopic) : ReceivedTopic :=
  ⟨topic.error.number, topic.name, topic.partitions.map DescribedPartition.received⟩

def MetadataResponse.received (response : MetadataResponse) : ReceivedMetadata :=
  ⟨response.brokers, response.controllerId, response.topics.map DescribedTopic.received⟩

def FindCoordinatorResponse.received (response : FindCoordinatorResponse) : ReceivedCoordinator :=
  ⟨response.error.number, response.nodeId, response.host, response.port⟩

def memberInfo (member : Member) : MemberInfo := ⟨member.memberId, member.subscription⟩

def joinReceived (joined : JoinResult) : ReceivedJoin :=
  ⟨joined.error.number, joined.generation, joined.protocolName, joined.leaderId, joined.memberId,
    joined.members.map memberInfo⟩

def FetchedOffset.received (fetched : FetchedOffset) : ReceivedPosition :=
  ⟨fetched.partition, fetched.nextOffset, fetched.metadata, fetched.error.number⟩

def OffsetCommitResponse.received (response : OffsetCommitResponse) : List (TopicOf ReceivedCommit) :=
  response.topics.map fun topic =>
    ⟨topic.name, topic.partitions.map fun answered => ⟨answered.partition, answered.error.number⟩⟩

theorem write_array_over {α γ : Type} {look : α → γ} (write : γ → Except Error Bytes) (values : List α) :
    writeArray write (values.map look) = writeArray (write ∘ look) values := by
  simp only [writeArray, List.mapM_map, List.length_map]

theorem produce_response_sent (topics : List (TopicOf ProducedPartition)) :
    encodeProduceResponse topics =
      writeProduceResponse (topics.map (TopicOf.over ProducedPartition.received)) := by
  rw [writeProduceResponse, write_topics_over]
  rfl

theorem metadata_response_sent (response : MetadataResponse) :
    encodeMetadataResponse response = writeMetadataResponse response.received := by
  have eachTopic : writeDescribedTopic ∘ DescribedTopic.received = fun topic : DescribedTopic => do
      let name ← writeString topic.name
      let partitions ← writeArray (fun partition : DescribedPartition =>
        .ok (writeErrorCode partition.error ++ writeInt32 partition.partition ++ writeInt32 partition.leader))
        topic.partitions
      return writeErrorCode topic.error ++ name ++ partitions := by
    funext topic
    simp only [Function.comp_apply, writeDescribedTopic, DescribedTopic.received, write_array_over]
    rfl
  simp only [writeMetadataResponse, MetadataResponse.received, write_array_over, eachTopic]
  rfl

theorem create_topic_response_sent (topics : List (Bytes × ErrorCode)) :
    encodeCreateTopicResponse topics =
      writeCreateTopicResponse (topics.map fun topic => ⟨topic.1, topic.2.number⟩) := by
  rw [writeCreateTopicResponse, write_array_over]
  rfl

theorem find_coordinator_response_sent (response : FindCoordinatorResponse) :
    encodeFindCoordinatorResponse response = writeFindCoordinatorResponse response.received := rfl

theorem join_group_response_sent (joined : JoinResult) :
    encodeJoinGroupResponse joined = writeJoinGroupResponse (joinReceived joined) := by
  simp only [writeJoinGroupResponse, joinReceived, write_array_over]
  rfl

theorem sync_group_response_sent (synced : SyncResult) :
    encodeSyncGroupResponse synced = writeSyncGroupResponse ⟨synced.error.number, synced.assignment⟩ := rfl

theorem heartbeat_response_sent (error : ErrorCode) :
    encodeHeartbeatResponse error = writeHeartbeatResponse error.number := rfl

theorem leave_group_response_sent (error : ErrorCode) :
    encodeLeaveGroupResponse error = writeLeaveGroupResponse error.number := rfl

theorem offset_commit_response_sent (response : OffsetCommitResponse) :
    encodeOffsetCommitResponse response = writeOffsetCommitResponse response.received := by
  have topics : response.received = (response.topics.map fun topic => (⟨topic.name, topic.partitions⟩ : TopicOf _)).map
      (TopicOf.over fun answered : AnsweredPartition => ⟨answered.partition, answered.error.number⟩) := by
    rw [List.map_map]
    rfl
  rw [writeOffsetCommitResponse, topics, write_topics_over]
  rfl

theorem offset_fetch_response_sent (topics : List (TopicOf FetchedOffset)) :
    encodeOffsetFetchResponse topics =
      writeOffsetFetchResponse (topics.map (TopicOf.over FetchedOffset.received)) := by
  rw [writeOffsetFetchResponse, write_topics_over]
  rfl

end Sent

section Topics

structure ReceivedProduce.Fits (produced : ReceivedProduce) : Prop where
  partition : FitsSigned 32 produced.partition
  error : FitsSigned 16 produced.error
  baseOffset : FitsSigned 64 produced.baseOffset

structure ReceivedCreation.Fits (created : ReceivedCreation) : Prop where
  name : ShortString created.name
  error : FitsSigned 16 created.error

structure CreationsFit (topics : List ReceivedCreation) : Prop where
  countable : CountFits topics
  topics : ∀ created ∈ topics, ReceivedCreation.Fits created

structure ReceivedCommit.Fits (committed : ReceivedCommit) : Prop where
  partition : FitsSigned 32 committed.partition
  error : FitsSigned 16 committed.error

structure ReceivedPosition.Fits (position : ReceivedPosition) : Prop where
  partition : FitsSigned 32 position.partition
  nextOffset : FitsSigned 64 position.nextOffset
  metadata : ShortString position.metadata
  error : FitsSigned 16 position.error

theorem produced_round_trips {produced : ReceivedProduce} (fits : ReceivedProduce.Fits produced) :
    RoundTrips readProduced writeProduced produced := by
  refine ⟨_, rfl, by simp [writeInt32, write_int_occupied], ?_⟩
  simp only [List.append_assoc]
  apply Writes.bind (read_int32_writes fits.partition)
  apply Writes.bind (read_int16_writes fits.error)
  exact Writes.last (read_int64_writes fits.baseOffset) fun _ => rfl

theorem produced_reads : Reads IsCorrupt readProduced := by
  apply Reads.bind (read_int_reads 32)
  intro partition
  apply Reads.bind (read_int_reads 16)
  intro error
  apply Reads.bind (read_int_reads 64)
  intro baseOffset
  exact Reads.ok _

theorem creation_round_trips {created : ReceivedCreation} (fits : ReceivedCreation.Fits created) :
    RoundTrips readCreation writeCreation created := by
  obtain ⟨name, wrote, occupied, reads⟩ := string_round_trips fits.name
  refine ⟨_, by rw [writeCreation, wrote]; rfl, by simp [occupied], ?_⟩
  apply Writes.bind reads
  exact Writes.last (read_int16_writes fits.error) fun _ => rfl

theorem creation_reads : Reads IsCorrupt readCreation := by
  apply Reads.bind read_string_reads
  intro name
  apply Reads.bind (read_int_reads 16)
  intro error
  exact Reads.ok _

theorem creations_round_trip {topics : List ReceivedCreation} (fits : CreationsFit topics) :
    RoundTrips decodeCreateTopicResponse writeCreateTopicResponse topics :=
  array_round_trips "topic" fits.countable fun created member => creation_round_trips (fits.topics created member)

theorem committed_round_trips {committed : ReceivedCommit} (fits : ReceivedCommit.Fits committed) :
    RoundTrips readCommitted writeCommitted committed := by
  refine ⟨_, rfl, by simp [writeInt32, write_int_occupied], ?_⟩
  apply Writes.bind (read_int32_writes fits.partition)
  exact Writes.last (read_int16_writes fits.error) fun _ => rfl

theorem committed_reads : Reads IsCorrupt readCommitted := by
  apply Reads.bind (read_int_reads 32)
  intro partition
  apply Reads.bind (read_int_reads 16)
  intro error
  exact Reads.ok _

theorem position_round_trips {position : ReceivedPosition} (fits : ReceivedPosition.Fits position) :
    RoundTrips readPosition writePosition position := by
  obtain ⟨metadata, wrote, _, reads⟩ := string_round_trips fits.metadata
  refine ⟨_, by rw [writePosition, wrote]; rfl, by simp [writeInt32, write_int_occupied], ?_⟩
  simp only [List.append_assoc]
  apply Writes.bind (read_int32_writes fits.partition)
  apply Writes.bind (read_int64_writes fits.nextOffset)
  apply Writes.bind reads
  exact Writes.last (read_int16_writes fits.error) fun _ => rfl

theorem position_reads : Reads IsCorrupt readPosition := by
  apply Reads.bind (read_int_reads 32)
  intro partition
  apply Reads.bind (read_int_reads 64)
  intro nextOffset
  apply Reads.bind read_string_reads
  intro metadata
  apply Reads.bind (read_int_reads 16)
  intro error
  exact Reads.ok _

end Topics

section Metadata

structure BrokerAddress.Fits (broker : BrokerAddress) : Prop where
  nodeId : FitsSigned 32 broker.nodeId
  host : ShortString broker.host
  port : FitsSigned 32 broker.port

structure ReceivedPartition.Fits (described : ReceivedPartition) : Prop where
  error : FitsSigned 16 described.error
  partition : FitsSigned 32 described.partition
  leader : FitsSigned 32 described.leader

structure ReceivedTopic.Fits (topic : ReceivedTopic) : Prop where
  error : FitsSigned 16 topic.error
  name : ShortString topic.name
  countable : CountFits topic.partitions
  partitions : ∀ described ∈ topic.partitions, ReceivedPartition.Fits described

structure ReceivedMetadata.Fits (response : ReceivedMetadata) : Prop where
  brokerCount : CountFits response.brokers
  brokers : ∀ broker ∈ response.brokers, BrokerAddress.Fits broker
  controllerId : FitsSigned 32 response.controllerId
  topicCount : CountFits response.topics
  topics : ∀ topic ∈ response.topics, ReceivedTopic.Fits topic

theorem broker_round_trips {broker : BrokerAddress} (fits : BrokerAddress.Fits broker) :
    RoundTrips readBroker writeBroker broker := by
  obtain ⟨host, wrote, _, reads⟩ := string_round_trips fits.host
  refine ⟨_, by rw [writeBroker, wrote]; rfl, by simp [writeInt32, write_int_occupied], ?_⟩
  simp only [List.append_assoc]
  apply Writes.bind (read_int32_writes fits.nodeId)
  apply Writes.bind reads
  exact Writes.last (read_int32_writes fits.port) fun _ => rfl

theorem described_partition_round_trips {described : ReceivedPartition}
    (fits : ReceivedPartition.Fits described) :
    RoundTrips readDescribedPartition writeDescribedPartition described := by
  refine ⟨_, rfl, by simp [writeInt16, write_int_occupied], ?_⟩
  simp only [List.append_assoc]
  apply Writes.bind (read_int16_writes fits.error)
  apply Writes.bind (read_int32_writes fits.partition)
  exact Writes.last (read_int32_writes fits.leader) fun _ => rfl

theorem described_topic_round_trips {topic : ReceivedTopic} (fits : ReceivedTopic.Fits topic) :
    RoundTrips readDescribedTopic writeDescribedTopic topic := by
  obtain ⟨name, wroteName, occupied, readsName⟩ := string_round_trips fits.name
  obtain ⟨partitions, wrote, _, reads⟩ := array_round_trips "partition" fits.countable fun described member =>
    described_partition_round_trips (fits.partitions described member)
  refine ⟨_, by rw [writeDescribedTopic, wroteName, except_ok_bind, wrote]; rfl, by simp [occupied], ?_⟩
  simp only [List.append_assoc]
  apply Writes.bind (read_int16_writes fits.error)
  apply Writes.bind readsName
  exact Writes.last reads fun _ => rfl

theorem metadata_response_round_trips {response : ReceivedMetadata} (fits : ReceivedMetadata.Fits response) :
    RoundTrips decodeMetadataResponse writeMetadataResponse response := by
  obtain ⟨brokers, wroteBrokers, occupied, readsBrokers⟩ := array_round_trips "broker" fits.brokerCount
    fun broker member => broker_round_trips (fits.brokers broker member)
  obtain ⟨topics, wrote, _, reads⟩ := array_round_trips "topic" fits.topicCount fun topic member =>
    described_topic_round_trips (fits.topics topic member)
  refine ⟨_, by rw [writeMetadataResponse, wroteBrokers, except_ok_bind, wrote]; rfl, by simp [occupied], ?_⟩
  simp only [List.append_assoc]
  apply Writes.bind readsBrokers
  apply Writes.bind (read_int32_writes fits.controllerId)
  exact Writes.last reads fun _ => rfl

theorem broker_reads : Reads IsCorrupt readBroker := by
  apply Reads.bind (read_int_reads 32)
  intro nodeId
  apply Reads.bind read_string_reads
  intro host
  apply Reads.bind (read_int_reads 32)
  intro port
  exact Reads.ok _

theorem described_topic_reads : Reads IsCorrupt readDescribedTopic := by
  apply Reads.bind (read_int_reads 16)
  intro error
  apply Reads.bind read_string_reads
  intro name
  apply Reads.bind (read_array_reads ?_ _)
  · intro partitions
    exact Reads.ok _
  · apply Reads.bind (read_int_reads 16)
    intro error
    apply Reads.bind (read_int_reads 32)
    intro partition
    apply Reads.bind (read_int_reads 32)
    intro leader
    exact Reads.ok _

theorem metadata_response_reads : Reads IsCorrupt decodeMetadataResponse := by
  apply Reads.bind (read_array_reads broker_reads _)
  intro brokers
  apply Reads.bind (read_int_reads 32)
  intro controllerId
  apply Reads.bind (read_array_reads described_topic_reads _)
  intro topics
  exact Reads.ok _

end Metadata

section Groups

structure ReceivedCoordinator.Fits (response : ReceivedCoordinator) : Prop where
  error : FitsSigned 16 response.error
  nodeId : FitsSigned 32 response.nodeId
  host : ShortString response.host
  port : FitsSigned 32 response.port

structure MemberInfo.Fits (info : MemberInfo) : Prop where
  memberId : ShortString info.memberId
  countable : CountFits info.subscription
  subscription : ∀ topic ∈ info.subscription, ShortString topic

instance (info : MemberInfo) : Decidable (MemberInfo.Fits info) :=
  decidable_of_iff
    (ShortString info.memberId ∧ CountFits info.subscription ∧ ∀ topic ∈ info.subscription, ShortString topic)
    ⟨fun ⟨memberId, countable, subscription⟩ => ⟨memberId, countable, subscription⟩,
      fun fits => ⟨fits.memberId, fits.countable, fits.subscription⟩⟩

structure ReceivedJoin.Fits (joined : ReceivedJoin) : Prop where
  error : FitsSigned 16 joined.error
  generation : FitsSigned 32 joined.generation
  protocolName : ShortString joined.protocolName
  leaderId : ShortString joined.leaderId
  memberId : ShortString joined.memberId
  countable : CountFits joined.members
  members : ∀ info ∈ joined.members, MemberInfo.Fits info

structure ReceivedSync.Fits (synced : ReceivedSync) : Prop where
  error : FitsSigned 16 synced.error
  countable : CountFits synced.assignment

theorem find_coordinator_response_round_trips {response : ReceivedCoordinator}
    (fits : ReceivedCoordinator.Fits response) :
    RoundTrips decodeFindCoordinatorResponse writeFindCoordinatorResponse response := by
  obtain ⟨host, wrote, _, reads⟩ := string_round_trips fits.host
  refine ⟨_, by rw [writeFindCoordinatorResponse, wrote]; rfl, by simp [writeInt16, write_int_occupied], ?_⟩
  simp only [List.append_assoc]
  apply Writes.bind (read_int16_writes fits.error)
  apply Writes.bind (read_int32_writes fits.nodeId)
  apply Writes.bind reads
  exact Writes.last (read_int32_writes fits.port) fun _ => rfl

theorem member_info_round_trips {info : MemberInfo} (fits : MemberInfo.Fits info) :
    RoundTrips readMemberInfo writeInfo info := by
  obtain ⟨memberId, wroteMember, occupied, readsMember⟩ := string_round_trips fits.memberId
  obtain ⟨topics, wrote, _, reads⟩ := strings_round_trip "subscription" fits.countable fits.subscription
  refine ⟨_, by rw [writeInfo, wroteMember, except_ok_bind, wrote]; rfl, by simp [occupied], ?_⟩
  apply Writes.bind readsMember
  exact Writes.last reads fun _ => rfl

theorem join_group_response_round_trips {joined : ReceivedJoin} (fits : ReceivedJoin.Fits joined) :
    RoundTrips decodeJoinGroupResponse writeJoinGroupResponse joined := by
  obtain ⟨protocolName, wroteProtocol, _, readsProtocol⟩ := string_round_trips fits.protocolName
  obtain ⟨leaderId, wroteLeader, _, readsLeader⟩ := string_round_trips fits.leaderId
  obtain ⟨memberId, wroteMember, _, readsMember⟩ := string_round_trips fits.memberId
  obtain ⟨members, wrote, _, reads⟩ := array_round_trips "member" fits.countable fun info member =>
    member_info_round_trips (fits.members info member)
  refine ⟨writeInt16 joined.error ++ writeInt32 joined.generation ++ protocolName ++ leaderId ++ memberId ++
    members, ?_, by simp [writeInt16, write_int_occupied], ?_⟩
  · simp only [writeJoinGroupResponse, wroteProtocol, wroteLeader, wroteMember, wrote, except_ok_bind]
    rfl
  · simp only [List.append_assoc]
    apply Writes.bind (read_int16_writes fits.error)
    apply Writes.bind (read_int32_writes fits.generation)
    apply Writes.bind readsProtocol
    apply Writes.bind readsLeader
    apply Writes.bind readsMember
    exact Writes.last reads fun _ => rfl

theorem sync_group_response_round_trips {synced : ReceivedSync} (fits : ReceivedSync.Fits synced) :
    RoundTrips decodeSyncGroupResponse writeSyncGroupResponse synced := by
  refine ⟨_, rfl, by simp [writeInt16, write_int_occupied], ?_⟩
  apply Writes.bind (read_int16_writes fits.error)
  exact Writes.last (sized_writes "assignment" fits.countable) fun _ => rfl

theorem error_code_round_trips {error : Int} (fits : FitsSigned 16 error) :
    RoundTrips (fun input : BufferReader => input.readInt16) (fun error => .ok (writeInt16 error)) error :=
  ⟨_, rfl, write_int_occupied (by decide) _, read_int16_writes fits⟩

theorem find_coordinator_response_reads : Reads IsCorrupt decodeFindCoordinatorResponse := by
  apply Reads.bind (read_int_reads 16)
  intro error
  apply Reads.bind (read_int_reads 32)
  intro nodeId
  apply Reads.bind read_string_reads
  intro host
  apply Reads.bind (read_int_reads 32)
  intro port
  exact Reads.ok _

theorem join_group_response_reads : Reads IsCorrupt decodeJoinGroupResponse := by
  apply Reads.bind (read_int_reads 16)
  intro error
  apply Reads.bind (read_int_reads 32)
  intro generation
  apply Reads.bind read_string_reads
  intro protocolName
  apply Reads.bind read_string_reads
  intro leaderId
  apply Reads.bind read_string_reads
  intro memberId
  apply Reads.bind (read_array_reads ?_ _)
  · intro members
    exact Reads.ok _
  · apply Reads.bind read_string_reads
    intro memberId
    apply Reads.bind (read_strings_reads _)
    intro subscription
    exact Reads.ok _

theorem sync_group_response_reads : Reads IsCorrupt decodeSyncGroupResponse := by
  apply Reads.bind (read_int_reads 16)
  intro error
  apply Reads.bind (read_sized_reads _)
  intro assignment
  exact Reads.ok _

end Groups

end DariyaKyu.Server

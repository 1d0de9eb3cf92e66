import DariyaKyu.Protocol.WireCodec
import DariyaKyu.Server.Requests

/-!
The request encoders of `protocol/*.cpp`, which only a client uses, against the
decoders. What a request can hold and still be read back is said for each: its
numbers are those of their fields, its strings and arrays have lengths that
theirs can carry, and it asks for nothing a decoder refuses.
-/

namespace DariyaKyu.Server

set_option autoImplicit false

open Protocol Groups Storage PrefixCodec BufferReader

/-- The place of the batch in the frame is the decoder's to tell. -/
def writeProduceAsked (asked : ProduceAsked) : Except Error Bytes :=
  .ok (writeInt32 asked.partition ++ writeBytes asked.batch)

def encodeProduceRequest (request : ProduceRequest) : Except Error Bytes := do
  let topics ← writeTopics writeProduceAsked request.topics
  return writeInt16 request.acks ++ writeInt32 request.timeoutMs ++ topics

def writeFetchAsked (asked : FetchAsked) : Except Error Bytes :=
  .ok (writeInt32 asked.partition ++ writeInt64 asked.fetchOffset ++ writeInt32 asked.maxBytes)

def encodeFetchRequest (request : FetchRequest) : Except Error Bytes := do
  let topics ← writeTopics writeFetchAsked request.topics
  return writeInt32 request.maxWaitMs ++ writeInt32 request.minBytes ++ topics

def encodeMetadataRequest (request : MetadataRequest) : Except Error Bytes := do
  let topics ← writeStrings request.topics
  return writeInt8 (if request.allTopics then 1 else 0) ++ topics

def kUseDefault : Int := -1

def writeOverride (value : Option Int) : Bytes := writeInt64 (value.getD kUseDefault)

def writeFlag (flag : Option Bool) : Bytes :=
  writeInt8 (match flag with
    | none => -1
    | some false => 0
    | some true => 1)

def writeTopicRequest (topic : TopicRequest) : Except Error Bytes := do
  let name ← writeString topic.name
  return name ++ writeInt32 topic.partitionCount ++ writeOverride topic.retentionMs ++
    writeOverride topic.retentionBytes ++ writeOverride topic.maxSegmentBytes ++ writeFlag topic.compact

def encodeCreateTopicRequest (request : CreateTopicRequest) : Except Error Bytes := do
  let topics ← writeArray writeTopicRequest request.topics
  return topics ++ writeInt32 request.timeoutMs

def encodeFindCoordinatorRequest (request : FindCoordinatorRequest) : Except Error Bytes :=
  writeString request.groupId

def encodeJoinGroupRequest (request : JoinGroupRequest) : Except Error Bytes := do
  let groupId ← writeString request.groupId
  let memberId ← writeString request.memberId
  let subscription ← writeStrings request.subscription
  let protocols ← writeStrings request.protocols
  return groupId ++ writeInt32 request.sessionTimeoutMs ++ memberId ++ subscription ++ protocols

def writeAssignment (entry : Bytes × Bytes) : Except Error Bytes := do
  let memberId ← writeString entry.1
  return memberId ++ writeBytes entry.2

def encodeSyncGroupRequest (request : SyncGroupRequest) : Except Error Bytes := do
  let groupId ← writeString request.groupId
  let memberId ← writeString request.memberId
  let assignments ← writeArray writeAssignment request.assignments.entries
  return groupId ++ writeInt32 request.generation ++ memberId ++ assignments

def encodeHeartbeatRequest (request : HeartbeatRequest) : Except Error Bytes := do
  let groupId ← writeString request.groupId
  let memberId ← writeString request.memberId
  return groupId ++ writeInt32 request.generation ++ memberId

def encodeLeaveGroupRequest (request : LeaveGroupRequest) : Except Error Bytes := do
  let groupId ← writeString request.groupId
  let memberId ← writeString request.memberId
  return groupId ++ memberId

def writeAskedPartition (asked : AskedPartition) : Except Error Bytes := do
  let metadata ← writeString asked.metadata
  return writeInt32 asked.partition ++ writeInt64 asked.nextOffset ++ metadata

def encodeOffsetCommitRequest (request : OffsetCommitRequest) : Except Error Bytes := do
  let groupId ← writeString request.groupId
  let memberId ← writeString request.memberId
  let topics ← writeTopics writeAskedPartition
    (request.topics.map fun topic => ⟨topic.name, topic.partitions⟩)
  return groupId ++ writeInt32 request.generation ++ memberId ++ topics

def encodeOffsetFetchRequest (request : OffsetFetchRequest) : Except Error Bytes := do
  let groupId ← writeString request.groupId
  let topics ← writeTopics (fun partition => .ok (writeInt32 partition)) request.topics
  return groupId ++ topics

def ShortString (value : Bytes) : Prop := value.length < 2 ^ 15

instance (value : Bytes) : Decidable (ShortString value) := inferInstanceAs (Decidable (_ < _))

section Produce

/-- What is asked, wherever in a frame it stands. -/
def ProduceAsked.anywhere (asked : ProduceAsked) : ProduceAsked := { asked with batchOffsetInBody := 0 }

def ProduceRequest.anywhere (request : ProduceRequest) : ProduceRequest :=
  { request with topics := request.topics.map (TopicOf.over ProduceAsked.anywhere) }

structure ProduceAsked.Fits (asked : ProduceAsked) : Prop where
  partition : FitsSigned 32 asked.partition
  countable : CountFits asked.batch

structure ProduceRequest.Fits (request : ProduceRequest) : Prop where
  acks : FitsSigned 16 request.acks
  timeoutMs : FitsSigned 32 request.timeoutMs
  topics : TopicsFit ProduceAsked.Fits request.topics

theorem produce_asked_reads : Reads IsCorrupt readProduceAsked := by
  apply Reads.bind (read_int_reads 32)
  intro partition
  apply Reads.bind (read_int_reads 32)
  intro batchLength
  apply Reads.ite
  · exact Reads.fail (corrupt_data _)
  · -- the offset is where the batch begins, and more bytes do not move it
    constructor
    · intro input asked after decoded
      obtain ⟨⟨batch, behind⟩, taken, decoded⟩ := except_bind_ok decoded
      cases decoded
      exact (read_bytes_reads _).takes taken
    · intro input asked after decoded items
      obtain ⟨⟨batch, behind⟩, taken, decoded⟩ := except_bind_ok decoded
      cases decoded
      simp only [(read_bytes_reads _).steady taken items, except_ok_bind]
      rfl
    · intro input failure refused
      rcases except_bind_error refused with short | ⟨_, _, refused⟩
      · exact (read_bytes_reads _).refuses short
      · cases refused

theorem produce_request_reads : Reads IsCorrupt decodeProduceRequest := by
  apply Reads.bind (read_int_reads 16)
  intro acks
  apply Reads.bind (read_int_reads 32)
  intro timeoutMs
  apply Reads.bind (read_topics_reads produce_asked_reads)
  intro topics
  exact Reads.ok _

theorem produce_asked_round_trips {asked : ProduceAsked} (fits : ProduceAsked.Fits asked) :
    RoundTrips (seen ProduceAsked.anywhere readProduceAsked) writeProduceAsked asked.anywhere := by
  refine ⟨_, rfl, by simp [ProduceAsked.anywhere, writeInt32, write_int_occupied], ?_⟩
  intro input rest isInput
  simp only [ProduceAsked.anywhere, writeBytes, List.append_assoc] at isInput
  obtain ⟨between, isPartition, isBetween⟩ := read_int32_writes fits.partition input _ isInput
  obtain ⟨behind, isLength, isBehind⟩ := read_int32_writes fits.countable.fits between _ isBetween
  obtain ⟨after, isBatch, isAfter⟩ := read_bytes_writes asked.batch behind rest isBehind
  have known : ¬ (asked.batch.length : Int) < 0 := by omega
  refine ⟨after, ?_, isAfter⟩
  simp only [seen, readProduceAsked, isPartition, isLength, except_ok_bind, if_neg known, Int.toNat_natCast,
    isBatch]
  rfl

theorem encode_anywhere (request : ProduceRequest) :
    encodeProduceRequest request.anywhere = encodeProduceRequest request := by
  simp only [encodeProduceRequest, ProduceRequest.anywhere, write_topics_over]
  rfl

theorem produce_request_round_trips {request : ProduceRequest} (fits : ProduceRequest.Fits request) :
    RoundTrips (seen ProduceRequest.anywhere decodeProduceRequest) encodeProduceRequest request.anywhere := by
  have fitsAnywhere : TopicsFit (fun asked => ∃ original, ProduceAsked.Fits original ∧ original.anywhere = asked)
      (request.topics.map (TopicOf.over ProduceAsked.anywhere)) := by
    constructor
    · simpa only [CountFits, List.length_map] using fits.topics.countable
    · intro topic member
      obtain ⟨original, present, rfl⟩ := List.mem_map.mp member
      exact fits.topics.names original present
    · intro topic member
      obtain ⟨original, present, rfl⟩ := List.mem_map.mp member
      obtain ⟨countable, each⟩ := fits.topics.partitions original present
      refine ⟨by simpa only [TopicOf.over, CountFits, List.length_map] using countable, ?_⟩
      intro asked isAsked
      obtain ⟨partition, isPartition, rfl⟩ := List.mem_map.mp isAsked
      exact ⟨partition, each partition isPartition, rfl⟩
  have each : ∀ asked, (∃ original, ProduceAsked.Fits original ∧ original.anywhere = asked) →
      RoundTrips (seen ProduceAsked.anywhere readProduceAsked) writeProduceAsked asked := by
    rintro _ ⟨original, fitsOriginal, rfl⟩
    exact produce_asked_round_trips fitsOriginal
  obtain ⟨topics, wrote, occupied, reads⟩ := topics_round_trip fitsAnywhere each
  rw [read_topics_seen] at reads
  refine ⟨writeInt16 request.acks ++ writeInt32 request.timeoutMs ++ topics, ?_, by simp [occupied], ?_⟩
  · simp only [encodeProduceRequest, ProduceRequest.anywhere, wrote, except_ok_bind]
    rfl
  · intro input rest isInput
    simp only [List.append_assoc] at isInput
    obtain ⟨between, isAcks, isBetween⟩ := read_int16_writes fits.acks input _ isInput
    obtain ⟨behind, isTimeout, isBehind⟩ := read_int32_writes fits.timeoutMs between _ isBetween
    obtain ⟨after, isTopics, isAfter⟩ := reads behind rest isBehind
    obtain ⟨asked, isAsked, same⟩ := seen_ok isTopics
    refine ⟨after, ?_, isAfter⟩
    simp only [seen, decodeProduceRequest, isAcks, isTimeout, isAsked, except_ok_bind]
    rw [ProduceRequest.anywhere, ← same]
    rfl

end Produce

section Fetch

structure FetchAsked.Fits (asked : FetchAsked) : Prop where
  partition : FitsSigned 32 asked.partition
  fetchOffset : FitsSigned 64 asked.fetchOffset
  maxBytes : FitsSigned 32 (asked.maxBytes : Int)

structure FetchRequest.Fits (request : FetchRequest) : Prop where
  maxWaitMs : FitsSigned 32 request.maxWaitMs
  minBytes : FitsSigned 32 request.minBytes
  topics : TopicsFit FetchAsked.Fits request.topics

theorem fetch_asked_round_trips {asked : FetchAsked} (fits : FetchAsked.Fits asked) :
    RoundTrips readFetchAsked writeFetchAsked asked := by
  refine ⟨_, rfl, by simp [writeInt32, write_int_occupied], ?_⟩
  simp only [List.append_assoc]
  apply Writes.bind (read_int32_writes fits.partition)
  apply Writes.bind (read_int64_writes fits.fetchOffset)
  apply Writes.last (read_int32_writes fits.maxBytes)
  intro after
  simp

theorem fetch_request_round_trips {request : FetchRequest} (fits : FetchRequest.Fits request) :
    RoundTrips decodeFetchRequest encodeFetchRequest request := by
  obtain ⟨topics, wrote, occupied, reads⟩ :=
    topics_round_trip fits.topics fun _ => fetch_asked_round_trips
  refine ⟨_, by rw [encodeFetchRequest, wrote]; rfl, by simp [occupied], ?_⟩
  simp only [List.append_assoc]
  apply Writes.bind (read_int32_writes fits.maxWaitMs)
  apply Writes.bind (read_int32_writes fits.minBytes)
  exact Writes.last reads fun _ => rfl

theorem fetch_request_reads : Reads IsCorrupt decodeFetchRequest := by
  apply Reads.bind (read_int_reads 32)
  intro maxWaitMs
  apply Reads.bind (read_int_reads 32)
  intro minBytes
  apply Reads.bind (read_topics_reads ?_)
  · intro topics
    exact Reads.ok _
  · apply Reads.bind (read_int_reads 32)
    intro partition
    apply Reads.bind (read_int_reads 64)
    intro fetchOffset
    apply Reads.bind (read_int_reads 32)
    intro maxBytes
    apply Reads.ite
    · exact Reads.fail (corrupt_data _)
    · exact Reads.ok _

end Fetch

section Metadata

structure MetadataRequest.Fits (request : MetadataRequest) : Prop where
  countable : CountFits request.topics
  topics : ∀ topic ∈ request.topics, ShortString topic

theorem metadata_request_round_trips {request : MetadataRequest} (fits : MetadataRequest.Fits request) :
    RoundTrips decodeMetadataRequest encodeMetadataRequest request := by
  obtain ⟨topics, wrote, occupied, reads⟩ := strings_round_trip "topic" fits.countable fits.topics
  refine ⟨_, by rw [encodeMetadataRequest, wrote]; rfl, by simp [occupied], ?_⟩
  obtain ⟨allTopics, names⟩ := request
  cases allTopics with
  | false =>
      apply Writes.bind (read_int8_writes (by decide : FitsSigned 8 0))
      exact Writes.last reads fun _ => rfl
  | true =>
      apply Writes.bind (read_int8_writes (by decide : FitsSigned 8 1))
      exact Writes.last reads fun _ => rfl

theorem metadata_request_reads : Reads IsCorrupt decodeMetadataRequest := by
  apply Reads.bind (read_int_reads 8)
  intro allTopics
  apply Reads.bind (read_strings_reads _)
  intro topics
  exact Reads.ok _

end Metadata

section CreateTopic

def OverrideFits (value : Option Int) : Prop := ∀ given ∈ value, 0 < given ∧ FitsSigned 64 given

structure TopicRequest.Fits (topic : TopicRequest) : Prop where
  name : ShortString topic.name
  partitionCount : FitsSigned 32 topic.partitionCount
  retentionMs : OverrideFits topic.retentionMs
  retentionBytes : OverrideFits topic.retentionBytes
  maxSegmentBytes : OverrideFits topic.maxSegmentBytes

structure CreateTopicRequest.Fits (request : CreateTopicRequest) : Prop where
  countable : CountFits request.topics
  topics : ∀ topic ∈ request.topics, TopicRequest.Fits topic
  timeoutMs : FitsSigned 32 request.timeoutMs

theorem override_writes {value : Option Int} (fits : OverrideFits value) :
    Writes readOverride value (writeOverride value) := by
  cases value with
  | none =>
      apply Writes.last (read_int64_writes (by decide : FitsSigned 64 kUseDefault))
      intro after
      rfl
  | some given =>
      obtain ⟨positive, fits⟩ := fits given rfl
      apply Writes.last (read_int64_writes fits)
      intro after
      simp only [if_neg (show ¬ given ≤ 0 by omega)]
      rfl

theorem flag_writes (flag : Option Bool) : Writes readFlag flag (writeFlag flag) := by
  cases flag with
  | none => exact Writes.last (read_int8_writes (by decide : FitsSigned 8 (-1))) fun _ => rfl
  | some set =>
      cases set with
      | false => exact Writes.last (read_int8_writes (by decide : FitsSigned 8 0)) fun _ => rfl
      | true => exact Writes.last (read_int8_writes (by decide : FitsSigned 8 1)) fun _ => rfl

theorem topic_request_round_trips {topic : TopicRequest} (fits : TopicRequest.Fits topic) :
    RoundTrips readTopicRequest writeTopicRequest topic := by
  obtain ⟨name, wrote, occupied, reads⟩ := string_round_trips fits.name
  refine ⟨_, by rw [writeTopicRequest, wrote]; rfl, by simp [occupied], ?_⟩
  simp only [List.append_assoc]
  apply Writes.bind reads
  apply Writes.bind (read_int32_writes fits.partitionCount)
  apply Writes.bind (override_writes fits.retentionMs)
  apply Writes.bind (override_writes fits.retentionBytes)
  apply Writes.bind (override_writes fits.maxSegmentBytes)
  exact Writes.last (flag_writes _) fun _ => rfl

theorem create_topic_request_round_trips {request : CreateTopicRequest}
    (fits : CreateTopicRequest.Fits request) :
    RoundTrips decodeCreateTopicRequest encodeCreateTopicRequest request := by
  obtain ⟨topics, wrote, occupied, reads⟩ := array_round_trips "topic" fits.countable
    fun topic member => topic_request_round_trips (fits.topics topic member)
  refine ⟨_, by rw [encodeCreateTopicRequest, wrote]; rfl, by simp [occupied], ?_⟩
  apply Writes.bind reads
  exact Writes.last (read_int32_writes fits.timeoutMs) fun _ => rfl

theorem override_reads : Reads IsCorrupt readOverride := by
  apply Reads.bind (read_int_reads 64)
  intro value
  exact Reads.ok _

theorem flag_reads : Reads IsCorrupt readFlag := by
  apply Reads.bind (read_int_reads 8)
  intro value
  apply Reads.ite
  · exact Reads.ok _
  · apply Reads.ite
    · exact Reads.fail (corrupt_data _)
    · exact Reads.ok _

theorem create_topic_request_reads : Reads IsCorrupt decodeCreateTopicRequest := by
  apply Reads.bind (read_array_reads ?_ _)
  · intro topics
    apply Reads.bind (read_int_reads 32)
    intro timeoutMs
    exact Reads.ok _
  · apply Reads.bind read_string_reads
    intro name
    apply Reads.bind (read_int_reads 32)
    intro partitionCount
    apply Reads.bind override_reads
    intro retentionMs
    apply Reads.bind override_reads
    intro retentionBytes
    apply Reads.bind override_reads
    intro maxSegmentBytes
    apply Reads.bind flag_reads
    intro compact
    exact Reads.ok _

end CreateTopic

section Groups

structure FindCoordinatorRequest.Fits (request : FindCoordinatorRequest) : Prop where
  groupId : ShortString request.groupId

structure JoinGroupRequest.Fits (request : JoinGroupRequest) : Prop where
  groupId : ShortString request.groupId
  sessionTimeoutMs : FitsSigned 32 request.sessionTimeoutMs
  memberId : ShortString request.memberId
  topics : CountFits request.subscription
  subscription : ∀ topic ∈ request.subscription, ShortString topic
  strategies : CountFits request.protocols
  protocols : ∀ strategy ∈ request.protocols, ShortString strategy

structure SyncGroupRequest.Fits (request : SyncGroupRequest) : Prop where
  groupId : ShortString request.groupId
  generation : FitsSigned 32 request.generation
  memberId : ShortString request.memberId
  countable : CountFits request.assignments.entries
  assignments : ∀ entry ∈ request.assignments.entries, ShortString entry.1 ∧ CountFits entry.2

structure HeartbeatRequest.Fits (request : HeartbeatRequest) : Prop where
  groupId : ShortString request.groupId
  generation : FitsSigned 32 request.generation
  memberId : ShortString request.memberId

structure LeaveGroupRequest.Fits (request : LeaveGroupRequest) : Prop where
  groupId : ShortString request.groupId
  memberId : ShortString request.memberId

theorem find_coordinator_request_round_trips {request : FindCoordinatorRequest}
    (fits : FindCoordinatorRequest.Fits request) :
    RoundTrips decodeFindCoordinatorRequest encodeFindCoordinatorRequest request := by
  obtain ⟨groupId, wrote, occupied, reads⟩ := string_round_trips fits.groupId
  exact ⟨groupId, wrote, occupied, Writes.last reads fun _ => rfl⟩

theorem join_group_request_round_trips {request : JoinGroupRequest} (fits : JoinGroupRequest.Fits request) :
    RoundTrips decodeJoinGroupRequest encodeJoinGroupRequest request := by
  obtain ⟨groupId, wroteGroup, occupied, readsGroup⟩ := string_round_trips fits.groupId
  obtain ⟨memberId, wroteMember, _, readsMember⟩ := string_round_trips fits.memberId
  obtain ⟨subscription, wroteTopics, _, readsTopics⟩ :=
    strings_round_trip "subscription" fits.topics fits.subscription
  obtain ⟨protocols, wroteProtocols, _, readsProtocols⟩ :=
    strings_round_trip "protocol" fits.strategies fits.protocols
  refine ⟨groupId ++ writeInt32 request.sessionTimeoutMs ++ memberId ++ subscription ++ protocols, ?_,
    by simp [occupied], ?_⟩
  · simp only [encodeJoinGroupRequest, wroteGroup, wroteMember, wroteTopics, wroteProtocols, except_ok_bind]
    rfl
  · simp only [List.append_assoc]
    apply Writes.bind readsGroup
    apply Writes.bind (read_int32_writes fits.sessionTimeoutMs)
    apply Writes.bind readsMember
    apply Writes.bind readsTopics
    exact Writes.last readsProtocols fun _ => rfl

theorem assignment_round_trips {entry : Bytes × Bytes} (short : ShortString entry.1) (countable : CountFits entry.2) :
    RoundTrips readAssignment writeAssignment entry := by
  obtain ⟨memberId, wrote, occupied, reads⟩ := string_round_trips short
  refine ⟨_, by rw [writeAssignment, wrote]; rfl, by simp [occupied], ?_⟩
  apply Writes.bind reads
  exact Writes.last (sized_writes "assignment" countable) fun _ => rfl

theorem sync_group_request_round_trips {request : SyncGroupRequest} (fits : SyncGroupRequest.Fits request) :
    RoundTrips decodeSyncGroupRequest encodeSyncGroupRequest request := by
  obtain ⟨groupId, wroteGroup, occupied, readsGroup⟩ := string_round_trips fits.groupId
  obtain ⟨memberId, wroteMember, _, readsMember⟩ := string_round_trips fits.memberId
  obtain ⟨assignments, wrote, _, reads⟩ := array_round_trips "assignment" fits.countable fun entry member =>
    assignment_round_trips (fits.assignments entry member).1 (fits.assignments entry member).2
  refine ⟨groupId ++ writeInt32 request.generation ++ memberId ++ assignments, ?_, by simp [occupied], ?_⟩
  · simp only [encodeSyncGroupRequest, wroteGroup, wroteMember, wrote, except_ok_bind]
    rfl
  · simp only [List.append_assoc]
    apply Writes.bind readsGroup
    apply Writes.bind (read_int32_writes fits.generation)
    apply Writes.bind readsMember
    apply Writes.last reads
    intro after
    simp only [OrderedMap.insert_entries]
    rfl

theorem heartbeat_request_round_trips {request : HeartbeatRequest} (fits : HeartbeatRequest.Fits request) :
    RoundTrips decodeHeartbeatRequest encodeHeartbeatRequest request := by
  obtain ⟨groupId, wroteGroup, occupied, readsGroup⟩ := string_round_trips fits.groupId
  obtain ⟨memberId, wroteMember, _, readsMember⟩ := string_round_trips fits.memberId
  refine ⟨groupId ++ writeInt32 request.generation ++ memberId, ?_, by simp [occupied], ?_⟩
  · simp only [encodeHeartbeatRequest, wroteGroup, wroteMember, except_ok_bind]
    rfl
  · simp only [List.append_assoc]
    apply Writes.bind readsGroup
    apply Writes.bind (read_int32_writes fits.generation)
    exact Writes.last readsMember fun _ => rfl

theorem leave_group_request_round_trips {request : LeaveGroupRequest} (fits : LeaveGroupRequest.Fits request) :
    RoundTrips decodeLeaveGroupRequest encodeLeaveGroupRequest request := by
  obtain ⟨groupId, wroteGroup, occupied, readsGroup⟩ := string_round_trips fits.groupId
  obtain ⟨memberId, wroteMember, _, readsMember⟩ := string_round_trips fits.memberId
  refine ⟨groupId ++ memberId, ?_, by simp [occupied], ?_⟩
  · simp only [encodeLeaveGroupRequest, wroteGroup, wroteMember, except_ok_bind]
    rfl
  · apply Writes.bind readsGroup
    exact Writes.last readsMember fun _ => rfl

theorem find_coordinator_request_reads : Reads IsCorrupt decodeFindCoordinatorRequest := by
  apply Reads.bind read_string_reads
  intro groupId
  exact Reads.ok _

theorem join_group_request_reads : Reads IsCorrupt decodeJoinGroupRequest := by
  apply Reads.bind read_string_reads
  intro groupId
  apply Reads.bind (read_int_reads 32)
  intro sessionTimeoutMs
  apply Reads.bind read_string_reads
  intro memberId
  apply Reads.bind (read_strings_reads _)
  intro subscription
  apply Reads.bind (read_strings_reads _)
  intro protocols
  exact Reads.ok _

theorem sync_group_request_reads : Reads IsCorrupt decodeSyncGroupRequest := by
  apply Reads.bind read_string_reads
  intro groupId
  apply Reads.bind (read_int_reads 32)
  intro generation
  apply Reads.bind read_string_reads
  intro memberId
  apply Reads.bind (read_array_reads ?_ _)
  · intro assignments
    exact Reads.ok _
  · apply Reads.bind read_string_reads
    intro assigned
    apply Reads.bind (read_sized_reads _)
    intro assignment
    exact Reads.ok _

theorem heartbeat_request_reads : Reads IsCorrupt decodeHeartbeatRequest := by
  apply Reads.bind read_string_reads
  intro groupId
  apply Reads.bind (read_int_reads 32)
  intro generation
  apply Reads.bind read_string_reads
  intro memberId
  exact Reads.ok _

theorem leave_group_request_reads : Reads IsCorrupt decodeLeaveGroupRequest := by
  apply Reads.bind read_string_reads
  intro groupId
  apply Reads.bind read_string_reads
  intro memberId
  exact Reads.ok _

end Groups

section Offsets

structure AskedPartition.Fits (asked : AskedPartition) : Prop where
  partition : FitsSigned 32 asked.partition
  nextOffset : FitsSigned 64 asked.nextOffset
  position : 0 ≤ asked.nextOffset
  metadata : ShortString asked.metadata

def OffsetCommitRequest.asked (request : OffsetCommitRequest) : List (TopicOf AskedPartition) :=
  request.topics.map fun topic => ⟨topic.name, topic.partitions⟩

structure OffsetCommitRequest.Fits (request : OffsetCommitRequest) : Prop where
  groupId : ShortString request.groupId
  generation : FitsSigned 32 request.generation
  memberId : ShortString request.memberId
  topics : TopicsFit AskedPartition.Fits (OffsetCommitRequest.asked request)

structure OffsetFetchRequest.Fits (request : OffsetFetchRequest) : Prop where
  groupId : ShortString request.groupId
  topics : TopicsFit (FitsSigned 32) request.topics

theorem asked_partition_round_trips {asked : AskedPartition} (fits : AskedPartition.Fits asked) :
    RoundTrips readAskedPartition writeAskedPartition asked := by
  obtain ⟨metadata, wrote, _, reads⟩ := string_round_trips fits.metadata
  refine ⟨_, by rw [writeAskedPartition, wrote]; rfl, by simp [writeInt32, write_int_occupied], ?_⟩
  simp only [List.append_assoc]
  apply Writes.bind (read_int32_writes fits.partition)
  apply Writes.bind (read_int64_writes fits.nextOffset)
  apply Writes.passes (not_lt.mpr fits.position)
  exact Writes.last reads fun _ => rfl

theorem offset_commit_request_round_trips {request : OffsetCommitRequest}
    (fits : OffsetCommitRequest.Fits request) :
    RoundTrips decodeOffsetCommitRequest encodeOffsetCommitRequest request := by
  obtain ⟨groupId, wroteGroup, occupied, readsGroup⟩ := string_round_trips fits.groupId
  obtain ⟨memberId, wroteMember, _, readsMember⟩ := string_round_trips fits.memberId
  obtain ⟨topics, wrote, _, reads⟩ := topics_round_trip fits.topics fun _ => asked_partition_round_trips
  refine ⟨groupId ++ writeInt32 request.generation ++ memberId ++ topics, ?_, by simp [occupied], ?_⟩
  · simp only [OffsetCommitRequest.asked] at wrote
    simp only [encodeOffsetCommitRequest, wroteGroup, wroteMember, wrote, except_ok_bind]
    rfl
  · simp only [List.append_assoc]
    apply Writes.bind readsGroup
    apply Writes.bind (read_int32_writes fits.generation)
    apply Writes.bind readsMember
    apply Writes.last reads
    intro after
    simp only [OffsetCommitRequest.asked, List.map_map, Function.comp_def, List.map_id']
    rfl

theorem partition_round_trips {partition : Int} (fits : FitsSigned 32 partition) :
    RoundTrips (·.readInt32) (fun partition => .ok (writeInt32 partition)) partition :=
  ⟨_, rfl, write_int_occupied (by decide) _, read_int32_writes fits⟩

theorem offset_fetch_request_round_trips {request : OffsetFetchRequest} (fits : OffsetFetchRequest.Fits request) :
    RoundTrips decodeOffsetFetchRequest encodeOffsetFetchRequest request := by
  obtain ⟨groupId, wroteGroup, occupied, readsGroup⟩ := string_round_trips fits.groupId
  obtain ⟨topics, wrote, _, reads⟩ := topics_round_trip fits.topics fun _ => partition_round_trips
  refine ⟨groupId ++ topics, ?_, by simp [occupied], ?_⟩
  · simp only [encodeOffsetFetchRequest, wroteGroup, wrote, except_ok_bind]
    rfl
  · apply Writes.bind readsGroup
    exact Writes.last reads fun _ => rfl

theorem offset_commit_request_reads : Reads IsCorrupt decodeOffsetCommitRequest := by
  apply Reads.bind read_string_reads
  intro groupId
  apply Reads.bind (read_int_reads 32)
  intro generation
  apply Reads.bind read_string_reads
  intro memberId
  apply Reads.bind (read_topics_reads ?_)
  · intro topics
    exact Reads.ok _
  · apply Reads.bind (read_int_reads 32)
    intro partition
    apply Reads.bind (read_int_reads 64)
    intro nextOffset
    apply Reads.ite
    · exact Reads.fail (corrupt_data _)
    · apply Reads.bind read_string_reads
      intro metadata
      exact Reads.ok _

theorem offset_fetch_request_reads : Reads IsCorrupt decodeOffsetFetchRequest := by
  apply Reads.bind read_string_reads
  intro groupId
  apply Reads.bind (read_topics_reads (read_int_reads 32))
  intro topics
  exact Reads.ok _

end Offsets

end DariyaKyu.Server

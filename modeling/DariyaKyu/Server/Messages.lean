import DariyaKyu.Server.ResponseCodecs

/-!
The requests and responses of the protocol in one list: what the encoder wrote of
a value the decoder reads back, whatever follows, and nothing that was cut off is
taken for one. Only the fetch response is missing, which is not one buffer.
-/

namespace DariyaKyu.Server

set_option autoImplicit false

open Protocol Groups Storage PrefixCodec BufferReader

/-- A type of message: the values its fields can hold, and what of a value its
bytes tell. -/
structure Message where
  Value : Type
  encode : Value → Except Error Bytes
  decode : Decoder Value
  Fits : Value → Prop
  told : Value → Value := id

namespace Message

/-- A value that was written is read back as far as it was told, wherever it stands
and whatever follows; a part of its bytes is refused. -/
def ReadsBack (message : Message) : Prop :=
  ∀ value, message.Fits value → ∃ written, message.encode value = .ok written ∧
    (∀ position rest, ∃ received,
      message.decode ⟨position, written ++ rest⟩ = .ok (received, ⟨position + written.length, rest⟩) ∧
        message.told received = message.told value) ∧
    ∀ front tail, written = front ++ tail → tail ≠ [] →
      ∀ position, ∃ what, message.decode ⟨position, front⟩ = .error (.corruptData what)

def produceRequest : Message :=
  ⟨ProduceRequest, encodeProduceRequest, decodeProduceRequest, ProduceRequest.Fits, ProduceRequest.anywhere⟩

def produceResponse : Message :=
  ⟨_, writeProduceResponse, decodeProduceResponse, TopicsFit ReceivedProduce.Fits, id⟩

def fetchRequest : Message :=
  ⟨FetchRequest, encodeFetchRequest, decodeFetchRequest, FetchRequest.Fits, id⟩

def metadataRequest : Message :=
  ⟨MetadataRequest, encodeMetadataRequest, decodeMetadataRequest, MetadataRequest.Fits, id⟩

def metadataResponse : Message :=
  ⟨ReceivedMetadata, writeMetadataResponse, decodeMetadataResponse, ReceivedMetadata.Fits, id⟩

def createTopicRequest : Message :=
  ⟨CreateTopicRequest, encodeCreateTopicRequest, decodeCreateTopicRequest, CreateTopicRequest.Fits, id⟩

def createTopicResponse : Message :=
  ⟨List ReceivedCreation, writeCreateTopicResponse, decodeCreateTopicResponse, CreationsFit, id⟩

def findCoordinatorRequest : Message :=
  ⟨FindCoordinatorRequest, encodeFindCoordinatorRequest, decodeFindCoordinatorRequest,
    FindCoordinatorRequest.Fits, id⟩

def findCoordinatorResponse : Message :=
  ⟨ReceivedCoordinator, writeFindCoordinatorResponse, decodeFindCoordinatorResponse, ReceivedCoordinator.Fits, id⟩

def joinGroupRequest : Message :=
  ⟨JoinGroupRequest, encodeJoinGroupRequest, decodeJoinGroupRequest, JoinGroupRequest.Fits, id⟩

def joinGroupResponse : Message :=
  ⟨ReceivedJoin, writeJoinGroupResponse, decodeJoinGroupResponse, ReceivedJoin.Fits, id⟩

def syncGroupRequest : Message :=
  ⟨SyncGroupRequest, encodeSyncGroupRequest, decodeSyncGroupRequest, SyncGroupRequest.Fits, id⟩

def syncGroupResponse : Message :=
  ⟨ReceivedSync, writeSyncGroupResponse, decodeSyncGroupResponse, ReceivedSync.Fits, id⟩

def heartbeatRequest : Message :=
  ⟨HeartbeatRequest, encodeHeartbeatRequest, decodeHeartbeatRequest, HeartbeatRequest.Fits, id⟩

def heartbeatResponse : Message :=
  ⟨Int, writeHeartbeatResponse, decodeHeartbeatResponse, FitsSigned 16, id⟩

def leaveGroupRequest : Message :=
  ⟨LeaveGroupRequest, encodeLeaveGroupRequest, decodeLeaveGroupRequest, LeaveGroupRequest.Fits, id⟩

def leaveGroupResponse : Message :=
  ⟨Int, writeLeaveGroupResponse, decodeLeaveGroupResponse, FitsSigned 16, id⟩

def offsetCommitRequest : Message :=
  ⟨OffsetCommitRequest, encodeOffsetCommitRequest, decodeOffsetCommitRequest, OffsetCommitRequest.Fits, id⟩

def offsetCommitResponse : Message :=
  ⟨_, writeOffsetCommitResponse, decodeOffsetCommitResponse, TopicsFit ReceivedCommit.Fits, id⟩

def offsetFetchRequest : Message :=
  ⟨OffsetFetchRequest, encodeOffsetFetchRequest, decodeOffsetFetchRequest, OffsetFetchRequest.Fits, id⟩

def offsetFetchResponse : Message :=
  ⟨_, writeOffsetFetchResponse, decodeOffsetFetchResponse, TopicsFit ReceivedPosition.Fits, id⟩

def messages : List Message :=
  [produceRequest, produceResponse, fetchRequest, metadataRequest, metadataResponse, createTopicRequest,
    createTopicResponse, findCoordinatorRequest, findCoordinatorResponse, joinGroupRequest, joinGroupResponse,
    syncGroupRequest, syncGroupResponse, heartbeatRequest, heartbeatResponse, leaveGroupRequest,
    leaveGroupResponse, offsetCommitRequest, offsetCommitResponse, offsetFetchRequest, offsetFetchResponse]

theorem reads_back {Value : Type} {encode : Value → Except Error Bytes} {decode : Decoder Value}
    {fits : Value → Prop} (reads : Reads IsCorrupt decode)
    (trips : ∀ {value}, fits value → RoundTrips decode encode value) :
    (⟨Value, encode, decode, fits, id⟩ : Message).ReadsBack := by
  intro value isFitting
  obtain ⟨written, wrote, back, cut⟩ := RoundTrips.reads_back reads (trips isFitting)
  refine ⟨written, wrote, ?_, cut⟩
  intro position rest
  exact ⟨value, back position rest, rfl⟩

theorem produce_request_reads_back : produceRequest.ReadsBack := by
  intro request fits
  obtain ⟨written, wrote, back, cut⟩ :=
    RoundTrips.reads_back produce_request_reads.looked (produce_request_round_trips fits)
  refine ⟨written, ?_, ?_, ?_⟩
  · rw [← wrote]
    exact (encode_anywhere request).symm
  · intro position rest
    exact seen_ok (back position rest)
  · intro front tail isCut lacks position
    obtain ⟨what, refused⟩ := cut front tail isCut lacks position
    exact ⟨what, seen_error refused⟩

theorem messages_read_back (message : Message) (member : message ∈ messages) : message.ReadsBack := by
  have all : ∀ message ∈ messages, message.ReadsBack := by
    simp only [messages, List.forall_mem_cons]
    refine ⟨produce_request_reads_back, ?produced, ?fetch, ?metadata, ?described, ?create, ?created, ?find,
      ?found, ?join, ?joined, ?sync, ?synced, ?heartbeat, ?beaten, ?leave, ?left, ?commit, ?committed,
      ?positions, ?fetched, List.forall_mem_nil _⟩
    case produced =>
      exact reads_back (read_topics_reads produced_reads) fun fits =>
        topics_round_trip fits fun _ => produced_round_trips
    case fetch => exact reads_back fetch_request_reads fetch_request_round_trips
    case metadata => exact reads_back metadata_request_reads metadata_request_round_trips
    case described => exact reads_back metadata_response_reads metadata_response_round_trips
    case create => exact reads_back create_topic_request_reads create_topic_request_round_trips
    case created => exact reads_back (read_array_reads creation_reads _) creations_round_trip
    case find => exact reads_back find_coordinator_request_reads find_coordinator_request_round_trips
    case found => exact reads_back find_coordinator_response_reads find_coordinator_response_round_trips
    case join => exact reads_back join_group_request_reads join_group_request_round_trips
    case joined => exact reads_back join_group_response_reads join_group_response_round_trips
    case sync => exact reads_back sync_group_request_reads sync_group_request_round_trips
    case synced => exact reads_back sync_group_response_reads sync_group_response_round_trips
    case heartbeat => exact reads_back heartbeat_request_reads heartbeat_request_round_trips
    case beaten => exact reads_back (read_int_reads 16) error_code_round_trips
    case leave => exact reads_back leave_group_request_reads leave_group_request_round_trips
    case left => exact reads_back (read_int_reads 16) error_code_round_trips
    case commit => exact reads_back offset_commit_request_reads offset_commit_request_round_trips
    case committed =>
      exact reads_back (read_topics_reads committed_reads) fun fits =>
        topics_round_trip fits fun _ => committed_round_trips
    case positions => exact reads_back offset_fetch_request_reads offset_fetch_request_round_trips
    case fetched =>
      exact reads_back (read_topics_reads position_reads) fun fits =>
        topics_round_trip fits fun _ => position_round_trips
  exact all message member

/-- The members of a group as its leader reads them. -/
theorem messages_read_back_members :
    let joined : ReceivedJoin :=
      ⟨0, 3, [114, 97, 110, 103, 101], [109, 45, 49], [109, 45, 49],
        [⟨[109, 45, 49], [[116], []]⟩, ⟨[109, 45, 50], []⟩]⟩
    ∃ written, writeJoinGroupResponse joined = .ok written ∧
      (∀ position rest, ∃ received,
        decodeJoinGroupResponse ⟨position, written ++ rest⟩ = .ok (received, ⟨position + written.length, rest⟩) ∧
          received = joined) ∧
      ∀ front tail, written = front ++ tail → tail ≠ [] →
        ∀ position, ∃ what, decodeJoinGroupResponse ⟨position, front⟩ = .error (.corruptData what) := by
  apply messages_read_back joinGroupResponse (by simp [messages])
  constructor
  all_goals decide

theorem many_empty_strings (count : Nat) :
    ∃ parts, (List.replicate count ([] : Bytes)).mapM writeString = .ok parts := by
  induction count with
  | zero => exact ⟨[], rfl⟩
  | succ count ih =>
      obtain ⟨parts, wrote⟩ := ih
      exact ⟨[0, 0] :: parts, by simp only [List.replicate_succ, List.mapM_cons, wrote]; rfl⟩

theorem uncountable_refused {count : Nat} (many : 2 ^ 31 ≤ count) (below : count < 2 ^ 32 - 1) :
    ∃ written, encodeMetadataRequest ⟨false, List.replicate count []⟩ = .ok written ∧
      ∃ what, decodeMetadataRequest ⟨0, written⟩ = .error (.corruptData what) := by
  obtain ⟨parts, wrote⟩ := many_empty_strings count
  refine ⟨_, by
    simp only [encodeMetadataRequest, writeStrings, writeArray, wrote, List.length_replicate]
    rfl, ?_⟩
  simp only [decodeMetadataRequest, readInt8, writeInt8]
  rw [read_int_written 8 0 ⟨1, rfl⟩]
  obtain ⟨text, refused⟩ := read_element_count_uncountable many below (0 + 8 / 8) parts.flatten "topic"
  simp only [except_ok_bind, readStrings, readArray, refused]
  exact ⟨text, rfl⟩

set_option maxRecDepth 20000 in
/-- Two values that are not read back as they were: a batch whose place in the
frame the decoder fills in, and more topics than 32 bits can count. -/
theorem values_not_read_back :
    (let request : ProduceRequest := ⟨1, 1000, [⟨[116], [⟨0, [1], 0⟩]⟩]⟩
      ∃ written received, encodeProduceRequest request = .ok written ∧
        decodeProduceRequest ⟨0, written⟩ = .ok (received, ⟨written.length, []⟩) ∧ received ≠ request) ∧
    (let request : MetadataRequest := ⟨false, List.replicate (2 ^ 31) []⟩
      ∃ written, (∀ topic ∈ request.topics, ShortString topic) ∧ encodeMetadataRequest request = .ok written ∧
        ∃ what, decodeMetadataRequest ⟨0, written⟩ = .error (.corruptData what)) := by
  constructor
  · refine ⟨_, ⟨1, 1000, [⟨[116], [⟨0, [1], 25⟩]⟩]⟩, rfl, rfl, ?_⟩
    intro same
    have topics := congrArg ProduceRequest.topics same
    revert topics
    decide
  · obtain ⟨written, wrote, refused⟩ := @uncountable_refused (2 ^ 31) le_rfl (by norm_num)
    refine ⟨written, ?_, wrote, refused⟩
    intro topic member
    rw [List.eq_of_mem_replicate member]
    unfold ShortString
    decide

end Message

end DariyaKyu.Server

import DariyaKyu.Library.StatefulLoop
import DariyaKyu.Server.Replies
import DariyaKyu.Storage.LogView

/-!
`server/handlers.cpp` and `server/api_registry.cpp`: what each request does to
the broker and what it appends to the response. A handler reads its request from
the body, works, and encodes; an exception at any point takes the response with
it, but nothing that was done by then. A log whose roll threw has no active
segment, and the next call that goes to it dereferences null: that has no
outcome here.
-/

namespace DariyaKyu.Server

set_option autoImplicit false

open Storage Protocol Groups StatefulLoop

/-- `BrokerContext`, with the partitions whose log has lost its active segment;
of such a log the rest is as it was before the roll. `std::hash` is a parameter. -/
structure BrokerContext extends Broker where
  unhosted : TopicPartition → Option PartitionDir := fun _ => none
  lost : List TopicPartition := []
  hash : Bytes → Nat := fun _ => 0
  offsetsPartitions : Int := 0
  nodeId : Int := 0
  advertisedHost : Bytes := asciiBytes "127.0.0.1"
  advertisedPort : Int := 0

/-- What the world adds to a request: the clock, what each append meets, by the
place of its entry in the request, and what fails of each topic's creation. -/
structure RequestIo where
  nowMs : Int := 0
  entries : Nat → Nat → CommitIo := fun _ _ => { rollMs := 0, clockMs := 0, nowMs := 0 }
  faults : Nat → Faults := fun _ => faultless

structure RequestContext where
  header : RequestHeader
  body : BufferReader
  frame : Bytes
  broker : BrokerContext
  io : RequestIo

/-- The response or the exception, and the broker that is left; nothing when a
null pointer is dereferenced. -/
abbrev Handled := Option (Except Error Response × BrokerContext)

def answerTopic {Asked Answer State : Type} (answer : Bytes → Asked → State → Option (Answer × State))
    (topic : TopicOf Asked) (state : State) : Option (TopicOf Answer × State) := do
  let (answers, state) ← eachOf (answer topic.name) topic.partitions state
  return (⟨topic.name, answers⟩, state)

def answerTopics {Asked Answer State : Type} (answer : Bytes → Asked → State → Option (Answer × State)) :
    List (TopicOf Asked) → State → Option (List (TopicOf Answer) × State) :=
  eachOf (answerTopic answer)

/-- Each entry of a request with what the world adds to it. -/
def RequestIo.besides {Asked : Type} (io : RequestIo) (topics : List (TopicOf Asked)) :
    List (TopicOf (Asked × CommitIo)) :=
  topics.mapIdx fun place topic =>
    ⟨topic.name, topic.partitions.mapIdx fun number asked => (asked, io.entries place number)⟩

namespace BrokerContext

/-- `logStartOffset`: without a sealed segment it is the active one's. -/
def logStartOffset (context : BrokerContext) (tp : TopicPartition) (log : Log) : Option Int :=
  if tp ∈ context.lost ∧ log.sealedMap.isEmpty = true then none else some log.logStartOffset

/-- `read`: below the log end it looks at the active segment first. -/
def read (context : BrokerContext) (tp : TopicPartition) (log : Log) (offset : Int) (maxBytes : Nat) :
    Option (Except Error ReadResult) :=
  if tp ∈ context.lost ∧ offset < log.logEndOffset then none else some (log.read offset maxBytes)

def listPartition (topic : Bytes) (asked : ListOffsetsAsked) (context : BrokerContext) :
    Option (ListedPartition × BrokerContext) :=
  let tp : TopicPartition := ⟨topic, asked.partition⟩
  match context.logs.get tp with
  | none => some ({ partition := asked.partition, error := .notLeaderForPartition }, context)
  | some log =>
      if asked.timestamp = kEarliestTimestamp then
        (context.logStartOffset tp log).map fun start =>
          ({ partition := asked.partition, offset := start }, context)
      else if asked.timestamp = kLatestTimestamp then
        some ({ partition := asked.partition, offset := log.logEndOffset }, context)
      else some ({ partition := asked.partition, error := .unknown }, context)

def fileOf (log : Log) (offset : Int) : FileHandle :=
  ((log.owner offset).map (·.log)).getD (.ofContents (-1) "" [])

def fetchPartition (topic : Bytes) (asked : FetchAsked) (context : BrokerContext) :
    Option (FetchedPartition × BrokerContext) :=
  let tp : TopicPartition := ⟨topic, asked.partition⟩
  match context.logs.get tp with
  | none =>
      some (⟨{ partition := asked.partition, error := .notLeaderForPartition }, .ofContents (-1) "" []⟩, context)
  | some log => do
      let logStartOffset ← context.logStartOffset tp log
      let read ← context.read tp log asked.fetchOffset asked.maxBytes
      return (⟨fetchAnswer asked log.highWatermark logStartOffset read, fileOf log asked.fetchOffset⟩, context)

/-- One entry of a Produce request. The batch is the one in the frame: the
stamps of other entries are in other bytes of it. -/
def producePartition (frame : Bytes) (topic : Bytes) (asked : ProduceAsked × CommitIo)
    (context : BrokerContext) : Option (ProducedPartition × BrokerContext) :=
  let tp : TopicPartition := ⟨topic, asked.1.partition⟩
  match context.logs.get tp with
  | none => some (⟨asked.1.partition, .notLeaderForPartition, kUnknownOffset⟩, context)
  | some log =>
      match mutableBatch asked.1 frame with
      | .error failure => some (⟨asked.1.partition, produceErrorOf failure, kUnknownOffset⟩, context)
      | .ok batch =>
          if tp ∈ context.lost ∧ (verifyCrc batch).toOption = some true then none
          else
            let (result, after) := produceTo log batch asked.2.rollMs asked.2.clockMs asked.2.fault
            some (⟨asked.1.partition, result.error, result.baseOffset⟩,
              match after with
              | some log => { context with logs := context.logs.put tp log }
              | none => { context with lost := tp :: context.lost })

/-- The partition of `__offsets` to which a commit is appended, if it gets that far. -/
def commitTarget (context : BrokerContext) (groupId topic : Bytes) (asked : AskedPartition × CommitIo) :
    Option TopicPartition :=
  (context.offsets.appendRecord context.hash context.logs ⟨groupId, topic, asked.1.partition⟩
    (some ⟨asked.1.nextOffset, asked.1.metadata, asked.2.nowMs⟩) asked.2.nowMs asked.2.toAppendIo).toOption.map (·.1)

def commitPartition (groupId : Bytes) (membership : ErrorCode) (topic : Bytes)
    (asked : AskedPartition × CommitIo) (context : BrokerContext) :
    Option (AnsweredPartition × BrokerContext) :=
  if membership ≠ .none then some (⟨asked.1.partition, membership⟩, context)
  else
    let target := context.commitTarget groupId topic asked
    if target.any (· ∈ context.lost) = true then none
    else
      match context.offsets.commit context.hash context.logs ⟨groupId, topic, asked.1.partition⟩
          ⟨asked.1.nextOffset, asked.1.metadata, asked.2.nowMs⟩ asked.2.toAppendIo with
      | .committed logs offsets =>
          some (⟨asked.1.partition, .none⟩, { context with logs := logs, offsets := offsets })
      | .threw _ logs => some (⟨asked.1.partition, .unknown⟩, { context with logs := logs })
      | .ruined _ =>
          some (⟨asked.1.partition, .unknown⟩, { context with lost := target.toList ++ context.lost })

def fetchOffset (groupId topic : Bytes) (partition : Int) (context : BrokerContext) :
    Option (FetchedOffset × BrokerContext) :=
  match context.offsets.fetch ⟨groupId, topic, partition⟩ with
  | some found => some (⟨partition, found.nextOffset, found.metadata, .none⟩, context)
  | none => some ({ partition := partition, nextOffset := kUnknownOffset }, context)

def hostedPartitions (context : BrokerContext) : List TopicPartition :=
  (context.logs.logs.map (·.1)).mergeSort fun first second =>
    decide (first.topic < second.topic) || (first.topic == second.topic && decide (first.partition ≤ second.partition))

def byTopic (context : BrokerContext) : OrderedMap Bytes (List Int) :=
  context.hostedPartitions.foldl
    (fun map tp => map.insert tp.topic ((map.find? tp.topic).getD [] ++ [tp.partition])) OrderedMap.empty

def describeTopic (context : BrokerContext) (name : Bytes) : DescribedTopic :=
  match context.byTopic.find? name with
  | none => { error := .unknownTopicOrPartition, name := name }
  | some partitions =>
      { name := name, partitions := partitions.map fun partition => ⟨.none, partition, context.nodeId⟩ }

/-- Internal topics are described only to those who ask for them by name. -/
def describedNames (context : BrokerContext) (request : MetadataRequest) : List Bytes :=
  if request.allTopics then
    (context.byTopic.entries.map (·.1)).filter fun name => !(asciiBytes "__").isPrefixOf name
  else request.topics

def metadata (context : BrokerContext) (request : MetadataRequest) : MetadataResponse where
  brokers := [⟨context.nodeId, context.advertisedHost, context.advertisedPort⟩]
  controllerId := -1
  topics := (context.describedNames request).map context.describeTopic

def findCoordinator (context : BrokerContext) (request : FindCoordinatorRequest) :
    Except Error FindCoordinatorResponse :=
  if request.groupId.isEmpty then .ok { error := .invalidGroupId }
  else
    match coordinatorPartition context.hash request.groupId context.offsetsPartitions with
    | .error failure => .error failure
    | .ok partition =>
        if (context.logs.get ⟨kOffsetsTopic, partition⟩).isNone then
          .ok { error := .coordinatorNotAvailable }
        else .ok ⟨.none, context.nodeId, context.advertisedHost, context.advertisedPort⟩

end BrokerContext

/-- An encoded body behind what is there, and the broker as it is by then. -/
def reply (out : Response) (encoded : Except Error Bytes) (context : BrokerContext) : Handled :=
  some (encoded.map out.append, context)

namespace RequestContext

/-- A body that does not decode is where a handler ends at once. -/
def decoding {Request : Type} (request : RequestContext) (decode : Decoder Request)
    (handle : Request → Handled) : Handled :=
  match decode request.body with
  | .error failure => some (.error failure, request.broker)
  | .ok (decoded, _) => handle decoded

def handleListOffsets (request : RequestContext) (out : Response) : Handled :=
  request.decoding decodeListOffsetsRequest fun decoded => do
    let (topics, context) ← answerTopics BrokerContext.listPartition decoded.topics request.broker
    reply out (encodeListOffsetsResponse topics) context

def handleMetadata (request : RequestContext) (out : Response) : Handled :=
  request.decoding decodeMetadataRequest fun decoded =>
    reply out (encodeMetadataResponse (request.broker.metadata decoded)) request.broker

def handleCreateTopic (request : RequestContext) (out : Response) : Handled :=
  request.decoding decodeCreateTopicRequest fun decoded =>
    let (data, answers) := Server.handleCreateTopic
      (decoded.topics.mapIdx fun place asked => (asked, request.io.faults place))
      ⟨request.broker.logs, request.broker.unhosted⟩
    reply out (encodeCreateTopicResponse answers)
      { request.broker with logs := data.manager, unhosted := data.unhosted }

def handleProduce (request : RequestContext) (out : Response) : Handled :=
  request.decoding decodeProduceRequest fun decoded => do
    let (topics, context) ← answerTopics (BrokerContext.producePartition request.frame)
      (request.io.besides decoded.topics) request.broker
    reply out (encodeProduceResponse topics) context

/-- The records go into the response where they are, not through a buffer. -/
def handleFetch (request : RequestContext) (out : Response) : Handled :=
  request.decoding decodeFetchRequest fun decoded => do
    let (topics, context) ← answerTopics BrokerContext.fetchPartition decoded.topics request.broker
    return (encodeFetchResponse out topics, context)

def handleFindCoordinator (request : RequestContext) (out : Response) : Handled :=
  request.decoding decodeFindCoordinatorRequest fun decoded =>
    reply out (request.broker.findCoordinator decoded >>= encodeFindCoordinatorResponse) request.broker

def handleJoinGroup (request : RequestContext) (out : Response) : Handled :=
  request.decoding decodeJoinGroupRequest fun decoded =>
    let (groups, joined) := request.broker.groups.join decoded.groupId decoded.memberId
      request.header.clientId decoded.subscription decoded.protocols decoded.sessionTimeoutMs
      request.io.nowMs
    reply out (encodeJoinGroupResponse joined) { request.broker with groups := groups }

def handleSyncGroup (request : RequestContext) (out : Response) : Handled :=
  request.decoding decodeSyncGroupRequest fun decoded =>
    let (groups, synced) := request.broker.groups.sync decoded.groupId decoded.memberId
      decoded.generation decoded.assignments request.io.nowMs
    reply out (encodeSyncGroupResponse synced) { request.broker with groups := groups }

def handleHeartbeat (request : RequestContext) (out : Response) : Handled :=
  request.decoding decodeHeartbeatRequest fun decoded =>
    let (groups, error) := request.broker.groups.heartbeat decoded.groupId decoded.memberId
      decoded.generation request.io.nowMs
    reply out (encodeHeartbeatResponse error) { request.broker with groups := groups }

def handleLeaveGroup (request : RequestContext) (out : Response) : Handled :=
  request.decoding decodeLeaveGroupRequest fun decoded =>
    let (groups, error) := request.broker.groups.leave decoded.groupId decoded.memberId
    reply out (encodeLeaveGroupResponse error) { request.broker with groups := groups }

/-- Membership is asked once; the commits find the groups as that left them. -/
def handleOffsetCommit (request : RequestContext) (out : Response) : Handled :=
  request.decoding decodeOffsetCommitRequest fun decoded => do
    let (checked, membership) := request.broker.toBroker.checkMembership decoded request.io.nowMs
    let (topics, context) ← answerTopics (BrokerContext.commitPartition decoded.groupId membership)
      (request.io.besides (decoded.topics.map fun topic => ⟨topic.name, topic.partitions⟩))
      { request.broker with toBroker := checked }
    reply out (encodeOffsetCommitResponse ⟨topics.map fun topic => ⟨topic.name, topic.partitions⟩⟩) context

def handleOffsetFetch (request : RequestContext) (out : Response) : Handled :=
  request.decoding decodeOffsetFetchRequest fun decoded => do
    let (topics, context) ← answerTopics (BrokerContext.fetchOffset decoded.groupId) decoded.topics request.broker
    reply out (encodeOffsetFetchResponse topics) context

end RequestContext

abbrev Handler := RequestContext → Response → Handled

def registeredHandlers : List ((ApiKey × Int) × Handler) :=
  [((.listOffsets, 0), RequestContext.handleListOffsets),
    ((.metadata, 0), RequestContext.handleMetadata),
    ((.createTopic, 0), RequestContext.handleCreateTopic),
    ((.produce, 0), RequestContext.handleProduce),
    ((.fetch, 0), RequestContext.handleFetch),
    ((.findCoordinator, 0), RequestContext.handleFindCoordinator),
    ((.joinGroup, 0), RequestContext.handleJoinGroup),
    ((.syncGroup, 0), RequestContext.handleSyncGroup),
    ((.heartbeat, 0), RequestContext.handleHeartbeat),
    ((.leaveGroup, 0), RequestContext.handleLeaveGroup),
    ((.offsetCommit, 0), RequestContext.handleOffsetCommit),
    ((.offsetFetch, 0), RequestContext.handleOffsetFetch)]

def handlerFor (header : RequestHeader) : Option Handler :=
  (registeredHandlers.find? fun entry =>
    entry.1.1.number == header.apiKey && entry.1.2 == header.apiVersion).map (·.2)

/-- `ApiRegistry::dispatch`: the correlation id first, then the handler's body. -/
def dispatch (request : RequestContext) : Handled :=
  let response := ({} : Response).append (encodeResponseHeader request.header.correlationId)
  match handlerFor request.header with
  | none => some (.ok (response.append (writeErrorCode .unsupportedVersion)), request.broker)
  | some handler => handler request response

end DariyaKyu.Server

import DariyaKyu.Cli.Assignor
import DariyaKyu.Group.Generations
import DariyaKyu.Storage.LogManager

/-!
`cli/group_consumer.cpp`: the loop in which a member joins its group and, as its
leader, divides the partitions. A client waits for each of its answers, so all
that other clients see of it is the order of its requests; an answer may be lost
after the broker has acted, and then the exception ends the loop. The consumers
of one group run beside each other and beside everything else a coordinator is
asked for.
-/

namespace DariyaKyu.Cli

set_option autoImplicit false

open Dealing Groups Protocol

def kMaxRounds : Nat := 50

/-- Where a consumer is in `join`: the request it sends next, and in which round. -/
inductive JoinPhase where
  | idle
  | joining (round : Nat)
  | leading (round : Nat) (members : Roster)
  | assigning (round : Nat) (assignments : OrderedMap Bytes Bytes)
  | following (round wait : Nat)

structure GroupConsumer where
  clientId : Bytes
  groupId : Bytes
  topics : List Bytes
  strategy : Bytes
  sessionTimeoutMs : Int
  memberId : Bytes := []
  generation : Int := -1
  isLeader : Bool := false
  assignment : List TopicPartition := []
  phase : JoinPhase := .idle

structure MetadataTopic where
  error : ErrorCode
  name : Bytes
  partitions : List Int
  deriving DecidableEq, Repr

/-- `handleMetadata` for topics asked for by name, on a broker whose topics have
this many partitions each, numbered from zero on. -/
def handleMetadata (hosted : OrderedMap Bytes Nat) (topics : List Bytes) : List MetadataTopic :=
  topics.map fun name =>
    match hosted.find? name with
    | none => ⟨.unknownTopicOrPartition, name, []⟩
    | some count => ⟨.none, name, (List.range count).map fun partition : Nat => (partition : Int)⟩

/-- The input of the leader: the list it was handed and the topics it was told of. -/
def assignmentInput (members : Roster) (described : List MetadataTopic) : AssignmentInput where
  members := members.foldl (fun input member => input.insert member.1 member.2) OrderedMap.empty
  partitionCounts := described.foldl
    (fun counts topic =>
      if topic.error = .none then
        counts.insert topic.name (asSigned 32 (asUnsigned 32 topic.partitions.length))
      else counts)
    OrderedMap.empty

def encodeShares : List (Bytes × List TopicPartition) → OrderedMap Bytes Bytes →
    Except Error (OrderedMap Bytes Bytes)
  | [], assignments => .ok assignments
  | (memberId, assigned) :: rest, assignments => do
      let bytes ← encodeAssignment assigned
      encodeShares rest (assignments.insert memberId bytes)

namespace GroupConsumer

/-- An exception leaves `join`; what the consumer knows stays. -/
def thrown (consumer : GroupConsumer) : GroupConsumer := { consumer with phase := .idle }

def nextRound (consumer : GroupConsumer) (round : Nat) : GroupConsumer :=
  { consumer with phase := if round + 1 < kMaxRounds then .joining (round + 1) else .idle }

def forgetIfExpired (consumer : GroupConsumer) (error : ErrorCode) : GroupConsumer :=
  if error = .unknownMemberId then { consumer with memberId := [] } else consumer

def joined (consumer : GroupConsumer) (round : Nat) (result : JoinResult) : GroupConsumer :=
  let told := if result.memberId = [] then consumer else { consumer with memberId := result.memberId }
  if result.error = .rebalanceInProgress then told.nextRound round
  else if result.error = .unknownMemberId then (told.forgetIfExpired result.error).nextRound round
  else if result.error ≠ .none then told.thrown
  else
    let settled := { told with
      generation := result.generation
      isLeader := result.memberId == result.leaderId }
    if result.memberId = result.leaderId then
      { settled with
        phase := .leading round (result.members.map fun member => (member.memberId, member.subscription)) }
    else { settled with phase := .following round 0 }

/-- The answer to the Metadata request of a leader: it divides what it was told. -/
def described (consumer : GroupConsumer) (round : Nat) (members : Roster)
    (topics : List MetadataTopic) : GroupConsumer :=
  let input := assignmentInput members topics
  let computed :=
    if consumer.strategy = Storage.asciiBytes "roundrobin" then assignRoundRobin input else assignRange input
  match encodeShares computed.entries OrderedMap.empty with
  | .error _ => consumer.thrown
  | .ok assignments => { consumer with phase := .assigning round assignments }

/-- A share that has been collected; an exception of its decoding leaves `join`. -/
def collected (consumer : GroupConsumer) (assignment : Bytes) : GroupConsumer :=
  match decodeAssignment assignment with
  | .error _ => consumer.thrown
  | .ok assigned => { consumer with assignment := assigned, phase := .idle }

def syncedAsLeader (consumer : GroupConsumer) (round : Nat) (result : SyncResult) : GroupConsumer :=
  if result.error ≠ .none then (consumer.forgetIfExpired result.error).nextRound round
  else consumer.collected result.assignment

def syncedAsFollower (consumer : GroupConsumer) (round wait : Nat) (result : SyncResult) : GroupConsumer :=
  if result.error = .rebalanceInProgress then
    if wait + 1 < kMaxRounds then { consumer with phase := .following round (wait + 1) }
    else consumer.nextRound round
  else if result.error ≠ .none then (consumer.forgetIfExpired result.error).nextRound round
  else consumer.collected result.assignment

/-- `leave`, once it has been answered. -/
def left (consumer : GroupConsumer) : GroupConsumer :=
  { consumer with memberId := [], generation := -1, isLeader := false, assignment := [] }

end GroupConsumer

/-- A sync that was answered without an error: how often the group had been
removed before, the generation, who asked, what that member was subscribed to in
the group, and the bytes it was given. -/
structure Grant where
  life : Nat
  generation : Int
  memberId : Bytes
  subscription : List Bytes
  assignment : Bytes

/-- The consumers of one group, the broker they talk to and what its syncs have
handed out to them. -/
structure Consuming where
  groupId : Bytes
  issuing : Issuing
  hosted : OrderedMap Bytes Nat
  consumers : Nat → GroupConsumer
  life : Nat
  granted : List Grant

structure ConsumerSettings where
  clientId : Bytes
  topics : List Bytes
  strategy : Bytes
  sessionTimeoutMs : Int

inductive ConsumerAction where
  | start (index : Nat)
  | request (index : Nat) (nowMs : Int) (delivered : Bool)
  | fail (index : Nat)
  | leave (index : Nat)
  | hostPartition (topic : Bytes)
  | other (call : GroupCall)

namespace Consuming

def start (groupId : Bytes) (settings : Nat → ConsumerSettings) : Consuming where
  groupId := groupId
  issuing := Issuing.start
  hosted := OrderedMap.empty
  consumers := fun index =>
    { clientId := (settings index).clientId
      groupId := groupId
      topics := (settings index).topics
      strategy := (settings index).strategy
      sessionTimeoutMs := (settings index).sessionTimeoutMs }
  life := 0
  granted := []

def coordinator (state : Consuming) : GroupCoordinator := state.issuing.coordinator

def become (state : Consuming) (index : Nat) (consumer : GroupConsumer) : Consuming :=
  { state with consumers := Function.update state.consumers index consumer }

def call (state : Consuming) (call : GroupCall) : Consuming :=
  { state with
    issuing := ⟨state.coordinator.after call, state.issuing.issued ++ state.coordinator.issues call⟩
    life :=
      if (state.coordinator.groups.find? state.groupId).isSome ∧
          ((state.coordinator.after call).groups.find? state.groupId).isNone then state.life + 1
      else state.life }

def subscriptionOf (state : Consuming) (memberId : Bytes) : List Bytes :=
  (((state.coordinator.groups.find? state.groupId).bind (·.members.find? memberId)).map
    (·.subscription)).getD []

def sync (state : Consuming) (index : Nat) (assignments : OrderedMap Bytes Bytes) (nowMs : Int)
    (answered : SyncResult → GroupConsumer) : Consuming :=
  let consumer := state.consumers index
  let result := (state.coordinator.sync consumer.groupId consumer.memberId consumer.generation
    assignments nowMs).2
  let next := (state.call (.sync consumer.groupId consumer.memberId consumer.generation assignments
    nowMs)).become index (answered result)
  if result.error = .none then
    { next with
      granted := state.granted ++ [⟨state.life, consumer.generation, consumer.memberId,
        state.subscriptionOf consumer.memberId, result.assignment⟩] }
  else next

/-- The next request of a consumer; an answer that is not delivered throws. -/
def request (state : Consuming) (index : Nat) (nowMs : Int) (delivered : Bool) : Option Consuming :=
  let consumer := state.consumers index
  match consumer.phase with
  | .idle => none
  | .joining round =>
      let result := (state.coordinator.join consumer.groupId consumer.memberId consumer.clientId
        consumer.topics [consumer.strategy] consumer.sessionTimeoutMs nowMs).2
      some ((state.call (.join consumer.groupId consumer.memberId consumer.clientId consumer.topics
        [consumer.strategy] consumer.sessionTimeoutMs nowMs)).become index
          (if delivered then consumer.joined round result else consumer.thrown))
  | .leading round members =>
      some (state.become index
        (if delivered then consumer.described round members (handleMetadata state.hosted consumer.topics)
        else consumer.thrown))
  | .assigning round assignments =>
      some (state.sync index assignments nowMs fun result =>
        if delivered then consumer.syncedAsLeader round result else consumer.thrown)
  | .following round wait =>
      some (state.sync index OrderedMap.empty nowMs fun result =>
        if delivered then consumer.syncedAsFollower round wait result else consumer.thrown)

def step : ConsumerAction → Consuming → Option Consuming
  | .start index, state =>
      match (state.consumers index).phase with
      | .idle => some (state.become index { state.consumers index with phase := .joining 0 })
      | _ => none
  | .request index nowMs delivered, state => state.request index nowMs delivered
  | .fail index, state => some (state.become index (state.consumers index).thrown)
  | .leave index, state =>
      match (state.consumers index).phase with
      | .idle =>
          if (state.consumers index).memberId = [] then some state
          else
            some ((state.call (.leave (state.consumers index).groupId
              (state.consumers index).memberId)).become index (state.consumers index).left)
      | _ => none
  | .hostPartition topic, state =>
      some { state with hosted := state.hosted.insert topic ((state.hosted.find? topic).getD 0 + 1) }
  | .other call, state => some (state.call call)

def Admits (state : Consuming) : ConsumerAction → Prop
  | .other (.join target _ _ _ _ _ _) => target ≠ state.groupId
  | .other (.sync target _ _ _ _) => target ≠ state.groupId
  | _ => True

end Consuming

end DariyaKyu.Cli

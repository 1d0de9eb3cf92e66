import DariyaKyu.Group.OffsetStore
import DariyaKyu.Group.Rebalance

/-!
`handleOffsetCommit`: who asks is checked once, by a heartbeat, and then every
partition that was named is committed on its own. A request that names no member
and no generation is a standalone consumer's, and is not checked. The request is
the decoded one.
-/

namespace DariyaKyu.Server

set_option autoImplicit false

open Storage Protocol Groups

structure AskedPartition where
  partition : Int := 0
  nextOffset : Int := 0
  metadata : Bytes := []
  deriving DecidableEq, Repr

structure AskedTopic where
  name : Bytes
  partitions : List AskedPartition
  deriving DecidableEq, Repr

structure OffsetCommitRequest where
  groupId : Bytes
  generation : Int := -1
  memberId : Bytes
  topics : List AskedTopic
  deriving DecidableEq, Repr

structure AnsweredPartition where
  partition : Int := 0
  error : ErrorCode := .none
  deriving DecidableEq, Repr

structure AnsweredTopic where
  name : Bytes
  partitions : List AnsweredPartition
  deriving DecidableEq, Repr

structure OffsetCommitResponse where
  topics : List AnsweredTopic
  deriving DecidableEq, Repr

structure Broker where
  logs : LogManager
  groups : GroupCoordinator
  offsets : OffsetStore

/-- What the world adds to the commit of one partition: the time that is stored
with it, and what it adds to the append. -/
structure CommitIo extends AppendIo where
  nowMs : Int
  deriving DecidableEq

def OffsetCommitRequest.claimsMembership (request : OffsetCommitRequest) : Bool :=
  !request.memberId.isEmpty || decide (0 ≤ request.generation)

namespace Broker

def checkMembership (broker : Broker) (request : OffsetCommitRequest) (nowMs : Int) :
    Broker × ErrorCode :=
  if request.claimsMembership then
    let (groups, membership) :=
      broker.groups.heartbeat request.groupId request.memberId request.generation nowMs
    ({ broker with groups := groups }, membership)
  else (broker, .none)

def commitPartition (broker : Broker) (hash : Bytes → Nat) (groupId name : Bytes)
    (asked : AskedPartition) (io : CommitIo) : Option (ErrorCode × Broker) :=
  match broker.offsets.commit hash broker.logs ⟨groupId, name, asked.partition⟩
      ⟨asked.nextOffset, asked.metadata, io.nowMs⟩ io.toAppendIo with
  | .committed logs offsets => some (.none, { broker with logs := logs, offsets := offsets })
  | .threw _ logs => some (.unknown, { broker with logs := logs })
  | .ruined _ => none

/-- The inner loop. The world is asked once for each partition, by position. -/
def commitPartitions (broker : Broker) (hash : Bytes → Nat) (groupId name : Bytes)
    (membership : ErrorCode) (io : Nat → CommitIo) :
    List AskedPartition → Option (List AnsweredPartition × Broker)
  | [] => some ([], broker)
  | asked :: rest => do
      let (error, broker) ←
        if membership ≠ .none then some (membership, broker)
        else broker.commitPartition hash groupId name asked (io 0)
      let (answers, broker) ←
        broker.commitPartitions hash groupId name membership (fun place => io (place + 1)) rest
      return (⟨asked.partition, error⟩ :: answers, broker)

def commitTopics (broker : Broker) (hash : Bytes → Nat) (groupId : Bytes) (membership : ErrorCode)
    (io : Nat → CommitIo) : List AskedTopic → Option (List AnsweredTopic × Broker)
  | [] => some ([], broker)
  | topic :: rest => do
      let (partitions, broker) ←
        broker.commitPartitions hash groupId topic.name membership io topic.partitions
      let (answers, broker) ← broker.commitTopics hash groupId membership
        (fun place => io (place + topic.partitions.length)) rest
      return (⟨topic.name, partitions⟩ :: answers, broker)

def handleOffsetCommit (broker : Broker) (hash : Bytes → Nat) (request : OffsetCommitRequest)
    (nowMs : Int) (io : Nat → CommitIo) : Option (OffsetCommitResponse × Broker) := do
  let (broker, membership) := broker.checkMembership request nowMs
  let (topics, broker) ← broker.commitTopics hash request.groupId membership io request.topics
  return (⟨topics⟩, broker)

end Broker

theorem commit_partition_groups {broker after : Broker} {hash : Bytes → Nat} {groupId name : Bytes}
    {asked : AskedPartition} {io : CommitIo} {error : ErrorCode}
    (committed : broker.commitPartition hash groupId name asked io = some (error, after)) :
    after.groups = broker.groups := by
  unfold Broker.commitPartition at committed
  split at committed
  · cases committed
    rfl
  · cases committed
    rfl
  · cases committed

/-- Every partition that was asked for is answered with one error. -/
def OffsetCommitRequest.refusal (request : OffsetCommitRequest) (failure : ErrorCode) :
    OffsetCommitResponse where
  topics := request.topics.map fun topic =>
    ⟨topic.name, topic.partitions.map fun asked => ⟨asked.partition, failure⟩⟩

section Refused

variable (broker : Broker) (hash : Bytes → Nat) (groupId : Bytes) {failure : ErrorCode}

theorem refused_partitions (refused : failure ≠ .none) (name : Bytes) (io : Nat → CommitIo)
    (asked : List AskedPartition) :
    broker.commitPartitions hash groupId name failure io asked =
      some (asked.map fun asked => ⟨asked.partition, failure⟩, broker) := by
  induction asked generalizing io with
  | nil => rfl
  | cons first rest ih =>
      simp only [Broker.commitPartitions, if_pos refused, Option.bind_eq_bind, Option.bind_some, ih]
      rfl

theorem refused_topics (refused : failure ≠ .none) (io : Nat → CommitIo) (topics : List AskedTopic) :
    broker.commitTopics hash groupId failure io topics =
      some (topics.map fun topic =>
        ⟨topic.name, topic.partitions.map fun asked => ⟨asked.partition, failure⟩⟩, broker) := by
  induction topics generalizing io with
  | nil => rfl
  | cons first rest ih =>
      simp only [Broker.commitTopics, refused_partitions broker hash groupId refused,
        Option.bind_eq_bind, Option.bind_some, ih]
      rfl

end Refused

/-- A request that is not current is answered with an error for every partition,
and the broker is as it was. -/
theorem offset_commit_refused {broker : Broker} {request : OffsetCommitRequest}
    (claims : request.claimsMembership = true)
    (stale : ¬ broker.groups.Current request.groupId request.memberId request.generation)
    (hash : Bytes → Nat) (nowMs : Int) (io : Nat → CommitIo) :
    ∃ failure, failure ≠ .none ∧
      broker.handleOffsetCommit hash request nowMs io = some (request.refusal failure, broker) := by
  obtain ⟨failure, refused, beat⟩ := heartbeat_refused stale nowMs
  refine ⟨failure, refused, ?_⟩
  have checked : broker.checkMembership request nowMs = (broker, failure) := by
    simp only [Broker.checkMembership, claims, if_true, beat]
  simp only [Broker.handleOffsetCommit, checked, refused_topics broker hash request.groupId refused,
    Option.bind_eq_bind, Option.bind_some, OffsetCommitRequest.refusal]
  rfl

end DariyaKyu.Server

import DariyaKyu.Library.OrderedMap
import DariyaKyu.Protocol.ErrorCodes

/-!
`group/group_coordinator.cpp`: consumer groups and their rebalances. Nothing is
parked: a member that has to wait for others is told to ask again. Every member
function holds the mutex from its first line to its last, so a call is one step.
The generation and the member counter are numbers without a width here; signed
overflow of either is undefined behaviour in the source.
-/

namespace DariyaKyu.Groups

set_option autoImplicit false

open Protocol

/-- Strings are ordered byte by byte, as the keys of a `std::map` are. -/
instance bytesLinearOrder : Std.IsLinearOrder Bytes := inferInstance

instance bytesLawfulOrder : Std.LawfulOrderLT Bytes := inferInstance

inductive GroupState where
  | empty
  | preparingRebalance
  | completingRebalance
  | stable
  deriving DecidableEq, Repr

structure Member where
  memberId : Bytes := []
  clientId : Bytes := []
  subscription : List Bytes := []
  protocols : List Bytes := []
  assignment : Bytes := []
  sessionTimeoutMs : Int := 10000
  lastHeartbeatMs : Int := 0
  rejoined : Bool := false
  deriving DecidableEq, Repr

structure JoinResult where
  error : ErrorCode := .none
  memberId : Bytes := []
  generation : Int := -1
  leaderId : Bytes := []
  protocolName : Bytes := []
  members : List Member := []
  deriving DecidableEq, Repr

structure SyncResult where
  error : ErrorCode := .none
  assignment : Bytes := []
  deriving DecidableEq, Repr

structure Group where
  id : Bytes
  state : GroupState := .empty
  generation : Int := 0
  leaderId : Bytes := []
  protocolName : Bytes := []
  members : OrderedMap Bytes Member := OrderedMap.empty

structure GroupCoordinator where
  groups : OrderedMap Bytes Group := OrderedMap.empty
  nextMemberId : Nat := 1

namespace Group

def beginRebalance (group : Group) : Group :=
  { group with
    state := .preparingRebalance
    members := group.members.mapValues fun _ member => { member with rejoined := false } }

def everyone (group : Group) (candidate : Bytes) : Bool :=
  group.members.entries.all fun entry => entry.2.protocols.contains candidate

def maybeCompleteJoin (group : Group) : Group :=
  match group.members.first? with
  | none => { group with state := .empty, leaderId := [] }
  | some (leaderId, leader) =>
      if group.members.entries.all (·.2.rejoined) = false then group
      else
        { group with
          generation := group.generation + 1
          leaderId := leaderId
          protocolName := (leader.protocols.find? group.everyone).getD []
          state := .completingRebalance }

def resultFor (group : Group) (memberId : Bytes) : JoinResult where
  memberId := memberId
  generation := group.generation
  leaderId := group.leaderId
  protocolName := group.protocolName
  members := if memberId = group.leaderId then group.members.entries.map (·.2) else []

def touch (group : Group) (memberId : Bytes) (nowMs : Int) : Group :=
  { group with
    members := group.members.mapValues fun id member =>
      if id = memberId then { member with lastHeartbeatMs := nowMs } else member }

/-- Nothing the member asks for has changed, and the outcome is there. -/
def isRetry (group : Group) (id : Bytes) (subscription protocols : List Bytes) : Bool :=
  match group.members.find? id with
  | none => false
  | some existing =>
      (group.state == .completingRebalance || group.state == .stable) &&
        (existing.subscription == subscription && existing.protocols == protocols) && existing.rejoined

/-- The member as `join` writes it; its assignment is not touched. -/
def enroll (group : Group) (id clientId : Bytes) (subscription protocols : List Bytes)
    (sessionTimeoutMs nowMs : Int) : Group :=
  { group with
    members := group.members.insert id
      { (group.members.find? id).getD {} with
        memberId := id
        clientId := clientId
        subscription := subscription
        protocols := protocols
        sessionTimeoutMs := if 0 < sessionTimeoutMs then sessionTimeoutMs else 10000
        lastHeartbeatMs := nowMs
        rejoined := true } }

/-- The group right before `maybeCompleteJoin`, when the join is not a retry. -/
def rejoining (group : Group) (id clientId : Bytes) (subscription protocols : List Bytes)
    (sessionTimeoutMs nowMs : Int) : Group :=
  let started := if group.state = .preparingRebalance then group else group.beginRebalance
  started.enroll id clientId subscription protocols sessionTimeoutMs nowMs

def join (group : Group) (id clientId : Bytes) (subscription protocols : List Bytes)
    (sessionTimeoutMs nowMs : Int) : Group × JoinResult :=
  if group.isRetry id subscription protocols then
    (group.touch id nowMs, (group.touch id nowMs).resultFor id)
  else
    let joined :=
      (group.rejoining id clientId subscription protocols sessionTimeoutMs nowMs).maybeCompleteJoin
    if joined.state = .preparingRebalance then
      (joined, { error := .rebalanceInProgress, memberId := id })
    else (joined, joined.resultFor id)

/-- The leader's assignments, stored as given; an id nobody has is ignored. -/
def assign (group : Group) (assignments : OrderedMap Bytes Bytes) : Group :=
  { group with
    members := group.members.mapValues fun id member =>
      match assignments.find? id with
      | none => member
      | some bytes => { member with assignment := bytes }
    state := .stable }

end Group

def Member.timedOut (member : Member) (nowMs : Int) : Bool :=
  member.sessionTimeoutMs ≤ nowMs - member.lastHeartbeatMs

def Group.expire (group : Group) (nowMs : Int) : Group :=
  let kept := { group with members := group.members.filter fun _ member => !member.timedOut nowMs }
  if group.members.entries.any (·.2.timedOut nowMs) then kept.beginRebalance.maybeCompleteJoin
  else kept

namespace GroupCoordinator

def groupFor (coordinator : GroupCoordinator) (groupId : Bytes) : Group :=
  (coordinator.groups.find? groupId).getD { id := groupId }

def store (coordinator : GroupCoordinator) (groupId : Bytes) (group : Group) : GroupCoordinator :=
  { coordinator with groups := coordinator.groups.insert groupId group }

/-- The id the coordinator gives out next: `clientId + "-" + to_string(nextMemberId_)`. -/
def freshId (coordinator : GroupCoordinator) (clientId : Bytes) : Bytes :=
  clientId ++ [45] ++ toStringBytes coordinator.nextMemberId

def join (coordinator : GroupCoordinator) (groupId memberId clientId : Bytes)
    (subscription protocols : List Bytes) (sessionTimeoutMs nowMs : Int) :
    GroupCoordinator × JoinResult :=
  if groupId = [] then (coordinator, { error := .invalidGroupId })
  else
    let group := coordinator.groupFor groupId
    if memberId = [] then
      let (joined, result) := group.join (coordinator.freshId clientId) clientId subscription
        protocols sessionTimeoutMs nowMs
      ({ coordinator with nextMemberId := coordinator.nextMemberId + 1 }.store groupId joined, result)
    else if (group.members.find? memberId).isNone then
      -- a group that was not there has been created all the same
      (coordinator.store groupId group, { error := .unknownMemberId })
    else
      let (joined, result) := group.join memberId clientId subscription protocols sessionTimeoutMs nowMs
      (coordinator.store groupId joined, result)

def sync (coordinator : GroupCoordinator) (groupId memberId : Bytes) (generation : Int)
    (assignments : OrderedMap Bytes Bytes) (nowMs : Int) : GroupCoordinator × SyncResult :=
  match coordinator.groups.find? groupId with
  | none => (coordinator, { error := .unknownMemberId })
  | some group =>
      match group.members.find? memberId with
      | none => (coordinator, { error := .unknownMemberId })
      | some member =>
          if generation ≠ group.generation then (coordinator, { error := .illegalGeneration })
          else if group.state = .preparingRebalance then (coordinator, { error := .rebalanceInProgress })
          else
            let touched := group.touch memberId nowMs
            if group.state = .completingRebalance then
              if memberId = group.leaderId then
                (coordinator.store groupId (touched.assign assignments),
                  { assignment := (assignments.find? memberId).getD member.assignment })
              else (coordinator.store groupId touched, { error := .rebalanceInProgress })
            else (coordinator.store groupId touched, { assignment := member.assignment })

def heartbeat (coordinator : GroupCoordinator) (groupId memberId : Bytes) (generation nowMs : Int) :
    GroupCoordinator × ErrorCode :=
  match coordinator.groups.find? groupId with
  | none => (coordinator, .unknownMemberId)
  | some group =>
      if (group.members.find? memberId).isNone then (coordinator, .unknownMemberId)
      else if generation ≠ group.generation then (coordinator, .illegalGeneration)
      else if group.state = .preparingRebalance then (coordinator, .rebalanceInProgress)
      else (coordinator.store groupId (group.touch memberId nowMs), .none)

def leave (coordinator : GroupCoordinator) (groupId memberId : Bytes) : GroupCoordinator × ErrorCode :=
  match coordinator.groups.find? groupId with
  | none => (coordinator, .unknownMemberId)
  | some group =>
      if (group.members.find? memberId).isNone then (coordinator, .unknownMemberId)
      else
        let left := { group with members := group.members.erase memberId }.beginRebalance.maybeCompleteJoin
        if left.members.isEmpty then
          ({ coordinator with groups := coordinator.groups.erase groupId }, .none)
        else (coordinator.store groupId left, .none)

def expire (coordinator : GroupCoordinator) (nowMs : Int) : GroupCoordinator × Nat :=
  ({ coordinator with
      groups := (coordinator.groups.mapValues fun _ group => group.expire nowMs).filter
        fun _ group => !group.members.isEmpty },
    (coordinator.groups.entries.map fun entry =>
      (entry.2.members.entries.filter (·.2.timedOut nowMs)).length).sum)

def stateOf (coordinator : GroupCoordinator) (groupId : Bytes) : GroupState :=
  (coordinator.groupFor groupId).state

end GroupCoordinator

inductive GroupCall where
  | join (groupId memberId clientId : Bytes) (subscription protocols : List Bytes)
      (sessionTimeoutMs nowMs : Int)
  | sync (groupId memberId : Bytes) (generation : Int) (assignments : OrderedMap Bytes Bytes)
      (nowMs : Int)
  | heartbeat (groupId memberId : Bytes) (generation nowMs : Int)
  | leave (groupId memberId : Bytes)
  | expire (nowMs : Int)

def GroupCoordinator.after (coordinator : GroupCoordinator) : GroupCall → GroupCoordinator
  | .join groupId memberId clientId subscription protocols sessionTimeoutMs nowMs =>
      (coordinator.join groupId memberId clientId subscription protocols sessionTimeoutMs nowMs).1
  | .sync groupId memberId generation assignments nowMs =>
      (coordinator.sync groupId memberId generation assignments nowMs).1
  | .heartbeat groupId memberId generation nowMs =>
      (coordinator.heartbeat groupId memberId generation nowMs).1
  | .leave groupId memberId => (coordinator.leave groupId memberId).1
  | .expire nowMs => (coordinator.expire nowMs).1

end DariyaKyu.Groups

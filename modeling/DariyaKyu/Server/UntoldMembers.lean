import DariyaKyu.Library.GuardedRun
import DariyaKyu.Server.Connection
import DariyaKyu.Server.HandlerOutcomes
import DariyaKyu.Server.TellableGroups
import DariyaKyu.Group.Membership

/-!
Requests that are answered with nothing but an error, because an exception came
out of their handler. Every handler decodes before it works, and encodes after;
what it repeats of a request can be written again. The one string that is made
in between is the id of a new member: when that is too long the group has the
member already, and nobody is told.
-/

namespace DariyaKyu.Server

set_option autoImplicit false

open Storage Protocol Groups StatefulLoop

/-- Where this ends in an exception, the broker is as it was. -/
def ThrowsUntouched (context : BrokerContext) (handled : Handled) : Prop :=
  ∀ failure after, handled = some (.error failure, after) → after = context

section Handlers

variable {request : RequestContext} {out : Response} {context after : BrokerContext}

theorem decoding_untouched {Request : Type} {decode : Decoder Request} {handle : Request → Handled}
    (each : ∀ decoded rest, decode request.body = .ok (decoded, rest) →
      ThrowsUntouched request.broker (handle decoded)) :
    ThrowsUntouched request.broker (request.decoding decode handle) := by
  intro failure after ended
  rcases decoding_ended ended with ⟨_, _, same⟩ | ⟨decoded, rest, isDecoded, handled⟩
  · exact same
  · exact each decoded rest isDecoded failure after handled

theorem reply_written {encoded : Except Error Bytes} (written : ∃ bytes, encoded = .ok bytes) :
    ThrowsUntouched context (reply out encoded after) := by
  intro failure last ended
  obtain ⟨bytes, rfl⟩ := written
  cases ended

theorem reply_unchanged (encoded : Except Error Bytes) :
    ThrowsUntouched context (reply out encoded context) := by
  intro failure last ended
  exact (Prod.mk.inj (Option.some.inj ended)).2.symm

theorem bind_untouched {Given : Type} {first : Option Given} {next : Given → Handled}
    (each : ∀ given, first = some given → ThrowsUntouched context (next given)) :
    ThrowsUntouched context (first >>= next) := by
  intro failure last ended
  obtain ⟨given, isGiven, ended⟩ := Option.bind_eq_some_iff.mp ended
  exact each given isGiven failure last ended

section Loops

variable {Asked Answer : Type} {answer : Bytes → Asked → BrokerContext →
  Option (Answer × BrokerContext)}
  {topics : List (TopicOf Asked)} {answers : List (TopicOf Answer)}

theorem answer_topics_unchanged
    (looks : ∀ name asked found given next, answer name asked found = some (given, next) → next = found)
    (done : answerTopics answer topics context = some (answers, after)) : after = context := by
  refine @answer_topics_keeps _ _ _ _ _ _ _ (fun found => found = context) rfl ?_ done
  intro name asked found given next same answered
  exact (looks name asked found given next answered).trans same

theorem answer_topics_short (short : ∀ topic ∈ topics, topic.name.length < 2 ^ 15)
    (done : answerTopics answer topics context = some (answers, after)) :
    ∀ topic ∈ answers, topic.name.length < 2 ^ 15 := by
  have alike := @answer_topics_answers _ _ _ _ _ _ _ (fun _ => True) (fun _ _ _ _ _ _ => trivial) done
  clear done
  induction alike with
  | nil => exact List.forall_mem_nil _
  | cons same rest ih =>
      obtain ⟨first, others⟩ := List.forall_mem_cons.mp short
      refine List.forall_mem_cons.mpr ⟨?_, ih others⟩
      rw [same.1]
      exact first

theorem besides_short (io : RequestIo) (short : ∀ topic ∈ topics, topic.name.length < 2 ^ 15) :
    ∀ topic ∈ io.besides topics, topic.name.length < 2 ^ 15 := by
  intro topic member
  have named : topic.name ∈ (io.besides topics).map (·.name) := List.mem_map_of_mem member
  rw [besides_names] at named
  obtain ⟨original, present, same⟩ := List.mem_map.mp named
  rw [← same]
  exact short original present

end Loops

theorem list_partition_looks {name : Bytes} {asked : ListOffsetsAsked} {given : ListedPartition}
    (looked : context.listPartition name asked = some (given, after)) : after = context := by
  unfold BrokerContext.listPartition at looked
  simp only at looked
  split at looked
  · cases looked
    rfl
  split at looked
  · obtain ⟨start, _, made⟩ := Option.map_eq_some_iff.mp looked
    cases made
    rfl
  split at looked <;> cases looked <;> rfl

theorem list_offsets_untouched : ThrowsUntouched request.broker (request.handleListOffsets out) := by
  apply decoding_untouched
  intro decoded rest _
  apply bind_untouched
  rintro ⟨topics, context⟩ answered
  cases answer_topics_unchanged (fun _ _ _ _ _ => list_partition_looks) answered
  exact reply_unchanged _

theorem fetch_partition_looks {name : Bytes} {asked : FetchAsked} {given : FetchedPartition}
    (looked : context.fetchPartition name asked = some (given, after)) : after = context := by
  unfold BrokerContext.fetchPartition at looked
  simp only at looked
  split at looked
  · cases looked
    rfl
  · obtain ⟨start, _, looked⟩ := Option.bind_eq_some_iff.mp looked
    obtain ⟨read, _, made⟩ := Option.bind_eq_some_iff.mp looked
    cases made
    rfl

theorem fetch_untouched : ThrowsUntouched request.broker (request.handleFetch out) := by
  apply decoding_untouched
  intro decoded rest _
  apply bind_untouched
  rintro ⟨topics, context⟩ answered failure after ended
  cases answer_topics_unchanged (fun _ _ _ _ _ => fetch_partition_looks) answered
  exact (Prod.mk.inj (Option.some.inj ended)).2.symm

theorem fetch_offset_looks {groupId name : Bytes} {partition : Int} {given : FetchedOffset}
    (looked : context.fetchOffset groupId name partition = some (given, after)) : after = context := by
  unfold BrokerContext.fetchOffset at looked
  split at looked <;> cases looked <;> rfl

theorem offset_fetch_untouched : ThrowsUntouched request.broker (request.handleOffsetFetch out) := by
  apply decoding_untouched
  intro decoded rest _
  apply bind_untouched
  rintro ⟨topics, context⟩ answered
  cases answer_topics_unchanged (fun _ _ _ _ _ => fetch_offset_looks) answered
  exact reply_unchanged _

theorem produce_untouched : ThrowsUntouched request.broker (request.handleProduce out) := by
  apply decoding_untouched
  intro decoded rest isDecoded
  apply bind_untouched
  intro given answered
  apply reply_written
  apply encode_produce_ok
  exact answer_topics_short (besides_short request.io (decoded_produce_short isDecoded)) answered

theorem offset_commit_untouched : ThrowsUntouched request.broker (request.handleOffsetCommit out) := by
  apply decoding_untouched
  intro decoded rest isDecoded
  have short : ∀ topic ∈ decoded.topics.map (fun topic => (⟨topic.name, topic.partitions⟩ :
    TopicOf AskedPartition)),
      topic.name.length < 2 ^ 15 := by
    intro topic member
    obtain ⟨original, present, rfl⟩ := List.mem_map.mp member
    exact decoded_offset_commit_short isDecoded original present
  apply bind_untouched
  intro given answered
  apply reply_written
  apply encode_offset_commit_ok
  intro topic member
  obtain ⟨original, present, rfl⟩ := List.mem_map.mp member
  exact answer_topics_short (besides_short request.io short) answered original present

theorem create_topic_names (topics : List (TopicRequest × Faults)) (data : DataDirectory) :
    (Server.handleCreateTopic topics data).2.map (·.1) = topics.map (·.1.name) := by
  induction topics generalizing data with
  | nil => rfl
  | cons topic rest ih =>
      simp only [Server.handleCreateTopic, List.map_cons, ih]

theorem create_topic_untouched : ThrowsUntouched request.broker (request.handleCreateTopic out) := by
  apply decoding_untouched
  intro decoded rest isDecoded
  apply reply_written
  apply encode_create_topic_ok
  intro answer member
  have named := List.mem_map_of_mem (f := (·.1)) member
  rw [create_topic_names] at named
  obtain ⟨⟨asked, faults⟩, present, same⟩ := List.mem_map.mp named
  rw [← same]
  obtain ⟨place, inside, made⟩ := List.mem_mapIdx.mp present
  cases made
  exact decoded_create_topic_short isDecoded _ (List.getElem_mem _)

end Handlers

def UntoldJoin (request : RequestContext) : Prop :=
  RequestHeader.Asks request.header .joinGroup ∧
    ∃ decoded rest, decodeJoinGroupRequest request.body = .ok (decoded, rest) ∧ decoded.groupId ≠ [] ∧
      decoded.memberId = [] ∧
      2 ^ 15 ≤ request.header.clientId.length + 1 + (toStringBytes request.broker.groups.nextMemberId).length

/-- An exception takes the answer with it, and leaves the broker as it was. -/
def ThrowsWithoutTrace (request : RequestContext) : Prop := ThrowsUntouched request.broker
    (dispatch request)

section Joining

variable {request : RequestContext} {out : Response}

theorem fresh_id_length (coordinator : GroupCoordinator) (clientId : Bytes) :
    (coordinator.freshId clientId).length =
      clientId.length + 1 + (toStringBytes coordinator.nextMemberId).length := by
  simp only [GroupCoordinator.freshId, List.length_append, List.length_singleton]

theorem asked_join_tellable {decoded : JoinGroupRequest} {rest : BufferReader}
    (asks : RequestHeader.Asks request.header .joinGroup) (told : ¬ UntoldJoin request)
    (isDecoded : decodeJoinGroupRequest request.body = .ok (decoded, rest)) :
    TellableCall request.broker.groups (.join decoded.groupId decoded.memberId request.header.clientId
      decoded.subscription decoded.protocols decoded.sessionTimeoutMs request.io.nowMs) := by
  have short := decoded_join_group_short isDecoded
  refine ⟨short.subscription, short.protocols, ?_⟩
  intro occupied isFresh
  by_contra long
  rw [fresh_id_length] at long
  exact told ⟨asks, decoded, rest, isDecoded, occupied, isFresh, by omega⟩

theorem join_group_untouched (tellable : TellableGroups request.broker.groups)
    (asks : RequestHeader.Asks request.header .joinGroup) (told : ¬ UntoldJoin request) :
    ThrowsUntouched request.broker (request.handleJoinGroup out) := by
  apply decoding_untouched
  intro decoded rest isDecoded
  apply reply_written
  apply encode_join_group_ok
  apply join_answer_told tellable (asked_join_tellable asks told isDecoded)
  exact (decoded_join_group_short isDecoded).memberId

theorem handler_untouched (key : ApiKey) (asks : RequestHeader.Asks request.header key)
    (tellable : TellableGroups request.broker.groups) (told : ¬ UntoldJoin request) :
    ThrowsUntouched request.broker (handlerOf key request out) := by
  cases key with
  | produce => exact produce_untouched
  | fetch => exact fetch_untouched
  | listOffsets => exact list_offsets_untouched
  | metadata => exact decoding_untouched fun decoded rest _ => reply_unchanged _
  | offsetCommit => exact offset_commit_untouched
  | offsetFetch => exact offset_fetch_untouched
  | findCoordinator => exact decoding_untouched fun decoded rest _ => reply_unchanged _
  | joinGroup => exact join_group_untouched tellable asks told
  | heartbeat => exact decoding_untouched fun decoded rest _ => reply_written ⟨_, rfl⟩
  | leaveGroup => exact decoding_untouched fun decoded rest _ => reply_written ⟨_, rfl⟩
  | syncGroup => exact decoding_untouched fun decoded rest _ => reply_written ⟨_, rfl⟩
  | createTopic => exact create_topic_untouched

theorem dispatch_untouched (tellable : TellableGroups request.broker.groups)
    (told : ¬ UntoldJoin request) :
    ThrowsWithoutTrace request := by
  intro failure after ended
  unfold dispatch at ended
  cases found : handlerFor request.header with
  | none =>
      simp only [found] at ended
      cases ended
  | some handler =>
      simp only [found] at ended
      obtain ⟨key, asks, rfl⟩ := handler_for_cases found
      exact handler_untouched key asks tellable told failure after ended

/-- The new member is in its group, and no answer has its id. -/
theorem untold_join_traced (untold : UntoldJoin request) :
    ∃ decoded rest failure after, decodeJoinGroupRequest request.body = .ok (decoded, rest) ∧
      dispatch request = some (.error failure, after) ∧
      after.groups.nextMemberId = request.broker.groups.nextMemberId + 1 ∧
      after.groups.hasMember decoded.groupId (request.broker.groups.freshId request.header.clientId) = true := by
  obtain ⟨asks, decoded, rest, isDecoded, occupied, isFresh, long⟩ := untold
  rw [← fresh_id_length] at long
  cases joined : request.broker.groups.join decoded.groupId [] request.header.clientId
      decoded.subscription decoded.protocols decoded.sessionTimeoutMs request.io.nowMs with
  | mk groups answer =>
      obtain ⟨counted, entered, named⟩ := fresh_join occupied _ _ _ _ _ joined
      obtain ⟨failure, refused⟩ := @encode_join_group_long answer (named ▸ long)
      refine ⟨decoded, rest, failure, { request.broker with groups := groups }, isDecoded, ?_,
        counted, entered⟩
      simp only [dispatch, handler_for_asked asks, handlerOf, RequestContext.handleJoinGroup,
        RequestContext.decoding, isDecoded, isFresh, joined, reply, refused]
      rfl

end Joining

/-- What can happen to a broker that is up: a frame comes on some connection, the
timer of the groups fires, or something does not go to the groups at all. -/
inductive BrokerEvent where
  | came (frame : Bytes) (io : RequestIo)
  | expiry (nowMs : Int)
  | elsewhere (change : BrokerContext → BrokerContext)

def requestIn (frame : Bytes) (io : RequestIo) (context : BrokerContext) : Option RequestContext :=
  (decodeRequestHeader (.ofBytes frame)).toOption.map fun given => ⟨given.1, given.2, frame,
    context, io⟩

namespace BrokerEvent

/-- The broker behind an event; there is none when the process died. -/
def step (event : BrokerEvent) (context : BrokerContext) : Option BrokerContext :=
  match event with
  | .came frame io =>
      match requestIn frame io context with
      | none => some context
      | some request => (exchange request).map (·.2)
  | .expiry nowMs => some { context with groups := (context.groups.expire nowMs).1 }
  | .elsewhere change => some { change context with groups := context.groups }

/-- No frame brings a new member an id that will not fit. -/
def Told (context : BrokerContext) : BrokerEvent → Prop
  | .came frame io => ∀ request, requestIn frame io context = some request → ¬ UntoldJoin request
  | _ => True

end BrokerEvent

section Runs

variable {request : RequestContext} {out : Response} {context after : BrokerContext}

def KeepsTellable (handled : Handled) : Prop :=
  ∀ result after, handled = some (result, after) → TellableGroups after.groups

theorem decoding_tellable {Request : Type} {decode : Decoder Request} {handle : Request → Handled}
    (before : TellableGroups request.broker.groups)
    (each : ∀ decoded rest, decode request.body = .ok (decoded, rest) →
        KeepsTellable (handle decoded)) :
    KeepsTellable (request.decoding decode handle) := by
  intro result after ended
  rcases decoding_ended ended with ⟨_, _, same⟩ | ⟨decoded, rest, isDecoded, handled⟩
  · rw [same]
    exact before
  · exact each decoded rest isDecoded result after handled

theorem reply_tellable {encoded : Except Error Bytes} (tellable : TellableGroups after.groups) :
    KeepsTellable (reply out encoded after) := by
  intro result last ended
  cases ended
  exact tellable

theorem bind_tellable {Given : Type} {first : Option Given} {next : Given → Handled}
    (each : ∀ given, first = some given → KeepsTellable (next given)) : KeepsTellable
    (first >>= next) := by
  intro result last ended
  obtain ⟨given, isGiven, ended⟩ := Option.bind_eq_some_iff.mp ended
  exact each given isGiven result last ended

theorem answer_topics_groups {Asked Answer : Type}
    {answer : Bytes → Asked → BrokerContext → Option (Answer × BrokerContext)}
    {topics : List (TopicOf Asked)} {answers : List (TopicOf Answer)}
    (aside : ∀ name asked found given next, answer name asked found = some (given, next) →
      next.groups = found.groups)
    (done : answerTopics answer topics context = some (answers, after)) : after.groups =
    context.groups := by
  refine @answer_topics_keeps _ _ _ _ _ _ _ (fun found => found.groups = context.groups) rfl ?_ done
  intro name asked found given next same answered
  exact (aside name asked found given next answered).trans same

theorem produce_partition_groups {frame name : Bytes} {asked : ProduceAsked × CommitIo}
    {given : ProducedPartition} (answered : context.producePartition frame name asked =
        some (given, after)) :
    after.groups = context.groups := by
  unfold BrokerContext.producePartition at answered
  simp only at answered
  split at answered
  · cases answered
    rfl
  split at answered
  · cases answered
    rfl
  split at answered
  · cases answered
  · cases answered
    split <;> rfl

theorem commit_partition_keeps_groups {groupId name : Bytes} {membership : ErrorCode}
    {asked : AskedPartition × CommitIo} {given : AnsweredPartition}
    (answered : context.commitPartition groupId membership name asked = some (given, after)) :
    after.groups = context.groups := by
  unfold BrokerContext.commitPartition at answered
  split at answered
  · cases answered
    rfl
  simp only at answered
  split at answered
  · cases answered
  split at answered <;> cases answered <;> rfl

theorem check_membership_tellable {broker checked : Broker} {asked : OffsetCommitRequest} {nowMs : Int}
    {membership : ErrorCode} (tellable : TellableGroups broker.groups)
    (isChecked : broker.checkMembership asked nowMs = (checked, membership)) :
    TellableGroups checked.groups := by
  unfold Broker.checkMembership at isChecked
  split at isChecked
  · cases isChecked
    exact @after_tellable _ tellable (.heartbeat asked.groupId asked.memberId asked.generation nowMs) trivial
  · cases isChecked
    exact tellable

theorem handler_tellable (key : ApiKey) (asks : RequestHeader.Asks request.header key)
    (tellable : TellableGroups request.broker.groups) (told : ¬ UntoldJoin request) :
    KeepsTellable (handlerOf key request out) := by
  have kept : ∀ {context : BrokerContext}, context.groups = request.broker.groups →
      TellableGroups context.groups := fun same => same ▸ tellable
  cases key with
  | produce =>
      apply decoding_tellable tellable
      intro decoded rest _
      apply bind_tellable
      intro given answered
      exact reply_tellable (kept (answer_topics_groups (fun _ _ _ _ _ =>
        produce_partition_groups) answered))
  | fetch =>
      apply decoding_tellable tellable
      intro decoded rest _
      apply bind_tellable
      intro given answered result after ended
      cases ended
      exact kept (congrArg (·.groups) (answer_topics_unchanged (fun _ _ _ _ _ =>
        fetch_partition_looks) answered))
  | listOffsets =>
      apply decoding_tellable tellable
      intro decoded rest _
      apply bind_tellable
      intro given answered
      exact reply_tellable
        (kept (congrArg (·.groups) (answer_topics_unchanged (fun _ _ _ _ _ =>
          list_partition_looks) answered)))
  | metadata => exact decoding_tellable tellable fun _ _ _ => reply_tellable tellable
  | offsetCommit =>
      apply decoding_tellable tellable
      intro decoded rest _
      apply bind_tellable
      intro given answered
      apply reply_tellable
      rw [answer_topics_groups (fun _ _ _ _ _ => commit_partition_keeps_groups) answered]
      exact check_membership_tellable tellable rfl
  | offsetFetch =>
      apply decoding_tellable tellable
      intro decoded rest _
      apply bind_tellable
      intro given answered
      exact reply_tellable
        (kept (congrArg (·.groups) (answer_topics_unchanged (fun _ _ _ _ _ =>
          fetch_offset_looks) answered)))
  | findCoordinator => exact decoding_tellable tellable fun _ _ _ => reply_tellable tellable
  | joinGroup =>
      apply decoding_tellable tellable
      intro decoded rest isDecoded
      exact reply_tellable (after_tellable tellable (asked_join_tellable asks told isDecoded))
  | heartbeat =>
      apply decoding_tellable tellable
      intro decoded rest _
      exact reply_tellable (@after_tellable _ tellable
        (.heartbeat decoded.groupId decoded.memberId decoded.generation request.io.nowMs) trivial)
  | leaveGroup =>
      apply decoding_tellable tellable
      intro decoded rest _
      exact reply_tellable (@after_tellable _ tellable (.leave decoded.groupId decoded.memberId) trivial)
  | syncGroup =>
      apply decoding_tellable tellable
      intro decoded rest _
      exact reply_tellable (@after_tellable _ tellable
        (.sync decoded.groupId decoded.memberId decoded.generation decoded.assignments request.io.nowMs) trivial)
  | createTopic => exact decoding_tellable tellable fun _ _ _ => reply_tellable tellable

theorem dispatch_tellable (tellable : TellableGroups request.broker.groups)
    (told : ¬ UntoldJoin request) :
    KeepsTellable (dispatch request) := by
  intro result after ended
  unfold dispatch at ended
  cases found : handlerFor request.header with
  | none =>
      simp only [found] at ended
      cases ended
      exact tellable
  | some handler =>
      simp only [found] at ended
      obtain ⟨key, asks, rfl⟩ := handler_for_cases found
      exact handler_tellable key asks tellable told result after ended

theorem exchange_dispatched {response : Response} (ended : exchange request = some (response, after)) :
    ∃ result, dispatch request = some (result, after) := by
  unfold exchange at ended
  split at ended
  · cases ended
  · next isDispatched =>
    cases ended
    exact ⟨_, isDispatched⟩
  · next isDispatched =>
    cases ended
    exact ⟨_, isDispatched⟩

theorem request_in_broker {frame : Bytes} {io : RequestIo} (isRequest : requestIn frame io context =
    some request) :
    request.broker = context := by
  obtain ⟨given, _, rfl⟩ := Option.map_eq_some_iff.mp isRequest
  rfl

theorem event_tellable (tellable : TellableGroups context.groups) {event : BrokerEvent}
    (told : event.Told context) (taken : event.step context = some after) :
    TellableGroups after.groups := by
  cases event with
  | came frame io =>
      cases isRequest : requestIn frame io context with
      | none =>
          simp only [BrokerEvent.step, isRequest] at taken
          cases taken
          exact tellable
      | some request =>
          simp only [BrokerEvent.step, isRequest] at taken
          obtain ⟨⟨response, next⟩, exchanged, rfl⟩ := Option.map_eq_some_iff.mp taken
          obtain ⟨result, dispatched⟩ := exchange_dispatched exchanged
          have same := request_in_broker isRequest
          exact dispatch_tellable (same ▸ tellable) (told request isRequest) result next dispatched
  | expiry nowMs =>
      cases taken
      exact @after_tellable _ tellable (.expire nowMs) trivial
  | elsewhere change =>
      cases taken
      exact tellable

/-- While every new member can be told its id, a request that is answered with
nothing but an error has changed nothing; a member that cannot be told is there
all the same. -/
theorem refusals_leave_no_trace {started : BrokerContext} (fresh : started.groups = {})
    (reached : GuardedRun.Reaches BrokerEvent.step (fun context event =>
        event.Told context) started context)
    {frame : Bytes} {io : RequestIo} (isRequest : requestIn frame io context = some request) :
    ThrowsWithoutTrace request ↔ ¬ UntoldJoin request := by
  have initial : TellableGroups started.groups := by
    rw [fresh]
    intro groupId group found
    cases found
  have tellable : TellableGroups context.groups :=
    reached.invariant _ _ (fun context => TellableGroups context.groups) initial
      fun _ _ _ before told taken => event_tellable before told taken
  constructor
  · intro without untold
    obtain ⟨_, _, failure, after, _, threw, counted, _⟩ := untold_join_traced untold
    rw [without failure after threw] at counted
    omega
  · intro told
    exact dispatch_untouched (request_in_broker isRequest ▸ tellable) told

end Runs

def joinHeader (clientId : Bytes) : RequestHeader :=
  { apiKey := ApiKey.joinGroup.number, correlationId := 7, clientId := clientId }

def newMemberBody : Bytes :=
  writeInt16 1 ++ [103] ++ writeInt32 10000 ++ writeInt16 0 ++ writeInt32 0 ++ writeInt32 0

set_option maxRecDepth 20000 in
theorem new_member_decoded (position : Nat) :
    ∃ rest, decodeJoinGroupRequest ⟨position, newMemberBody⟩ = .ok (⟨[103], 10000, [], [], []⟩, rest) :=
  ⟨_, rfl⟩

def freshBroker : BrokerContext where
  logs := { dataDir := "data", defaults := {}, logs := [] }
  offsets := { partitions := 0 }
  groups := {}

/-- Under the longest client id that a header can carry the reply is lost, and
the group has a member nobody knows of. -/
theorem long_client_untold :
    ∃ clientId request failure after id,
      requestIn (encodeRequestHeader (joinHeader clientId) ++ newMemberBody) {} freshBroker =
        some request ∧
      dispatch request = some (.error failure, after) ∧ 2 ^ 15 ≤ id.length ∧
      freshBroker.groups.hasMember [103] id = false ∧ after.groups.hasMember [103] id = true := by
  obtain ⟨clientId, length⟩ : ∃ clientId : Bytes, clientId.length = 32767 :=
    ⟨List.replicate 32767 97, List.length_replicate⟩
  have encodable : (joinHeader clientId).Encodable :=
    ⟨(by decide : FitsSigned 16 11), (by decide : FitsSigned 16 0), (by decide : FitsSigned 32 7),
      length.trans_lt (by decide)⟩
  obtain ⟨position, isHeader⟩ := decode_request_header_encode encodable 0 newMemberBody
  have isRequest : requestIn (encodeRequestHeader (joinHeader clientId) ++ newMemberBody) {} freshBroker =
      some ⟨joinHeader clientId, ⟨position, newMemberBody⟩,
        encodeRequestHeader (joinHeader clientId) ++ newMemberBody, freshBroker, {}⟩ := by
    simp only [requestIn, BufferReader.ofBytes, isHeader]
    rfl
  obtain ⟨rest, isBody⟩ := new_member_decoded position
  have long : 2 ^ 15 ≤ (freshBroker.groups.freshId clientId).length := by
    rw [fresh_id_length, length]
    omega
  have untold : UntoldJoin ⟨joinHeader clientId, ⟨position, newMemberBody⟩,
      encodeRequestHeader (joinHeader clientId) ++ newMemberBody, freshBroker, {}⟩ :=
    ⟨⟨rfl, rfl⟩, _, rest, isBody, by decide, rfl, by rw [← fresh_id_length]; exact long⟩
  obtain ⟨decoded, _, failure, after, isDecoded, threw, _, entered⟩ := untold_join_traced untold
  cases isDecoded.symm.trans isBody
  exact ⟨clientId, _, failure, after, _, isRequest, threw, long, rfl, entered⟩

def memberFrame : Bytes := encodeRequestHeader (joinHeader [99]) ++ newMemberBody

def storeFrame : Bytes :=
  encodeRequestHeader { apiKey := ApiKey.produce.number } ++ writeInt16 1 ++ writeInt32 1000 ++ writeInt32 1 ++
    writeInt16 1 ++ [116] ++ writeInt32 1 ++ writeInt32 0 ++
    writeInt32 (recordBatchOf 10 none (some [118])).length ++ recordBatchOf 10 none (some [118])

/-- One of the two comes, while the counter of the members has few digits. -/
def BrokerEvent.Fills (context : BrokerContext) : BrokerEvent → Prop
  | .came frame _ =>
      (frame = memberFrame ∨ frame = storeFrame) ∧ (toStringBytes context.groups.nextMemberId).length < 10
  | _ => False

instance (context : BrokerContext) (event : BrokerEvent) : Decidable (event.Fills context) :=
  match event with
  | .came frame _ =>
      inferInstanceAs (Decidable
        ((frame = memberFrame ∨ frame = storeFrame) ∧ (toStringBytes context.groups.nextMemberId).length < 10))
  | .expiry _ | .elsewhere _ => inferInstanceAs (Decidable False)

set_option maxRecDepth 20000 in
theorem fills_told {context : BrokerContext} {event : BrokerEvent} (fills : event.Fills context) :
    event.Told context := by
  cases event with
  | expiry | elsewhere => trivial
  | came frame io =>
      rintro request isRequest ⟨asks, _, _, _, -, -, long⟩
      rcases fills with ⟨rfl | rfl, few⟩
      · cases isRequest
        change 2 ^ 15 ≤ 1 + 1 + (toStringBytes context.groups.nextMemberId).length at long
        omega
      · cases isRequest
        have joins : ApiKey.produce.number = ApiKey.joinGroup.number := asks.1
        exact absurd joins (by decide)

/-- With a group and a stored record, a sync that is cut short is refused, and the broker
is the same. -/
theorem refusals_leave_no_trace_cut :
    ∃ (started context : BrokerContext) (request : RequestContext) (failure : Error), started.groups = {} ∧
      GuardedRun.Reaches BrokerEvent.step (fun context event => event.Told context) started context ∧
      context.groups.hasMember [103] [99, 45, 49] = true ∧
      (context.logs.get ⟨[116], 0⟩).map Log.logEndOffset = some 1 ∧
      requestIn (encodeRequestHeader { apiKey := ApiKey.syncGroup.number } ++ [0, 1]) {} context = some request ∧
      dispatch request = some (.error failure, context) := by
  rcases (⟨_, rfl⟩ : ∃ log, Log.create ⟨[116], 0⟩ "t-0" twoBatchConfig = .ok log) with ⟨log, made⟩
  have ran : ((Log.create ⟨[116], 0⟩ "t-0" twoBatchConfig).toOption.bind fun log =>
      (GuardedRun.runAll BrokerEvent.step (fun context event => event.Fills context)
        [.came memberFrame {}, .came storeFrame {}]
        { freshBroker with logs := { dataDir := "data", defaults := {}, logs := [(log.tp, log)] } }).map fun context =>
          decide (context.groups.hasMember [103] [99, 45, 49] = true ∧
            (context.logs.get ⟨[116], 0⟩).map Log.logEndOffset = some 1)) = some true := by
    decide +kernel
  simp only [made, Except.toOption, Option.bind_some] at ran
  rcases GuardedRun.found_by_run BrokerEvent.step (fun context event => event.Fills context) _ _ _ ran with
    ⟨context, filled, checked⟩
  rcases of_decide_eq_true checked with ⟨member, stored⟩
  have reached := filled.mono _ _ fun _ _ fills => fills_told fills
  obtain ⟨request, isRequest⟩ : ∃ request,
      requestIn (encodeRequestHeader { apiKey := ApiKey.syncGroup.number } ++ [0, 1]) {} context = some request :=
    ⟨_, rfl⟩
  have told : ¬ UntoldJoin request := by
    cases isRequest
    intro untold
    have joins : ApiKey.syncGroup.number = ApiKey.joinGroup.number := untold.1.1
    exact absurd joins (by decide)
  have without := (refusals_leave_no_trace rfl reached isRequest).mpr told
  obtain ⟨failure, after, threw⟩ : ∃ failure after, dispatch request = some (.error failure, after) := by
    cases isRequest
    exact ⟨_, _, rfl⟩
  have same := without failure after threw
  rw [request_in_broker isRequest] at same
  exact ⟨_, context, request, failure, rfl, reached, member, stored, isRequest, same ▸ threw⟩

end DariyaKyu.Server

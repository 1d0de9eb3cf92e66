import DariyaKyu.Server.Handlers
import DariyaKyu.Storage.OpenRanges

/-!
How a handler ends. What it answers only extends what was there, by pieces that
can be sent whole; and it has no outcome exactly when one of its entries, in the
broker as the entries in front left it, goes to an active segment that is gone.
-/

namespace DariyaKyu.Server

set_option autoImplicit false

open Storage Protocol Groups StatefulLoop

def handlerOf : ApiKey → Handler
  | .produce => RequestContext.handleProduce
  | .fetch => RequestContext.handleFetch
  | .listOffsets => RequestContext.handleListOffsets
  | .metadata => RequestContext.handleMetadata
  | .offsetCommit => RequestContext.handleOffsetCommit
  | .offsetFetch => RequestContext.handleOffsetFetch
  | .findCoordinator => RequestContext.handleFindCoordinator
  | .joinGroup => RequestContext.handleJoinGroup
  | .heartbeat => RequestContext.handleHeartbeat
  | .leaveGroup => RequestContext.handleLeaveGroup
  | .syncGroup => RequestContext.handleSyncGroup
  | .createTopic => RequestContext.handleCreateTopic

def RequestHeader.Asks (header : RequestHeader) (key : ApiKey) : Prop :=
  header.apiKey = key.number ∧ header.apiVersion = 0

theorem key_number_injective {first second : ApiKey} (same : first.number = second.number) :
    first = second := by
  cases first <;> cases second <;> first | rfl | exact absurd same (by decide)

theorem handler_for_asked {header : RequestHeader} {key : ApiKey} (asks : RequestHeader.Asks header key) :
    handlerFor header = some (handlerOf key) := by
  obtain ⟨number, version⟩ := asks
  unfold handlerFor
  rw [number, version]
  cases key <;> rfl

theorem handler_for_cases {header : RequestHeader} {handler : Handler}
    (found : handlerFor header = some handler) :
    ∃ key, RequestHeader.Asks header key ∧ handler = handlerOf key := by
  obtain ⟨entry, isFound, rfl⟩ := Option.map_eq_some_iff.mp found
  have asked := List.find?_some isFound
  have member := List.mem_of_find?_eq_some isFound
  simp only [Bool.and_eq_true, beq_iff_eq] at asked
  have registered : entry.1.2 = 0 ∧ entry.2 = handlerOf entry.1.1 := by
    simp only [registeredHandlers, List.mem_cons, List.not_mem_nil, or_false] at member
    rcases member with rfl | rfl | rfl | rfl | rfl | rfl | rfl | rfl | rfl | rfl | rfl | rfl <;>
      exact ⟨rfl, rfl⟩
  exact ⟨entry.1.1, ⟨asked.1.symm, asked.2.symm.trans registered.1⟩, registered.2⟩

section Decoding

variable {Request : Type} {request : RequestContext} {decode : Decoder Request} {handle : Request → Handled}
  {out : Response}

theorem decoding_ended {result : Except Error Response} {after : BrokerContext}
    (ended : request.decoding decode handle = some (result, after)) :
    (∃ failure, result = .error failure ∧ after = request.broker) ∨
      ∃ decoded rest, decode request.body = .ok (decoded, rest) ∧ handle decoded = some (result, after) := by
  unfold RequestContext.decoding at ended
  split at ended
  · next failure _ =>
    cases ended
    exact .inl ⟨failure, rfl, rfl⟩
  · next decoded rest isDecoded => exact .inr ⟨decoded, rest, isDecoded, ended⟩

theorem decoding_none_iff : request.decoding decode handle = none ↔
    ∃ decoded rest, decode request.body = .ok (decoded, rest) ∧ handle decoded = none := by
  unfold RequestContext.decoding
  cases decode request.body with
  | error failure => simp
  | ok decoded =>
      obtain ⟨decoded, rest⟩ := decoded
      simp

def Grows (out : Response) (handled : Handled) : Prop :=
  ∀ response after, handled = some (.ok response, after) → GrownFrom out response

theorem decoding_grows (each : ∀ decoded rest, decode request.body = .ok (decoded, rest) → Grows out (handle decoded)) :
    Grows out (request.decoding decode handle) := by
  intro response after ended
  rcases decoding_ended ended with ⟨failure, threw, _⟩ | ⟨decoded, rest, isDecoded, handled⟩
  · cases threw
  · exact each decoded rest isDecoded response after handled

theorem reply_grows (encoded : Except Error Bytes) (context : BrokerContext) :
    Grows out (reply out encoded context) := by
  intro response after ended
  cases encoded with
  | error failure => cases ended
  | ok written =>
      cases ended
      exact grown_append out written

theorem bind_grows {Given : Type} {first : Option Given} {next : Given → Handled}
    (each : ∀ given, first = some given → Grows out (next given)) : Grows out (first >>= next) := by
  intro response after ended
  obtain ⟨given, isGiven, ended⟩ := Option.bind_eq_some_iff.mp ended
  exact each given isGiven response after ended

end Decoding

section Loops

variable {Asked Answer : Type} {answer : Bytes → Asked → BrokerContext → Option (Answer × BrokerContext)}
  {topics : List (TopicOf Asked)} {answers : List (TopicOf Answer)} {context after : BrokerContext}

/-- The loops come to an entry of which this holds, in the broker they find then. -/
def ComesTo (answer : Bytes → Asked → BrokerContext → Option (Answer × BrokerContext))
    (topics : List (TopicOf Asked)) (context : BrokerContext) (needs : Bytes → Asked → BrokerContext → Prop) : Prop :=
  ∃ topic between asked found, Visits (answerTopic answer) topics context topic between ∧
    Visits (answer topic.name) topic.partitions between asked found ∧ needs topic.name asked found

theorem answer_topics_none_iff {needs : Bytes → Asked → BrokerContext → Prop}
    (stuck : ∀ name asked found, answer name asked found = none ↔ needs name asked found) :
    answerTopics answer topics context = none ↔ ComesTo answer topics context needs := by
  have one_topic : ∀ topic between, answerTopic answer topic between = none ↔
      ∃ asked found, Visits (answer topic.name) topic.partitions between asked found ∧
        needs topic.name asked found := by
    intro topic between
    have ends : answerTopic answer topic between = none ↔
        eachOf (answer topic.name) topic.partitions between = none := by
      simp only [answerTopic, Option.bind_eq_bind]
      cases eachOf (answer topic.name) topic.partitions between <;> simp
    rw [ends, each_of_none_iff]
    simp only [stuck]
  unfold answerTopics ComesTo
  rw [each_of_none_iff]
  constructor
  · rintro ⟨topic, between, visits, none⟩
    obtain ⟨asked, found, inside, needed⟩ := (one_topic topic between).mp none
    exact ⟨topic, between, asked, found, visits, inside, needed⟩
  · rintro ⟨topic, between, asked, found, visits, inside, needed⟩
    exact ⟨topic, between, visits, (one_topic topic between).mpr ⟨asked, found, inside, needed⟩⟩

theorem answer_topics_answers {matching : Answer → Prop}
    (each : ∀ name asked found given next, answer name asked found = some (given, next) → matching given)
    (done : answerTopics answer topics context = some (answers, after)) :
    List.Forall₂ (fun topic given => given.name = topic.name ∧ ∀ partition ∈ given.partitions, matching partition)
      topics answers := by
  apply each_of_answers ?_ done
  intro topic _ between given next answered
  obtain ⟨⟨partitions, last⟩, inside, made⟩ := Option.bind_eq_some_iff.mp answered
  cases made
  refine ⟨rfl, each_of_forall ?_ inside⟩
  intro asked _ found given next one
  exact each topic.name asked found given next one

theorem besides_names (io : RequestIo) (topics : List (TopicOf Asked)) :
    (io.besides topics).map (·.name) = topics.map (·.name) := by
  apply List.ext_getElem?
  intro index
  simp only [RequestIo.besides, List.getElem?_map, List.getElem?_mapIdx, Option.map_map]
  rfl

theorem answer_topics_keeps {holds : BrokerContext → Prop} (initial : holds context)
    (kept : ∀ name asked found given next, holds found → answer name asked found = some (given, next) → holds next)
    (done : answerTopics answer topics context = some (answers, after)) : holds after := by
  apply each_of_keeps initial ?_ done
  intro topic _ between given next before answered
  obtain ⟨⟨partitions, last⟩, inside, made⟩ := Option.bind_eq_some_iff.mp answered
  cases made
  exact each_of_keeps before (fun asked _ found given next now one => kept _ asked found given next now one) inside

end Loops

section Growing

variable {request : RequestContext} {out : Response}

theorem read_in_file {log : Log} {offset : Int} {maxBytes : Nat} {result : ReadResult}
    (answered : log.read offset maxBytes = .ok result) :
    result.range.length = 0 ∨
      result.range.position + result.range.length ≤ (BrokerContext.fileOf log offset).size := by
  unfold Log.read at answered
  unfold BrokerContext.fileOf Log.owner
  split at answered
  · cases answered
    exact .inl rfl
  split at answered
  · cases answered
    exact .inl rfl
  split at answered
  · next inActive =>
    obtain ⟨range, read, made⟩ := except_bind_ok answered
    cases Except.ok.inj made
    rw [if_pos inActive]
    exact .inr (read_inside read).2
  · next inSealed =>
    rw [if_neg inSealed]
    split at answered
    · cases answered
      exact .inl rfl
    · next segment routed =>
      obtain ⟨range, read, made⟩ := except_bind_ok answered
      cases Except.ok.inj made
      rw [routed]
      exact .inr (read_inside read).2

theorem fetch_partition_covered {topic : Bytes} {asked : FetchAsked} {context after : BrokerContext}
    {fetched : FetchedPartition} (answered : context.fetchPartition topic asked = some (fetched, after)) :
    fetched.Covered := by
  simp only [BrokerContext.fetchPartition] at answered
  split at answered
  · cases answered
    exact .inl rfl
  · next log _ =>
    obtain ⟨start, _, answered⟩ := Option.bind_eq_some_iff.mp answered
    obtain ⟨read, isRead, made⟩ := Option.bind_eq_some_iff.mp answered
    cases made
    unfold BrokerContext.read at isRead
    split at isRead
    · cases isRead
    · cases isRead
      unfold FetchedPartition.Covered fetchAnswer
      cases answered : log.read asked.fetchOffset asked.maxBytes with
      | error failure => exact .inl rfl
      | ok result =>
          simp only
          split
          · exact read_in_file answered
          · exact .inl rfl

theorem answer_topics_forall {Asked Answer : Type}
    {answer : Bytes → Asked → BrokerContext → Option (Answer × BrokerContext)} {topics : List (TopicOf Asked)}
    {answers : List (TopicOf Answer)} {context after : BrokerContext} {holds : Answer → Prop}
    (each : ∀ name asked found given next, answer name asked found = some (given, next) → holds given)
    (done : answerTopics answer topics context = some (answers, after)) :
    ∀ topic ∈ answers, ∀ given ∈ topic.partitions, holds given := by
  refine each_of_forall ?_ done
  intro topic _ between given next answered
  obtain ⟨⟨partitions, last⟩, inside, made⟩ := Option.bind_eq_some_iff.mp answered
  cases made
  exact each_of_forall (fun asked _ found given next one => each topic.name asked found given next one) inside

theorem handle_fetch_grows : Grows out (request.handleFetch out) := by
  apply decoding_grows
  intro decoded rest _
  apply bind_grows
  rintro ⟨topics, context⟩ answered response after ended
  have encoded : encodeFetchResponse out topics = .ok response := congrArg Prod.fst (Option.some.inj ended)
  apply encode_fetch_grown ?_ encoded
  refine answer_topics_forall ?_ answered
  intro name asked found given next one
  exact fetch_partition_covered one

theorem handler_grows (key : ApiKey) (request : RequestContext) (out : Response) :
    Grows out (handlerOf key request out) := by
  cases key with
  | fetch => exact handle_fetch_grows
  | listOffsets => exact decoding_grows fun _ _ _ => bind_grows fun _ _ => reply_grows _ _
  | metadata => exact decoding_grows fun _ _ _ => reply_grows _ _
  | createTopic => exact decoding_grows fun _ _ _ => reply_grows _ _
  | produce => exact decoding_grows fun _ _ _ => bind_grows fun _ _ => reply_grows _ _
  | findCoordinator => exact decoding_grows fun _ _ _ => reply_grows _ _
  | joinGroup => exact decoding_grows fun _ _ _ => reply_grows _ _
  | syncGroup => exact decoding_grows fun _ _ _ => reply_grows _ _
  | heartbeat => exact decoding_grows fun _ _ _ => reply_grows _ _
  | leaveGroup => exact decoding_grows fun _ _ _ => reply_grows _ _
  | offsetCommit => exact decoding_grows fun _ _ _ => bind_grows fun _ _ => reply_grows _ _
  | offsetFetch => exact decoding_grows fun _ _ _ => bind_grows fun _ _ => reply_grows _ _

end Growing

namespace BrokerContext

variable (context : BrokerContext) (topic : Bytes)

/-- The earliest offset of a log without sealed segments is its active segment's. -/
def ListsLost (asked : ListOffsetsAsked) : Prop :=
  ∃ log, context.logs.get ⟨topic, asked.partition⟩ = some log ∧ asked.timestamp = kEarliestTimestamp ∧
    ⟨topic, asked.partition⟩ ∈ context.lost ∧ log.sealedMap = []

/-- A fetch asks for that as well, and a read below the end looks at the active segment first. -/
def FetchesLost (asked : FetchAsked) : Prop :=
  ∃ log, context.logs.get ⟨topic, asked.partition⟩ = some log ∧ ⟨topic, asked.partition⟩ ∈ context.lost ∧
    (log.sealedMap = [] ∨ asked.fetchOffset < log.logEndOffset)

def ProducesLost (frame : Bytes) (asked : ProduceAsked × CommitIo) : Prop :=
  ∃ log batch, context.logs.get ⟨topic, asked.1.partition⟩ = some log ∧ mutableBatch asked.1 frame = .ok batch ∧
    ⟨topic, asked.1.partition⟩ ∈ context.lost ∧ verifyCrc batch = .ok true

def CommitsLost (groupId : Bytes) (membership : ErrorCode) (asked : AskedPartition × CommitIo) : Prop :=
  membership = .none ∧ ∃ tp ∈ context.lost, context.commitTarget groupId topic asked = some tp

variable {context topic}

theorem list_partition_none_iff {asked : ListOffsetsAsked} :
    context.listPartition topic asked = none ↔ context.ListsLost topic asked := by
  simp only [listPartition, ListsLost]
  cases context.logs.get ⟨topic, asked.partition⟩ with
  | none => simp
  | some log =>
      by_cases earliest : asked.timestamp = kEarliestTimestamp
      · simp [earliest, logStartOffset]
      · simp only [earliest, if_false, false_and, and_false, exists_false, iff_false]
        split <;> simp

theorem fetch_partition_none_iff {asked : FetchAsked} :
    context.fetchPartition topic asked = none ↔ context.FetchesLost topic asked := by
  simp only [fetchPartition, FetchesLost]
  cases context.logs.get ⟨topic, asked.partition⟩ with
  | none => simp
  | some log =>
      by_cases lost : (⟨topic, asked.partition⟩ : TopicPartition) ∈ context.lost
      · by_cases empty : log.sealedMap = []
        · simp [lost, empty, logStartOffset]
        · by_cases below : asked.fetchOffset < log.logEndOffset
          · simp [lost, empty, below, logStartOffset, read]
          · simp [lost, empty, below, logStartOffset, read]
      · simp [lost, logStartOffset, read]

theorem produce_partition_none_iff {frame : Bytes} {asked : ProduceAsked × CommitIo} :
    context.producePartition frame topic asked = none ↔ context.ProducesLost topic frame asked := by
  simp only [producePartition, ProducesLost]
  cases context.logs.get ⟨topic, asked.1.partition⟩ with
  | none => simp
  | some log =>
      cases mutableBatch asked.1 frame with
      | error failure => simp
      | ok batch =>
          have intact : (verifyCrc batch).toOption = some true ↔ verifyCrc batch = .ok true := by
            cases verifyCrc batch <;> simp [Except.toOption]
          simp [intact]

theorem commit_partition_none_iff {groupId : Bytes} {membership : ErrorCode} {asked : AskedPartition × CommitIo} :
    context.commitPartition groupId membership topic asked = none ↔
      context.CommitsLost topic groupId membership asked := by
  simp only [commitPartition, CommitsLost]
  by_cases refused : membership = .none
  · simp only [refused, ne_eq, not_true_eq_false, if_false, true_and]
    cases context.commitTarget groupId topic asked with
    | none =>
        simp only [Option.any_none, Bool.false_eq_true, if_false, reduceCtorEq, and_false, exists_false, iff_false]
        split <;> simp
    | some tp =>
        by_cases lost : tp ∈ context.lost
        · simp [lost]
        · have elsewhere : ¬ ∃ other ∈ context.lost, some tp = some other := by simp [lost]
          simp only [Option.any_some, lost, decide_false, Bool.false_eq_true, if_false, elsewhere, iff_false]
          split <;> simp
  · simp [refused]

theorem fetch_offset_answers (groupId topic : Bytes) (partition : Int) (context : BrokerContext) :
    context.fetchOffset groupId topic partition ≠ none := by
  simp only [fetchOffset]
  split <;> simp

end BrokerContext

/-- The handler under a key comes to an entry for which it goes to the active
segment of a log that has none. -/
def RequestContext.HandlerMeetsLost (request : RequestContext) : ApiKey → Prop
  | .listOffsets => ∃ decoded rest, decodeListOffsetsRequest request.body = .ok (decoded, rest) ∧
      ComesTo BrokerContext.listPartition decoded.topics request.broker
        fun topic asked found => found.ListsLost topic asked
  | .fetch => ∃ decoded rest, decodeFetchRequest request.body = .ok (decoded, rest) ∧
      ComesTo BrokerContext.fetchPartition decoded.topics request.broker
        fun topic asked found => found.FetchesLost topic asked
  | .produce => ∃ decoded rest, decodeProduceRequest request.body = .ok (decoded, rest) ∧
      ComesTo (BrokerContext.producePartition request.frame) (request.io.besides decoded.topics) request.broker
        fun topic asked found => found.ProducesLost topic request.frame asked
  | .offsetCommit => ∃ decoded rest, decodeOffsetCommitRequest request.body = .ok (decoded, rest) ∧
      let (checked, membership) := request.broker.toBroker.checkMembership decoded request.io.nowMs
      ComesTo (BrokerContext.commitPartition decoded.groupId membership)
        (request.io.besides (decoded.topics.map fun topic => ⟨topic.name, topic.partitions⟩))
        { request.broker with toBroker := checked }
        fun topic asked found => found.CommitsLost topic decoded.groupId membership asked
  | _ => False

def RequestContext.MeetsLost (request : RequestContext) : Prop :=
  ∃ key, RequestHeader.Asks request.header key ∧ request.HandlerMeetsLost key

section Stuck

variable {request : RequestContext} {out : Response}

theorem reply_answers (encoded : Except Error Bytes) (context : BrokerContext) :
    reply out encoded context ≠ none := Option.some_ne_none _

theorem bind_none_iff {Given : Type} {first : Option Given} {next : Given → Handled}
    (answers : ∀ given, next given ≠ none) : first >>= next = none ↔ first = none := by
  cases first with
  | none => exact iff_of_true rfl rfl
  | some given => exact iff_of_false (answers given) (Option.some_ne_none given)

theorem decoding_answers {Request : Type} {decode : Decoder Request} {handle : Request → Handled}
    (answers : ∀ decoded, handle decoded ≠ none) : request.decoding decode handle ≠ none := by
  rw [Ne, decoding_none_iff]
  rintro ⟨decoded, rest, _, none⟩
  exact answers decoded none

theorem handle_list_offsets_none_iff :
    request.handleListOffsets out = none ↔ request.HandlerMeetsLost .listOffsets := by
  rw [RequestContext.handleListOffsets, decoding_none_iff]
  simp only [bind_none_iff fun _ => reply_answers _ _]
  rw [RequestContext.HandlerMeetsLost]
  simp only [answer_topics_none_iff fun _ _ _ => BrokerContext.list_partition_none_iff]

theorem handle_fetch_none_iff : request.handleFetch out = none ↔ request.HandlerMeetsLost .fetch := by
  rw [RequestContext.handleFetch, decoding_none_iff]
  simp only [Option.pure_def, bind_none_iff fun _ => Option.some_ne_none _]
  rw [RequestContext.HandlerMeetsLost]
  simp only [answer_topics_none_iff fun _ _ _ => BrokerContext.fetch_partition_none_iff]

theorem handle_produce_none_iff : request.handleProduce out = none ↔ request.HandlerMeetsLost .produce := by
  rw [RequestContext.handleProduce, decoding_none_iff]
  simp only [bind_none_iff fun _ => reply_answers _ _]
  rw [RequestContext.HandlerMeetsLost]
  simp only [answer_topics_none_iff fun _ _ _ => BrokerContext.produce_partition_none_iff]

theorem handle_offset_commit_none_iff :
    request.handleOffsetCommit out = none ↔ request.HandlerMeetsLost .offsetCommit := by
  rw [RequestContext.handleOffsetCommit, decoding_none_iff]
  simp only [bind_none_iff fun _ => reply_answers _ _]
  rw [RequestContext.HandlerMeetsLost]
  simp only [answer_topics_none_iff fun _ _ _ => BrokerContext.commit_partition_none_iff]

theorem handle_offset_fetch_answers : request.handleOffsetFetch out ≠ none := by
  apply decoding_answers
  intro decoded
  have stuck : ∀ name asked found, BrokerContext.fetchOffset decoded.groupId name asked found = none ↔ False :=
    fun name asked found => iff_of_false (BrokerContext.fetch_offset_answers _ name asked found) id
  rw [Ne, bind_none_iff fun _ => reply_answers _ _, answer_topics_none_iff stuck]
  rintro ⟨_, _, _, _, _, _, never⟩
  exact never

theorem handler_none_iff (key : ApiKey) : handlerOf key request out = none ↔ request.HandlerMeetsLost key := by
  have answers : ∀ handled : Handled, handled ≠ none → (handled = none ↔ False) :=
    fun _ given => iff_of_false given id
  cases key with
  | listOffsets => exact handle_list_offsets_none_iff
  | fetch => exact handle_fetch_none_iff
  | produce => exact handle_produce_none_iff
  | offsetCommit => exact handle_offset_commit_none_iff
  | offsetFetch => exact answers _ handle_offset_fetch_answers
  | metadata => exact answers _ (decoding_answers fun _ => reply_answers _ _)
  | createTopic => exact answers _ (decoding_answers fun _ => reply_answers _ _)
  | findCoordinator => exact answers _ (decoding_answers fun _ => reply_answers _ _)
  | joinGroup => exact answers _ (decoding_answers fun _ => reply_answers _ _)
  | syncGroup => exact answers _ (decoding_answers fun _ => reply_answers _ _)
  | heartbeat => exact answers _ (decoding_answers fun _ => reply_answers _ _)
  | leaveGroup => exact answers _ (decoding_answers fun _ => reply_answers _ _)

/-- A request stops the process exactly when it meets a lost segment. -/
theorem dispatch_none_iff : dispatch request = none ↔ request.MeetsLost := by
  unfold dispatch
  split
  · next unserved =>
    refine iff_of_false (Option.some_ne_none _) ?_
    rintro ⟨key, asks, _⟩
    rw [handler_for_asked asks] at unserved
    cases unserved
  · next handler served =>
    obtain ⟨key, asks, rfl⟩ := handler_for_cases served
    rw [handler_none_iff]
    constructor
    · exact fun meets => ⟨key, asks, meets⟩
    · rintro ⟨other, asksOther, meets⟩
      rwa [key_number_injective (asks.1.symm.trans asksOther.1)]

end Stuck

end DariyaKyu.Server

import DariyaKyu.Server.FrameStamps
import DariyaKyu.Server.HandlerOutcomes

/-!
The entries of a Produce request one after the other, on one frame. They lie
apart in it, so every entry finds what the client sent for it, and what an entry
left, in the frame and in its log, is there behind the last one.
-/

namespace DariyaKyu.Server

set_option autoImplicit false

open Storage Protocol StatefulLoop

section Entries

variable {state final : Stamping} {entries : List (Bytes × (ProduceAsked × CommitIo))}
  {answers : List ProducedPartition}

theorem LogsKept.keyed {before after : LogManager} (kept : LogsKept before after)
    (keyed : ∀ tp log, before.get tp = some log → log.Keyed) :
    ∀ tp log, after.get tp = some log → log.Keyed := by
  intro tp log hosted
  have was : (before.get tp).isSome = true := by
    rw [← (kept tp).1, hosted]
    rfl
  obtain ⟨old, wasHosted⟩ := Option.isSome_iff_exists.mp was
  obtain ⟨found, isFound, foundKeyed, _⟩ := (kept tp).2 old wasHosted (keyed tp old wasHosted)
  rw [hosted] at isFound
  cases isFound
  exact foundKeyed

theorem Appends.long {context : BrokerContext} {topic : Bytes} {asked : ProduceAsked}
    (appends : Appends context topic asked) : kBatchHeaderSize ≤ asked.batch.length := by
  obtain ⟨header, parsed, _⟩ := except_bind_ok appends.2
  exact (parse_header_ok parsed).1

structure EntryLeft (before : BrokerContext) (final : Stamping) (topic : Bytes) (asked : ProduceAsked)
    (answer : ProducedPartition) : Prop where
  partition : answer.partition = asked.partition
  left : LeftOf before topic asked (window final.frame asked.batchOffsetInBody asked.batch.length)
  stored : answer.error = .none →
    window final.frame asked.batchOffsetInBody asked.batch.length =
      stamped asked.batch answer.baseOffset ∧
      verifyCrc (stamped asked.batch answer.baseOffset) = .ok true ∧
      ∃ log, final.context.logs.get ⟨topic, asked.partition⟩ = some log ∧
        log.Stores (stamped asked.batch answer.baseOffset)

def Separate (entries : List (Bytes × (ProduceAsked × CommitIo))) : Prop :=
  entries.Pairwise fun earlier later =>
    earlier.2.1.batchOffsetInBody + earlier.2.1.batch.length ≤ later.2.1.batchOffsetInBody

/-- The frame changed only where one of the entries put its stamp. -/
def ChangedBy (context : BrokerContext) (entries : List (Bytes × (ProduceAsked × CommitIo)))
    (before after : Bytes) : Prop :=
  ∀ place, after[place]? ≠ before[place]? → ∃ entry ∈ entries, Appends context entry.1 entry.2.1 ∧
    entry.2.1.batchOffsetInBody ≤ place ∧ place < entry.2.1.batchOffsetInBody + 8

theorem finds_behind {before after : Bytes} {context : BrokerContext} {asked : ProduceAsked}
    (finds : Finds before asked) (size : after.length = before.length)
    (changed : ChangedBy context entries before after)
    (ahead : ∀ entry ∈ entries,
        entry.2.1.batchOffsetInBody + entry.2.1.batch.length ≤ asked.batchOffsetInBody) :
    Finds after asked := by
  refine ⟨by rw [size]; exact finds.inside, Eq.trans (window_congr ?_) finds.holds⟩
  intro place lower upper
  by_contra differs
  obtain ⟨entry, member, appends, _, below⟩ := changed place differs
  have long := appends.long
  have apart := ahead entry member
  unfold kBatchHeaderSize at long
  omega

/-- Entries one behind the other: each stamps inside its own bytes, so that the
later ones find theirs. -/
theorem entries_change (separate : Separate entries)
    (finds : ∀ entry ∈ entries, Finds state.frame entry.2.1)
    (done : eachOf (fun entry => produceInFrame entry.1 entry.2) entries state =
      some (answers, final)) :
    final.frame.length = state.frame.length ∧ ChangedBy state.context entries state.frame final.frame ∧
      LogsKept state.context.logs final.context.logs := by
  induction entries generalizing state answers with
  | nil =>
      cases done
      exact ⟨rfl, fun place differs => absurd rfl differs, .refl _⟩
  | cons entry rest ih =>
      obtain ⟨answer, next, others, produced, later, rfl⟩ := each_of_cons done
      obtain ⟨behind, separateRest⟩ := List.pairwise_cons.mp separate
      obtain ⟨findsFirst, findsRest⟩ := List.forall_mem_cons.mp finds
      have first := produce_entry_done findsFirst produced
      have firstChanged : ChangedBy state.context [entry] state.frame next.frame :=
        fun place differs => ⟨entry, List.mem_singleton_self _, first.outside place differs⟩
      obtain ⟨size, outside, logs⟩ := ih separateRest
        (fun other member => finds_behind (findsRest other member) first.size firstChanged
          (by simpa using behind other member)) later
      refine ⟨size.trans first.size, ?_, first.logs.trans logs⟩
      intro place differs
      by_cases already : next.frame[place]? = state.frame[place]?
      · rw [← already] at differs
        obtain ⟨other, member, appends, above, below⟩ := outside place differs
        refine ⟨other, List.mem_cons_of_mem _ member, ⟨?_, appends.2⟩, above, below⟩
        rw [← (first.logs _).1]
        exact appends.1
      · exact ⟨entry, List.mem_cons_self, first.outside place already⟩

theorem entries_left (separate : Separate entries)
    (finds : ∀ entry ∈ entries, Finds state.frame entry.2.1)
    (keyed : ∀ tp log, state.context.logs.get tp = some log → log.Keyed)
    (done : eachOf (fun entry => produceInFrame entry.1 entry.2) entries state =
      some (answers, final)) :
    List.Forall₂ (fun entry answer =>
      EntryLeft state.context final entry.1 entry.2.1 answer) entries answers := by
  induction entries generalizing state answers with
  | nil =>
      cases done
      exact .nil
  | cons entry rest ih =>
      obtain ⟨answer, next, others, produced, later, rfl⟩ := each_of_cons done
      obtain ⟨behind, separateRest⟩ := List.pairwise_cons.mp separate
      obtain ⟨findsFirst, findsRest⟩ := List.forall_mem_cons.mp finds
      have first := produce_entry_done findsFirst produced
      have firstChanged : ChangedBy state.context [entry] state.frame next.frame :=
        fun place differs => ⟨entry, List.mem_singleton_self _, first.outside place differs⟩
      have restFinds : ∀ other ∈ rest, Finds next.frame other.2.1 := fun other member =>
        finds_behind (findsRest other member) first.size firstChanged (by simpa using behind other member)
      obtain ⟨_, outside, logs⟩ := entries_change separateRest restFinds later
      have same : window final.frame entry.2.1.batchOffsetInBody entry.2.1.batch.length =
          window next.frame entry.2.1.batchOffsetInBody entry.2.1.batch.length := by
        apply window_congr
        intro place lower upper
        by_contra differs
        obtain ⟨other, member, _, above, _⟩ := outside place differs
        have apart := behind other member
        omega
      have lefts := ih separateRest restFinds (first.logs.keyed keyed) later
      refine .cons ⟨first.partition, ?_, ?_⟩ (lefts.imp fun other given left =>
        ⟨left.partition, left.left.imp_right fun made => ⟨⟨?_, made.1.2⟩, made.2⟩, left.stored⟩)
      · rw [same]
        exact first.left
      · intro none
        obtain ⟨stamp, checked, log, hosted, stores⟩ := first.stored none
        obtain ⟨kept, isKept, _, moved⟩ := (logs _).2 log hosted (first.logs.keyed keyed _ log hosted)
        exact ⟨same.trans stamp, checked, kept, isKept, moved _ stores⟩
      · rw [← (first.logs _).1]
        exact made.1.1

end Entries

section Topics

variable {Asked Answer State : Type} {answer : Bytes → Asked → State → Option (Answer × State)}

/-- The entries of all topics, one behind the other, each under its topic's name. -/
def entriesOf (topics : List (TopicOf Asked)) : List (Bytes × Asked) :=
  topics.flatMap fun topic => topic.partitions.map fun asked => (topic.name, asked)

theorem answer_topics_flat {topics : List (TopicOf Asked)} {answers : List (TopicOf Answer)}
    {state final : State}
    (done : answerTopics answer topics state = some (answers, final)) :
    eachOf (fun entry => answer entry.1 entry.2) (entriesOf topics) state =
        some ((entriesOf answers).map (·.2), final) ∧
      answers.map (·.name) = topics.map (·.name) := by
  induction topics generalizing state answers with
  | nil =>
      cases done
      exact ⟨rfl, rfl⟩
  | cons topic rest ih =>
      obtain ⟨given, next, others, answered, later, rfl⟩ := each_of_cons done
      obtain ⟨⟨partitions, last⟩, inside, made⟩ := Option.bind_eq_some_iff.mp answered
      cases made
      obtain ⟨flat, names⟩ := ih later
      refine ⟨?_, by simp only [List.map_cons, names]⟩
      have front : eachOf (fun entry : Bytes × Asked => answer entry.1 entry.2)
          (topic.partitions.map fun asked => (topic.name, asked)) state = some (partitions, next) := by
        rw [each_of_map]
        exact inside
      have whole := each_of_append front flat
      simp only [entriesOf, List.flatMap_cons, List.map_append, List.map_map] at whole ⊢
      rw [whole]
      simp

theorem entries_of_cons (topic : TopicOf Asked) (rest : List (TopicOf Asked)) :
    entriesOf (topic :: rest) =
      (topic.partitions.map fun asked => (topic.name, asked)) ++ entriesOf rest := rfl

theorem flat_map_idx {α β γ : Type} {pick : β → List γ} {plain : α → List γ} {place : Nat → α → β}
    (same : ∀ index item, pick (place index item) = plain item) (items : List α) :
    (items.mapIdx place).flatMap pick = items.flatMap plain := by
  induction items generalizing place with
  | nil => rfl
  | cons item rest ih =>
      rw [List.mapIdx_cons, List.flatMap_cons, List.flatMap_cons, same,
        ih fun index => same (index + 1)]

theorem entries_of_besides (io : RequestIo) (topics : List (TopicOf Asked)) :
    (entriesOf (io.besides topics)).map (fun entry => (entry.1, entry.2.1)) = entriesOf topics := by
  unfold entriesOf RequestIo.besides
  rw [List.map_flatMap]
  apply flat_map_idx
  intro place topic
  apply List.ext_getElem?
  intro index
  simp only [List.getElem?_map, List.getElem?_mapIdx, Option.map_map]
  rfl

theorem entries_of_batches (topics : List (TopicOf ProduceAsked)) :
    (entriesOf topics).map (·.2) = topics.flatMap (·.partitions) := by
  simp [entriesOf, List.map_flatMap, Function.comp_def]

end Topics

section Erasing

variable {state : Stamping} {original : Bytes}

/-- Where an entry finds its bytes it does not matter what else is in the frame. -/
theorem produce_partition_congr {first second : Bytes} {asked : ProduceAsked × CommitIo} (topic : Bytes)
    (context : BrokerContext) (inFirst : Finds first asked.1) (inSecond : Finds second asked.1) :
    BrokerContext.producePartition first topic asked context =
      BrokerContext.producePartition second topic asked context := by
  unfold BrokerContext.producePartition
  rw [inFirst.mutable, inSecond.mutable]

/-- The frame does not decide any answer: the loop over the entries goes as it
would on the frame that came in. -/
theorem entries_erase {entries : List (Bytes × (ProduceAsked × CommitIo))} (separate : Separate entries)
    (finds : ∀ entry ∈ entries, Finds state.frame entry.2.1)
    (came : ∀ entry ∈ entries, Finds original entry.2.1) :
    (eachOf (fun entry => produceInFrame entry.1 entry.2) entries state).map
      (fun done => (done.1, done.2.context)) =
      eachOf (fun entry => BrokerContext.producePartition original entry.1 entry.2) entries state.context := by
  induction entries generalizing state with
  | nil => rfl
  | cons entry rest ih =>
      obtain ⟨behind, separateRest⟩ := List.pairwise_cons.mp separate
      obtain ⟨findsFirst, findsRest⟩ := List.forall_mem_cons.mp finds
      obtain ⟨cameFirst, cameRest⟩ := List.forall_mem_cons.mp came
      have same := produce_partition_congr entry.1 state.context findsFirst cameFirst
      simp only [eachOf, Option.bind_eq_bind]
      cases answered : BrokerContext.producePartition state.frame entry.1 entry.2 state.context with
      | none =>
          rw [← same, answered]
          simp [produceInFrame, answered]
      | some given =>
          obtain ⟨answer, context⟩ := given
          obtain ⟨next, produced, left⟩ : ∃ next,
              produceInFrame entry.1 entry.2 state = some (answer, next) ∧
              next.context = context := by
            simp only [produceInFrame, answered, Option.bind_eq_bind, Option.bind_some]
            exact ⟨_, rfl, rfl⟩
          have first := produce_entry_done findsFirst produced
          have changed : ChangedBy state.context [entry] state.frame next.frame :=
            fun place differs => ⟨entry, List.mem_singleton_self _, first.outside place differs⟩
          have later := ih separateRest
            (fun other member => finds_behind (findsRest other member) first.size changed
              (by simpa using behind other member)) cameRest
          rw [← same, answered, produced]
          simp only [Option.bind_some, ← left, ← later]
          cases eachOf (fun entry => produceInFrame entry.1 entry.2) rest next <;> rfl

theorem topics_erase {topics : List (TopicOf (ProduceAsked × CommitIo))}
    (separate : Separate (entriesOf topics))
    (finds : ∀ entry ∈ entriesOf topics, Finds state.frame entry.2.1)
    (came : ∀ entry ∈ entriesOf topics, Finds original entry.2.1) :
    (answerTopics produceInFrame topics state).map (fun done => (done.1, done.2.context)) =
      answerTopics (BrokerContext.producePartition original) topics state.context := by
  induction topics generalizing state with
  | nil => rfl
  | cons topic rest ih =>
      rw [entries_of_cons] at separate finds came
      obtain ⟨separateFirst, separateRest, apart⟩ := List.pairwise_append.mp separate
      obtain ⟨findsFirst, findsRest⟩ := List.forall_mem_append.mp finds
      obtain ⟨cameFirst, cameRest⟩ := List.forall_mem_append.mp came
      have one := @entries_erase state original _ separateFirst findsFirst cameFirst
      rw [each_of_map, each_of_map] at one
      simp only [answerTopics, eachOf, answerTopic, Option.bind_eq_bind]
      cases answered : eachOf (produceInFrame topic.name) topic.partitions state with
      | none =>
          rw [answered] at one
          rw [← one]
          rfl
      | some given =>
          obtain ⟨answers, next⟩ := given
          have inside := answered
          rw [answered] at one
          rw [← one]
          have flat : eachOf (fun entry : Bytes × (ProduceAsked × CommitIo) =>
            produceInFrame entry.1 entry.2)
              (topic.partitions.map fun asked => (topic.name, asked)) state = some (answers, next) := by
            rw [each_of_map]
            exact inside
          obtain ⟨size, changed, _⟩ := entries_change separateFirst findsFirst flat
          have later := @ih next separateRest
            (fun other member => finds_behind (findsRest other member) size changed
              fun entry isFirst => apart entry isFirst other member) cameRest
          simp only [answerTopics] at later
          simp only [Option.pure_def, Option.bind_some, Option.map_some]
          rw [← later]
          cases eachOf (answerTopic produceInFrame) rest next <;> rfl

end Erasing

section Request

variable {request : RequestContext}

theorem request_finds {decoded : ProduceRequest} {rest : BufferReader}
    (header : decodeRequestHeader (.ofBytes request.frame) = .ok (request.header, request.body))
    (isDecoded : decodeProduceRequest request.body = .ok (decoded, rest)) :
    Separate (entriesOf (request.io.besides decoded.topics)) ∧
      ∀ entry ∈ entriesOf (request.io.besides decoded.topics), Finds request.frame entry.2.1 := by
  have laid := decode_produce_laid (decode_header_stands header) isDecoded
  have batches : (entriesOf (request.io.besides decoded.topics)).map (fun entry => entry.2.1) =
      decoded.topics.flatMap (·.partitions) := by
    rw [← entries_of_batches, ← entries_of_besides request.io decoded.topics, List.map_map]
    rfl
  constructor
  · have separate := laid.separate
    rw [← batches, List.pairwise_map] at separate
    exact separate
  · intro entry member
    have present : entry.2.1 ∈ decoded.topics.flatMap (·.partitions) := by
      rw [← batches]
      exact List.mem_map_of_mem member
    exact ⟨laid.upper _ present, laid.holds _ present⟩

/-- The frame behind a Produce request is the one that came, stamped inside the
first eight bytes of batches that were appended. What is answered without an
error is stored as the client sent it, under its stamp, and still checks. -/
theorem produce_stamps_in_place (request : RequestContext) (out : Response)
    (header : decodeRequestHeader (.ofBytes request.frame) = .ok (request.header, request.body))
    (lived : ∀ tp log, request.broker.logs.get tp = some log → log.Lived) :
    (handleProduceInFrame request out).map (·.1) = request.handleProduce out ∧
      ∀ result context frame, handleProduceInFrame request out = some ((result, context), frame) →
        (∃ failure, decodeProduceRequest request.body = .error failure ∧ frame = request.frame) ∨
          ∃ decoded rest answers, decodeProduceRequest request.body = .ok (decoded, rest) ∧
            result = (encodeProduceResponse answers).map out.append ∧
            answers.map (·.name) = decoded.topics.map (·.name) ∧
            frame.length = request.frame.length ∧
            (∀ place, frame[place]? ≠ request.frame[place]? → ∃ entry ∈ entriesOf decoded.topics,
              Appends request.broker entry.1 entry.2 ∧ entry.2.batchOffsetInBody ≤ place ∧
                place < entry.2.batchOffsetInBody + 8) ∧
            (∀ entry ∈ entriesOf decoded.topics,
              window request.frame entry.2.batchOffsetInBody entry.2.batch.length = entry.2.batch) ∧
            List.Forall₂ (fun entry answer =>
                EntryLeft request.broker ⟨frame, context⟩ entry.1 entry.2 answer.2)
              (entriesOf decoded.topics) (entriesOf answers) := by
  unfold handleProduceInFrame RequestContext.handleProduce RequestContext.decoding
  cases isDecoded : decodeProduceRequest request.body with
  | error failure =>
      refine ⟨rfl, ?_⟩
      intro result context frame done
      cases done
      exact .inl ⟨failure, rfl, rfl⟩
  | ok given =>
      obtain ⟨decoded, rest⟩ := given
      obtain ⟨separate, finds⟩ := request_finds header isDecoded
      constructor
      · have erased :=
          @topics_erase ⟨request.frame, request.broker⟩ request.frame _ separate finds finds
        simp only [Option.bind_eq_bind, ← erased]
        cases answerTopics produceInFrame (request.io.besides decoded.topics)
          ⟨request.frame, request.broker⟩ <;> rfl
      · intro result context frame done
        obtain ⟨⟨answers, final⟩, answered, made⟩ := Option.bind_eq_some_iff.mp done
        cases made
        obtain ⟨flat, names⟩ := answer_topics_flat answered
        obtain ⟨size, changed, _⟩ := entries_change separate finds flat
        have left := entries_left separate finds (fun tp log hosted => (lived tp log hosted).keyed) flat
        have entries := entries_of_besides request.io decoded.topics
        refine .inr ⟨decoded, rest, answers, rfl, rfl, ?_, size, ?_, ?_, ?_⟩
        · rw [names]
          exact besides_names request.io decoded.topics
        · intro place differs
          obtain ⟨entry, member, appends, within⟩ := changed place differs
          refine ⟨(entry.1, entry.2.1), ?_, appends, within⟩
          rw [← entries]
          exact List.mem_map_of_mem member
        · intro entry member
          rw [← entries] at member
          obtain ⟨original, present, rfl⟩ := List.mem_map.mp member
          exact (finds original present).holds
        · rw [← entries, List.forall₂_map_left_iff]
          rw [List.forall₂_map_right_iff] at left
          exact left

end Request

/-- A Produce request that brings one partition the same batch two times. -/
def twiceFrame : Bytes :=
  let entry := writeInt32 0 ++ writeBytes (recordBatchOf 5 none (some [118]))
  encodeRequestHeader
      { apiKey := ApiKey.produce.number, correlationId := 7, clientId := [99] } ++
    writeInt16 1 ++
    writeInt32 1000 ++ writeInt32 1 ++ (writeInt16 1 ++ [116]) ++ writeInt32 2 ++ entry ++ entry

def twiceRequest (log : Log) : Except Error RequestContext := do
  let (header, body) ← decodeRequestHeader (.ofBytes twiceFrame)
  return { header := header, body := body, frame := twiceFrame, io := {}
           broker := {
             logs := { dataDir := "data", defaults := {}, logs := [(⟨[116], 0⟩, log)] }
             offsets := { partitions := 0 }
             groups := {} } }

/-- The second copy is stamped with the offset behind the first, and nothing else is. -/
theorem produce_stamps_in_place_twice :
    ∃ log request context, Log.create ⟨[116], 0⟩ "data/t-0" {} = .ok log ∧
      twiceRequest log = .ok request ∧
      (∃ result, handleProduceInFrame request {} = some ((result, context), twiceFrame.set 120 1)) ∧
      ∃ answers, List.Forall₂
        (fun entry answer =>
          EntryLeft request.broker ⟨twiceFrame.set 120 1, context⟩ entry.1 entry.2 answer.2)
        [([116], ⟨0, recordBatchOf 5 none (some [118]), 36⟩),
          ([116], ⟨0, recordBatchOf 5 none (some [118]), 113⟩)]
        (entriesOf answers) := by
  have ran : ((Log.create ⟨[116], 0⟩ "data/t-0" {}).toOption.bind fun log =>
      (twiceRequest log).toOption.bind fun request => (handleProduceInFrame request {}).map (·.2)) =
        some (twiceFrame.set 120 1) := by
    decide +kernel
  have asks : ((decodeRequestHeader (.ofBytes twiceFrame)).toOption.bind fun given =>
      (decodeProduceRequest given.2).toOption.map (·.1.topics)) =
        some [⟨[116], [⟨0, recordBatchOf 5 none (some [118]), 36⟩,
          ⟨0, recordBatchOf 5 none (some [118]), 113⟩]⟩] := by
    decide +kernel
  obtain ⟨log, isLog, ran⟩ := Option.bind_eq_some_iff.mp ran
  obtain ⟨request, isRequest, ran⟩ := Option.bind_eq_some_iff.mp ran
  obtain ⟨⟨⟨result, context⟩, frame⟩, done, isFrame⟩ := Option.map_eq_some_iff.mp ran
  cases isFrame
  have created := ok_of_to_option isLog
  have made := ok_of_to_option isRequest
  refine ⟨log, request, context, created, made, ⟨result, done⟩, ?_⟩
  obtain ⟨⟨header, body⟩, isHeader, isMade⟩ := except_bind_ok made
  have same := Except.ok.inj isMade
  have behind : decodeRequestHeader (.ofBytes request.frame) = .ok (request.header, request.body) := by
    rw [← same]
    exact isHeader
  have lived : ∀ tp found, request.broker.logs.get tp = some found → found.Lived := by
    intro tp found hosted
    rw [← same] at hosted
    obtain ⟨⟨name, other⟩, isHosted, rfl⟩ := Option.map_eq_some_iff.mp hosted
    cases List.mem_singleton.mp (List.mem_of_find?_eq_some isHosted)
    exact .created created
  have isBody : request.body = body := by rw [← same]
  rw [isHeader] at asks
  obtain ⟨_, all⟩ := produce_stamps_in_place request {} behind lived
  rcases all result context _ done with
    ⟨failure, broken, _⟩ | ⟨decoded, rest, answers, isDecoded, _, _, _, _, _, left⟩
  · rw [isBody] at broken
    simp [Except.toOption, broken] at asks
  · rw [isBody] at isDecoded
    simp only [Except.toOption, Option.bind_some, isDecoded, Option.map_some, Option.some.injEq] at asks
    rw [asks] at left
    exact ⟨answers, left⟩

end DariyaKyu.Server

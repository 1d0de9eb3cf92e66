import DariyaKyu.Cli.ExclusiveShares

/-!
Whether every partition has an owner. Both strategies deal out every partition
they are told of, as long as somebody subscribed to its topic. But a leader is
told of what it asked for, and it asks for its own topics: what only the others
subscribed to is given to nobody.
-/

namespace DariyaKyu.Cli

set_option autoImplicit false

open Dealing Groups Protocol

section Strategies

variable {input : AssignmentInput} {topic : Bytes} {assignment : OrderedMap Bytes (List TopicPartition)}
  {item : TopicPartition}

theorem take_block_keeps (held : Held assignment item) (member : Bytes) (count : Nat) (next : Int) :
    Held (takeBlock topic member count next assignment) item := by
  induction count generalizing next assignment with
  | zero => exact held
  | succ count ih => exact ih (held.push member _) (next + 1)

theorem take_block_held (member : Bytes) (count : Nat) {next partition : Int} (above : next ≤ partition)
    (below : partition < next + count) :
    Held (takeBlock topic member count next assignment) ⟨topic, partition⟩ := by
  induction count generalizing next assignment with
  | zero => omega
  | succ count ih =>
      by_cases first : partition = next
      · subst first
        exact take_block_keeps (push_held _ _ _) member count _
      · push_cast at below
        exact ih (by omega) (by omega)

theorem take_blocks_keeps (held : Held assignment item) {each extra : Int} (interested : List Bytes)
    (index : Nat) (next : Int) :
    Held (takeBlocks topic each extra index next interested assignment) item := by
  induction interested generalizing index next assignment with
  | nil => exact held
  | cons member interested ih => exact ih (take_block_keeps held _ _ _) _ _

theorem take_blocks_held {each extra : Int} (some_each : 0 ≤ each)
    {interested : List Bytes} (index : Nat) {next partition : Int}
    (isNext : next = each * index + min (index : Int) extra) (above : next ≤ partition)
    (below : partition < each * (index + interested.length) + min ((index : Int) + interested.length) extra) :
    Held (takeBlocks topic each extra index next interested assignment) ⟨topic, partition⟩ := by
  induction interested generalizing index next assignment with
  | nil =>
      simp only [List.length_nil, Nat.cast_zero, add_zero] at below
      omega
  | cons member interested ih =>
      obtain ⟨take, isTake⟩ : ∃ take, take = each + if (index : Int) < extra then 1 else 0 := ⟨_, rfl⟩
      have taken : 0 ≤ take := by
        split at isTake <;> omega
      simp only [takeBlocks, ← isTake]
      by_cases here : partition < next + take
      · exact take_blocks_keeps (take_block_held member take.toNat above (by omega)) _ _ _
      · apply ih (index + 1) _ (by omega)
        · rw [List.length_cons] at below
          push_cast at below ⊢
          rw [show (index : Int) + 1 + interested.length = index + (interested.length + 1) by ring]
          exact below
        · rw [isNext]
          push_cast
          rw [mul_add, mul_one]
          split at isTake <;> omega

theorem range_topic_keeps (held : Held assignment item) (count : Int) :
    Held (rangeTopic input assignment topic count) item := by
  simp only [rangeTopic]
  split
  · exact held
  · exact take_blocks_keeps held _ _ _

theorem range_topic_held (asked : input.interested topic ≠ []) {count partition : Int}
    (above : 0 ≤ partition) (below : partition < count) :
    Held (rangeTopic input assignment topic count) ⟨topic, partition⟩ := by
  simp only [rangeTopic]
  rw [if_neg (by rw [not_or]; exact ⟨asked, by omega⟩)]
  have some_asked : (0 : Int) < (input.interested topic).length := by
    have positive := List.length_pos_iff.mpr asked
    omega
  have bounded := Int.emod_lt_of_pos count some_asked
  have nonneg := Int.emod_nonneg count some_asked.ne'
  apply take_blocks_held (Int.ediv_nonneg (by omega) some_asked.le) 0 (by simpa using nonneg) above
  rw [Nat.cast_zero, zero_add, min_eq_right bounded.le, Int.ediv_mul_add_emod]
  exact below

def AssignmentInput.Asked (input : AssignmentInput) (topic : Bytes) : Prop :=
  ∃ member subscription, input.members.find? member = some subscription ∧ topic ∈ subscription

theorem interested_of_asked (asked : input.Asked topic) : input.interested topic ≠ [] := by
  obtain ⟨member, subscription, found, inside⟩ := asked
  have listed : member ∈ input.interested topic := by
    refine List.mem_map.mpr ⟨(member, subscription), List.mem_filter.mpr ⟨?_, ?_⟩, rfl⟩
    · exact input.members.mem_entries.mpr found
    · simpa using inside
  exact List.ne_nil_of_mem listed

theorem assign_range_held (asked : input.Asked item.topic) (counted : input.Counted item) :
    Held (assignRange input) item := by
  obtain ⟨count, found, above, below⟩ := counted
  have inside := input.partitionCounts.mem_entries.mpr found
  have folded : ∀ (entries : List (Bytes × Int)) (assignment : OrderedMap Bytes (List TopicPartition)),
      Held assignment item ∨ (item.topic, count) ∈ entries →
      Held (entries.foldl (fun assignment entry => rangeTopic input assignment entry.1 entry.2) assignment)
        item := by
    intro entries
    induction entries with
    | nil => exact fun _ here => here.resolve_right List.not_mem_nil
    | cons entry entries ih =>
        intro assignment here
        apply ih
        rcases here with held | listed
        · exact .inl (range_topic_keeps held _)
        · rcases List.mem_cons.mp listed with rfl | behind
          · exact .inl (range_topic_held (interested_of_asked asked) above below)
          · exact .inr behind
  exact folded _ _ (.inr inside)

theorem deal_round_keeps (held : Held assignment item) (members : List Bytes) (all : List TopicPartition)
    (next : Nat) : Held (dealRound input members next all assignment) item := by
  induction all generalizing next assignment with
  | nil => exact held
  | cons tp all ih =>
      simp only [dealRound]
      split
      · exact ih held next
      · exact ih (held.push _ tp) _

theorem comes_round {members : List Bytes} {member : Bytes} (inside : member ∈ members) (next : Nat) :
    ∃ tried < members.length, members.getD ((next + tried) % members.length) [] = member := by
  obtain ⟨place, within, isMember⟩ := List.getElem_of_mem inside
  have positive : 0 < members.length := by omega
  have small := Nat.mod_lt next positive
  refine ⟨(place + (members.length - next % members.length)) % members.length, Nat.mod_lt _ positive, ?_⟩
  have back : (next + (place + (members.length - next % members.length)) % members.length) %
      members.length = place := by
    have whole : next % members.length + (place + (members.length - next % members.length)) =
        place + members.length := by omega
    rw [Nat.add_mod_mod, ← Nat.mod_add_mod, whole, Nat.add_mod_right, Nat.mod_eq_of_lt within]
  rw [back, List.getD_eq_getElem _ _ within, isMember]

theorem deal_round_held {members : List Bytes} {all : List TopicPartition} (inside : item ∈ all)
    {member : Bytes} (listed : member ∈ members)
    (wants : ((input.members.find? member).getD []).contains item.topic = true) (next : Nat) :
    Held (dealRound input members next all assignment) item := by
  induction all generalizing next assignment with
  | nil => cases inside
  | cons tp all ih =>
      simp only [dealRound]
      rcases List.mem_cons.mp inside with rfl | behind
      · split
        · next nobody =>
          obtain ⟨tried, within, isMember⟩ := comes_round listed next
          have refused := List.find?_eq_none.mp nobody tried (List.mem_range.mpr within)
          rw [isMember] at refused
          exact absurd wants refused
        · exact deal_round_keeps (push_held _ _ _) _ _ _
      · split
        · exact ih behind next
        · exact ih behind _

theorem assign_round_robin_held (asked : input.Asked item.topic) (counted : input.Counted item) :
    Held (assignRoundRobin input) item := by
  obtain ⟨count, found, bounds⟩ := counted
  obtain ⟨member, subscription, isMember, subscribed⟩ := asked
  refine deal_round_held ?_ (?_ : member ∈ input.memberIds) ?_ 0
  · exact List.mem_flatMap.mpr ⟨_, input.partitionCounts.mem_entries.mpr found,
      mem_partitions_of.mpr ⟨rfl, bounds⟩⟩
  · exact List.mem_map.mpr ⟨(member, subscription), input.members.mem_entries.mpr isMember, rfl⟩
  · rw [isMember, Option.getD_some]
    simpa using subscribed

end Strategies

/-- `handleMetadata` for topics asked for by name, on a broker that hosts these partitions. -/
def describeTopics (hosted : List TopicPartition) (topics : List Bytes) : List MetadataTopic :=
  topics.map fun name =>
    match (byTopic hosted).find? name with
    | none => ⟨.unknownTopicOrPartition, name, []⟩
    | some partitions => ⟨.none, name, partitions⟩

def hostedCount (hosted : List TopicPartition) (topic : Bytes) : Nat :=
  (hosted.filter fun tp => decide (tp.topic = topic)).length

/-- The partitions of a broker: each once, with a number that is not negative,
and of no topic more than the count of an array can say. -/
structure Hosting (hosted : List TopicPartition) : Prop where
  distinct : hosted.Nodup
  numbered : ∀ tp ∈ hosted, 0 ≤ tp.partition
  countable : ∀ topic, hostedCount hosted topic < 2 ^ 31

/-- Exactly one member is told that the partition is its own, and it is told so once. -/
def OwnedOnce (assignments : OrderedMap Bytes Bytes) (tp : TopicPartition) : Prop :=
  ∃ owner bytes held, assignments.find? owner = some bytes ∧ decodeAssignment bytes = .ok held ∧
    held.count tp = 1 ∧
    ∀ other bytes held, other ≠ owner → assignments.find? other = some bytes →
      decodeAssignment bytes = .ok held → tp ∉ held

def SomebodySubscribed (members : Roster) (topic : Bytes) : Prop :=
  ∃ member ∈ members, topic ∈ member.2

/-- Every hosted partition of a topic that somebody subscribed to is owned once. -/
def Covers (hosted : List TopicPartition) (members : Roster) (assignments : OrderedMap Bytes Bytes) : Prop :=
  ∀ tp ∈ hosted, SomebodySubscribed members tp.topic → OwnedOnce assignments tp

/-- The leader subscribed to the topic itself, and its partitions are numbered without a gap. -/
def CountedIn (consumer : GroupConsumer) (hosted : List TopicPartition) (tp : TopicPartition) : Prop :=
  tp.topic ∈ consumer.topics ∧ tp.partition < hostedCount hosted tp.topic

section Leader

variable {hosted : List TopicPartition} {members : Roster} {consumer : GroupConsumer}
  {assignments : OrderedMap Bytes Bytes}

theorem find_hosted (hosted : List TopicPartition) (topic : Bytes) :
    ((byTopic hosted).find? topic = none ∧ hostedCount hosted topic = 0) ∨
      ∃ partitions, (byTopic hosted).find? topic = some partitions ∧ 0 < hostedCount hosted topic ∧
        partitions.length = hostedCount hosted topic := by
  obtain ⟨collected, occupied⟩ := find_by_topic hosted topic
  have counted := congrArg List.length collected
  rw [List.length_map] at counted
  cases found : (byTopic hosted).find? topic with
  | none =>
      rw [found] at counted
      exact .inl ⟨rfl, counted.symm⟩
  | some partitions =>
      rw [found, Option.getD_some] at counted
      refine .inr ⟨partitions, rfl, ?_, counted⟩
      rw [hostedCount, ← counted]
      exact List.length_pos_iff.mpr (occupied _ found)

theorem find_partition_counts (hosting : Hosting hosted) (members : Roster) (topics : List Bytes)
    (topic : Bytes) :
    (assignmentInput members (describeTopics hosted topics)).partitionCounts.find? topic =
      if topic ∈ topics ∧ 0 < hostedCount hosted topic then some (hostedCount hosted topic : Int) else none := by
  have counted : ∀ (topics : List Bytes) (counts : OrderedMap Bytes Int),
      ((describeTopics hosted topics).foldl
          (fun counts topic =>
            if topic.error = .none then
              counts.insert topic.name (asSigned 32 (asUnsigned 32 topic.partitions.length))
            else counts)
          counts).find? topic =
        if topic ∈ topics ∧ 0 < hostedCount hosted topic then some (hostedCount hosted topic : Int)
        else counts.find? topic := by
    intro topics
    induction topics with
    | nil => simp [describeTopics]
    | cons first topics ih =>
        intro counts
        simp only [describeTopics, List.map_cons, List.foldl_cons] at ih ⊢
        rw [ih]
        rcases find_hosted hosted first with ⟨absent, zero⟩ | ⟨partitions, found, some_hosted, counted⟩
        · by_cases same : topic = first
          · subst same
            simp [absent, zero]
          · simp [absent, same]
        · have fits : FitsSigned 32 (partitions.length : Int) := by
            have limit := hosting.countable first
            unfold FitsSigned
            omega
          rw [found]
          simp only [if_true, as_signed_as_unsigned 32 (by norm_num) _ fits, OrderedMap.find_insert]
          by_cases same : topic = first
          · subst same
            simp [some_hosted, counted]
          · simp [same]
  exact counted topics OrderedMap.empty

theorem counted_in_of_counted (hosting : Hosting hosted) {tp : TopicPartition} :
    (assignmentInput members (describeTopics hosted consumer.topics)).Counted tp ↔
      CountedIn consumer hosted tp ∧ 0 ≤ tp.partition := by
  constructor
  · rintro ⟨count, counts, above, below⟩
    rw [find_partition_counts hosting] at counts
    split at counts
    · next here =>
      cases counts
      exact ⟨⟨here.1, below⟩, above⟩
    · cases counts
  · rintro ⟨⟨isTopic, below⟩, above⟩
    have some_hosted : 0 < hostedCount hosted tp.topic := by omega
    refine ⟨hostedCount hosted tp.topic, ?_, above, below⟩
    rw [find_partition_counts hosting, if_pos ⟨isTopic, some_hosted⟩]

/-- What the leader sends is encoded from shares that divide its input and hold
all that was counted in it. -/
theorem sends_shares {round : Nat} {described : List MetadataTopic}
    (sends : (consumer.described round members described).phase = .assigning round assignments) :
    ∃ computed, Divides (assignmentInput members described) computed ∧
      (∀ tp, (assignmentInput members described).Asked tp.topic →
        (assignmentInput members described).Counted tp → Held computed tp) ∧
      encodeShares computed.entries OrderedMap.empty = .ok assignments := by
  simp only [GroupConsumer.described] at sends
  split at sends
  · cases sends
  · next encoded =>
    cases sends
    split at encoded
    · exact ⟨_, assign_round_robin_divides _, fun _ asked counted => assign_round_robin_held asked counted, encoded⟩
    · exact ⟨_, assign_range_divides _, fun _ asked counted => assign_range_held asked counted, encoded⟩

theorem share_of_assignment {computed : OrderedMap Bytes (List TopicPartition)}
    (encoded : encodeShares computed.entries OrderedMap.empty = .ok assignments) {id bytes : Bytes}
    (given : assignments.find? id = some bytes) :
    ∃ share, computed.find? id = some share ∧ encodeAssignment share = .ok bytes := by
  obtain ⟨elsewhere, each⟩ := encode_shares_finds computed.sorted encoded
  by_cases listed : ∀ entry ∈ computed.entries, entry.1 ≠ id
  · rw [elsewhere id listed, OrderedMap.find_empty] at given
    cases given
  · push Not at listed
    obtain ⟨⟨_, share⟩, inside, rfl⟩ := listed
    obtain ⟨sent, found, isSent⟩ := each _ _ inside
    rw [found] at given
    exact ⟨share, computed.mem_entries.mp inside, Option.some.inj given ▸ isSent⟩

theorem divides_encodable {described : List MetadataTopic} {computed : OrderedMap Bytes (List TopicPartition)}
    (divides : Divides (assignmentInput members described) computed) {id : Bytes} {share : List TopicPartition}
    (found : computed.find? id = some share) : Encodable share := by
  refine ⟨divides.dealt.once id share found,
    fun topic => ((assignmentInput members described).partitionCounts.find? topic).getD 0, ?_⟩
  intro tp member
  obtain ⟨count, counts, above, below⟩ := divides.dealt.among id share found tp member
  simp only [counts, Option.getD_some]
  exact ⟨counts_fit members described counts, above, below⟩

theorem few_topics {share : List TopicPartition} {topics : List Bytes}
    (among : ∀ tp ∈ share, tp.topic ∈ topics) : (byTopic share).entries.length ≤ topics.length := by
  have distinct : ((byTopic share).entries.map (·.1)).Nodup := by
    apply List.Pairwise.map _ _ (byTopic share).sorted
    intro earlier later below same
    rw [same] at below
    exact absurd below Std.lt_irrefl
  have inside : ∀ topic ∈ (byTopic share).entries.map (·.1), topic ∈ topics := by
    intro topic listed
    obtain ⟨⟨name, partitions⟩, entry, rfl⟩ := List.mem_map.mp listed
    obtain ⟨partition, member⟩ := List.exists_mem_of_ne_nil partitions
      ((find_by_topic share name).2 _ ((byTopic share).mem_entries.mp entry))
    exact among _ ((mem_by_topic share ⟨name, partition⟩).mp ⟨_, entry, rfl, member⟩)
  have length := (List.subperm_of_subset distinct inside).length_le
  rwa [List.length_map] at length

theorem owned_counted (hosting : Hosting hosted) {round : Nat}
    (sends : (consumer.described round members (describeTopics hosted consumer.topics)).phase =
      .assigning round assignments) {tp : TopicPartition} (owned : OwnedOnce assignments tp) :
    CountedIn consumer hosted tp := by
  obtain ⟨computed, divides, _, encoded⟩ := sends_shares sends
  obtain ⟨owner, bytes, held, given, decoded, once, _⟩ := owned
  obtain ⟨share, found, isBytes⟩ := share_of_assignment encoded given
  have inside : tp ∈ share :=
    (decode_assignment_encode (divides_encodable divides found) isBytes decoded tp).mp
      (List.count_pos_iff.mp (by omega))
  exact (counted_in_of_counted hosting).mp (divides.dealt.among owner share found tp inside) |>.1

/-- A leader covers what is subscribed if and only if it asks for all of it: every
topic that somebody subscribed to is one of its own, and none is numbered with a gap. -/
theorem leader_covers (hosting : Hosting hosted) (distinct : (members.map (·.1)).Nodup)
    (asks : consumer.topics.length < 2 ^ 31) {round : Nat}
    (sends : (consumer.described round members (describeTopics hosted consumer.topics)).phase =
      .assigning round assignments) :
    Covers hosted members assignments ↔
      ∀ tp ∈ hosted, SomebodySubscribed members tp.topic → CountedIn consumer hosted tp := by
  constructor
  · intro covers tp isHosted subscribed
    exact owned_counted hosting sends (covers tp isHosted subscribed)
  · intro asked tp isHosted subscribed
    obtain ⟨computed, divides, holds, encoded⟩ := sends_shares sends
    have counted : (assignmentInput members (describeTopics hosted consumer.topics)).Counted tp :=
      (counted_in_of_counted hosting).mpr ⟨asked tp isHosted subscribed, hosting.numbered tp isHosted⟩
    obtain ⟨⟨id, subscription⟩, isMember, wants⟩ := subscribed
    obtain ⟨owner, share, found, inside⟩ :=
      holds tp ⟨id, subscription, find_members distinct isMember, wants⟩ counted
    have encodable := divides_encodable divides found
    obtain ⟨bytes, given, isBytes⟩ :=
      (encode_shares_finds computed.sorted encoded).2 owner share (computed.mem_entries.mpr found)
    have few : (byTopic share).entries.length ≤ consumer.topics.length := by
      apply few_topics
      intro other member
      exact ((counted_in_of_counted hosting).mp (divides.dealt.among owner share found other member)).1.1
    refine ⟨owner, bytes, _, given,
      decode_assignment_write (encodable_entries encodable) (by omega) isBytes, ?_, ?_⟩
    · exact List.count_eq_one_of_mem (spread_distinct encodable.distinct) (mem_spread.mpr inside)
    · intro other otherBytes held different otherGiven decoded member
      obtain ⟨otherShare, otherFound, otherIsBytes⟩ := share_of_assignment encoded otherGiven
      have also : tp ∈ otherShare :=
        (decode_assignment_encode (divides_encodable divides otherFound) otherIsBytes decoded tp).mp member
      exact divides.dealt.apart _ _ _ _ different otherFound found tp also inside

end Leader

def leaderOf (topics : List Bytes) : GroupConsumer where
  clientId := [97]
  groupId := [103]
  topics := topics
  strategy := Storage.asciiBytes "range"
  sessionTimeoutMs := 10000

def JoinPhase.sendsIn : JoinPhase → Option Nat
  | .assigning round _ => some round
  | _ => none

theorem assigning_of_sends {phase : JoinPhase} {round : Nat} (sends : phase.sendsIn = some round) :
    ∃ assignments, phase = .assigning round assignments := by
  cases phase with
  | assigning other assignments =>
      cases sends
      exact ⟨assignments, rfl⟩
  | idle => cases sends
  | joining round => cases sends
  | leading round members => cases sends
  | following round wait => cases sends

def twoTopics : List TopicPartition := [⟨[116], 0⟩, ⟨[117], 0⟩]

theorem two_topics_hosting : Hosting twoTopics := by
  refine ⟨by decide, by decide, ?_⟩
  intro topic
  have few : hostedCount twoTopics topic ≤ 2 := List.length_filter_le _ twoTopics
  omega

theorem leader_covers_both : ∃ assignments,
    ((leaderOf [[116], [117]]).described 0 [([97], [[116], [117]]), ([98], [[117]])]
      (describeTopics twoTopics [[116], [117]])).phase = .assigning 0 assignments ∧
      Covers twoTopics [([97], [[116], [117]]), ([98], [[117]])] assignments := by
  obtain ⟨assignments, sends⟩ := @assigning_of_sends
    ((leaderOf [[116], [117]]).described 0 [([97], [[116], [117]]), ([98], [[117]])]
      (describeTopics twoTopics [[116], [117]])).phase 0
    (by decide +kernel)
  refine ⟨assignments, sends, ?_⟩
  have covers := @leader_covers twoTopics _ (leaderOf [[116], [117]]) assignments two_topics_hosting
    (by decide) (by decide) _ sends
  apply covers.mpr
  intro tp isHosted _
  simp only [twoTopics, List.mem_cons, List.not_mem_nil, or_false] at isHosted
  rcases isHosted with rfl | rfl
  · exact ⟨by decide, by decide⟩
  · exact ⟨by decide, by decide⟩

/-- What only the other member subscribed to is given to nobody. -/
theorem others_topic_unowned :
    ¬ ∀ (hosted : List TopicPartition) (members : Roster) (consumer : GroupConsumer) (round : Nat)
        (assignments : OrderedMap Bytes Bytes), Hosting hosted → (members.map (·.1)).Nodup →
      consumer.topics.length < 2 ^ 31 →
      (consumer.described round members (describeTopics hosted consumer.topics)).phase =
        .assigning round assignments →
      Covers hosted members assignments := by
  intro all
  obtain ⟨assignments, sends⟩ := @assigning_of_sends
    ((leaderOf [[116]]).described 0 [([97], [[116]]), ([98], [[117]])] (describeTopics twoTopics [[116]])).phase 0
    (by decide +kernel)
  have covers := all twoTopics _ (leaderOf [[116]]) 0 assignments two_topics_hosting (by decide) (by decide) sends
  have owned := covers ⟨[117], 0⟩ (by decide) ⟨_, List.mem_cons_of_mem _ List.mem_cons_self, by decide⟩
  have counted := @owned_counted twoTopics _ (leaderOf [[116]]) assignments two_topics_hosting _ sends _ owned
  exact absurd counted.1 (by decide)

end DariyaKyu.Cli

import DariyaKyu.Cli.GroupConsumer
import DariyaKyu.Group.Assignments

/-!
Who owns what in a group of consumers. A leader divides the partitions among the
members it was handed, which are the members of its generation, and names each
of them; the first sync of a leader is the only one of its generation that is
stored. So what members of one generation collect is always one and the same
division, whatever was created, left or expired in between.
-/

namespace DariyaKyu.Cli

set_option autoImplicit false

open Dealing Groups Protocol

/-- The members of a generation, and the bytes its leader supplied for them. -/
structure Plan where
  roster : Roster
  assignments : OrderedMap Bytes Bytes

/-- The bytes are those of shares that have nothing in common, one for each
member and of topics it subscribed to. -/
structure Plan.Fair (plan : Plan) : Prop where
  divided : ∃ shares : OrderedMap Bytes (List TopicPartition),
    (∀ id subscription, (id, subscription) ∈ plan.roster → ∃ held bytes,
      shares.find? id = some held ∧ plan.assignments.find? id = some bytes ∧
        encodeAssignment held = .ok bytes ∧ Encodable held ∧ ∀ tp ∈ held, tp.topic ∈ subscription) ∧
    ∀ id other held others, id ≠ other → shares.find? id = some held →
      shares.find? other = some others → ∀ tp ∈ held, tp ∉ others

/-- What the two hold of one generation, if both can decode it. -/
def Grant.Excludes (one other : Grant) : Prop :=
  ∀ held others, decodeAssignment one.assignment = .ok held →
    decodeAssignment other.assignment = .ok others →
    (one.memberId ≠ other.memberId → ∀ tp ∈ held, tp ∉ others) ∧
      (one.memberId = other.memberId → others = held)

def Grant.Subscribed (grant : Grant) : Prop :=
  ∀ held, decodeAssignment grant.assignment = .ok held → ∀ tp ∈ held, tp.topic ∈ grant.subscription

/-- The grant is what a plan has for its member. -/
structure Grant.Follows (grant : Grant) (plan : Plan) : Prop where
  listed : (grant.memberId, grant.subscription) ∈ plan.roster
  given : plan.assignments.find? grant.memberId = some grant.assignment

section Plans

variable {plan : Plan} {grant other : Grant}

theorem Grant.Follows.subscribed (follows : grant.Follows plan) (fair : plan.Fair) : grant.Subscribed := by
  obtain ⟨shares, each, _⟩ := fair.divided
  obtain ⟨share, bytes, _, given, encoded, encodable, subscribed⟩ := each _ _ follows.listed
  cases given.symm.trans follows.given
  intro held decoded tp member
  exact subscribed tp ((decode_assignment_encode encodable encoded decoded tp).mp member)

theorem Grant.Follows.excludes (follows : grant.Follows plan) (also : other.Follows plan)
    (fair : plan.Fair) : grant.Excludes other := by
  obtain ⟨shares, each, apart⟩ := fair.divided
  obtain ⟨share, bytes, found, given, encoded, encodable, _⟩ := each _ _ follows.listed
  obtain ⟨otherShare, otherBytes, otherFound, otherGiven, otherEncoded, otherEncodable, _⟩ :=
    each _ _ also.listed
  cases given.symm.trans follows.given
  cases otherGiven.symm.trans also.given
  intro held others decoded otherDecoded
  constructor
  · intro different tp member otherMember
    exact apart _ _ _ _ different found otherFound tp
      ((decode_assignment_encode encodable encoded decoded tp).mp member)
      ((decode_assignment_encode otherEncodable otherEncoded otherDecoded tp).mp otherMember)
  · intro same
    rw [same] at given
    have sameBytes : other.assignment = grant.assignment := Option.some.inj (otherGiven.symm.trans given)
    rw [sameBytes, decoded] at otherDecoded
    exact (Except.ok.inj otherDecoded).symm

theorem encode_shares_finds {entries : List (Bytes × List TopicPartition)}
    {assignments final : OrderedMap Bytes Bytes}
    (sorted : entries.Pairwise fun earlier later => earlier.1 < later.1)
    (encoded : encodeShares entries assignments = .ok final) :
    (∀ id, (∀ entry ∈ entries, entry.1 ≠ id) → final.find? id = assignments.find? id) ∧
      ∀ id held, (id, held) ∈ entries → ∃ bytes, final.find? id = some bytes ∧
        encodeAssignment held = .ok bytes := by
  induction entries generalizing assignments with
  | nil =>
      cases encoded
      exact ⟨fun _ _ => rfl, by simp⟩
  | cons entry entries ih =>
      obtain ⟨first, assigned⟩ := entry
      obtain ⟨above, later⟩ := List.pairwise_cons.mp sorted
      obtain ⟨bytes, encodedFirst, rest⟩ := except_bind_ok encoded
      obtain ⟨elsewhere, each⟩ := ih later rest
      have notBehind : ∀ entry ∈ entries, entry.1 ≠ first := by
        intro entry inside same
        have less := above entry inside
        rw [same] at less
        exact absurd less Std.lt_irrefl
      constructor
      · intro id different
        simp only [List.forall_mem_cons] at different
        rw [elsewhere id different.2, OrderedMap.find_insert, if_neg (Ne.symm different.1)]
      · intro id held inside
        rcases List.mem_cons.mp inside with same | behind
        · cases same
          exact ⟨bytes, by rw [elsewhere _ notBehind, OrderedMap.find_insert, if_pos rfl], encodedFirst⟩
        · exact each id held behind

theorem find_members {members : Roster} (distinct : (members.map (·.1)).Nodup) {id : Bytes}
    {subscription : List Bytes} (inside : (id, subscription) ∈ members) :
    (assignmentInput members []).members.find? id = some subscription := by
  have inserted : ∀ (members : Roster) (input : OrderedMap Bytes (List Bytes)),
      (members.map (·.1)).Nodup →
      ((id, subscription) ∈ members ∨ (id ∉ members.map (·.1) ∧ input.find? id = some subscription)) →
      (members.foldl (fun input member => input.insert member.1 member.2) input).find? id =
        some subscription := by
    intro members
    induction members with
    | nil =>
        rintro input _ (inside | ⟨_, found⟩)
        · cases inside
        · exact found
    | cons first members ih =>
        intro input distinct here
        rw [List.map_cons, List.nodup_cons] at distinct
        rw [List.foldl_cons]
        apply ih _ distinct.2
        rcases here with inside | ⟨outside, found⟩
        · rcases List.mem_cons.mp inside with rfl | behind
          · exact .inr ⟨distinct.1, by simp⟩
          · exact .inl behind
        · rw [List.map_cons, List.mem_cons, not_or] at outside
          exact .inr ⟨outside.2, by rw [OrderedMap.find_insert, if_neg outside.1, found]⟩
  exact inserted members OrderedMap.empty distinct (.inl inside)

theorem counts_fit (members : Roster) (described : List MetadataTopic) {topic : Bytes} {count : Int}
    (found : (assignmentInput members described).partitionCounts.find? topic = some count) :
    count < 2 ^ 31 := by
  have counted : ∀ (described : List MetadataTopic) (counts : OrderedMap Bytes Int),
      (∀ topic count, counts.find? topic = some count → count < 2 ^ 31) →
      ∀ topic count, (described.foldl
          (fun counts topic =>
            if topic.error = .none then
              counts.insert topic.name (asSigned 32 (asUnsigned 32 topic.partitions.length))
            else counts)
          counts).find? topic = some count → count < 2 ^ 31 := by
    intro described
    induction described with
    | nil => exact fun _ small => small
    | cons first described ih =>
        intro counts small
        rw [List.foldl_cons]
        apply ih
        intro topic count found
        split at found
        · rw [OrderedMap.find_insert] at found
          split at found
          · cases found
            have fits := as_signed_fits 32 (asUnsigned 32 first.partitions.length) (by norm_num)
              (as_unsigned_lt 32 _)
            exact fits.2
          · exact small topic count found
        · exact small topic count found
  exact counted described OrderedMap.empty (by simp) topic count found

theorem divided_fair {members : Roster} (distinct : (members.map (·.1)).Nodup)
    {described : List MetadataTopic} {computed : OrderedMap Bytes (List TopicPartition)}
    (divides : Divides (assignmentInput members described) computed) {assignments : OrderedMap Bytes Bytes}
    (encoded : encodeShares computed.entries OrderedMap.empty = .ok assignments) :
    Plan.Fair ⟨members, assignments⟩ := by
  obtain ⟨_, finds⟩ := encode_shares_finds computed.sorted encoded
  refine ⟨computed, ?_, divides.dealt.apart⟩
  intro id subscription inside
  have known : (assignmentInput members described).members.find? id = some subscription :=
    find_members distinct inside
  have listed : id ∈ (assignmentInput members described).memberIds :=
    List.mem_map.mpr ⟨_, (assignmentInput members described).members.mem_entries.mpr known, rfl⟩
  obtain ⟨held, found⟩ := Option.isSome_iff_exists.mp (divides.named id listed)
  obtain ⟨bytes, given, isBytes⟩ := finds id held (computed.mem_entries.mpr found)
  refine ⟨held, bytes, found, given, isBytes, ⟨divides.dealt.once id held found, ?_⟩, ?_⟩
  · refine ⟨fun topic => ((assignmentInput members described).partitionCounts.find? topic).getD 0, ?_⟩
    intro tp member
    obtain ⟨count, counts, above, below⟩ := divides.dealt.among id held found tp member
    simp only [counts, Option.getD_some]
    exact ⟨counts_fit members described counts, above, below⟩
  · intro tp member
    obtain ⟨other, isOther, wants⟩ := divides.dealt.wanted id held found tp member
    rw [known] at isOther
    cases isOther
    exact wants

theorem roster_distinct (group : Group) : (group.roster.map (·.1)).Nodup := by
  rw [Group.roster, List.map_map]
  apply List.Pairwise.map _ _ group.members.sorted
  intro earlier later below same
  simp only [Function.comp_apply] at same
  rw [same] at below
  exact absurd below Std.lt_irrefl

end Plans

/-- What a phase of `join` takes for granted about the group it has joined. -/
def JoinPhase.Agrees (group : Group) (memberId : Bytes) : JoinPhase → Prop
  | .leading _ members => memberId = group.leaderId ∧ members = group.roster
  | .assigning _ assignments => memberId = group.leaderId ∧ Plan.Fair ⟨group.roster, assignments⟩
  | .following _ _ => memberId ≠ group.leaderId
  | .idle => True
  | .joining _ => True

def JoinPhase.Settled : JoinPhase → Prop
  | .idle => False
  | .joining _ => False
  | _ => True

theorem JoinPhase.Agrees.congr {phase : JoinPhase} {group next : Group} {memberId : Bytes}
    (agrees : phase.Agrees group memberId) (outcome : next.outcome = group.outcome) :
    phase.Agrees next memberId := by
  simp only [Group.outcome, JoinOutcome.mk.injEq] at outcome
  obtain ⟨leader, _, roster⟩ := outcome
  cases phase with
  | leading | assigning =>
      simp only [JoinPhase.Agrees, leader, roster]
      exact agrees
  | following =>
      simp only [JoinPhase.Agrees, leader]
      exact agrees
  | idle | joining => trivial

theorem agrees_unsettled {phase : JoinPhase} (waits : ¬ phase.Settled) (group : Group) (memberId : Bytes) :
    phase.Agrees group memberId := by
  cases phase with
  | idle | joining => trivial
  | leading | assigning | following => exact absurd trivial waits

def GroupConsumer.pass (consumer : GroupConsumer) : Pass :=
  ⟨consumer.groupId, consumer.memberId, consumer.generation⟩

/-- The consumer is one of the group, and so is its id if it has one. -/
structure ConsumerKnows (groupId : Bytes) (issuing : Issuing) (consumer : GroupConsumer) : Prop where
  grouped : consumer.groupId = groupId
  knows : issuing.Knows consumer.pass

/-- What a consumer may rely on, as long as it is in the group and the group is
in the generation that it has joined. -/
structure ConsumerHolds (groupId : Bytes) (issuing : Issuing) (consumer : GroupConsumer) : Prop
    extends ConsumerKnows groupId issuing consumer where
  reached : consumer.phase.Settled → issuing.Reached consumer.pass
  agrees : ∀ group member, issuing.coordinator.groups.find? groupId = some group → group.IsSettled →
    consumer.generation = group.generation → group.members.find? consumer.memberId = some member →
    consumer.phase.Agrees group consumer.memberId

section Consumers

variable {groupId : Bytes} {issuing next : Issuing} {consumer : GroupConsumer} {call : GroupCall}

/-- Whatever the coordinator is asked, a consumer can rely on what it could. -/
theorem ConsumerHolds.kept (holds : ConsumerHolds groupId issuing consumer) (issued : IssuingHolds issuing)
    (taken : Issuing.step call issuing = some next) : ConsumerHolds groupId next consumer := by
  have reached := fun settled => (holds.reached settled).step issued holds.knows taken
  refine ⟨⟨holds.grouped, holds.knows.step taken⟩, reached, ?_⟩
  intro group member there settled same found
  by_cases joined : consumer.phase.Settled
  · have isThere : next.coordinator.groups.find? consumer.pass.groupId = some group := by
      simpa only [GroupConsumer.pass, holds.grouped] using there
    obtain ⟨before, old, was, isOld⟩ := holder_was_member issued holds.knows taken isThere found
    have floor := holds.reached joined before old was isOld
    have isBefore : issuing.coordinator.groups.find? groupId = some before := by
      simpa only [GroupConsumer.pass, holds.grouped] using was
    cases taken
    cases outcome_shift isBefore there with
    | kept wasSettled generation outcome =>
        exact (holds.agrees before old isBefore wasSettled (same.trans generation) isOld).congr outcome
    | unsettled open_ _ => exact absurd settled open_
    | renewed generation =>
        -- the group had not been behind the consumer
        have ahead : consumer.generation ≤ before.generation := floor
        omega
  · exact agrees_unsettled joined group consumer.memberId

/-- A consumer that has not joined a generation relies on nothing else. -/
theorem ConsumerKnows.waits (known : ConsumerKnows groupId issuing consumer)
    (waits : ¬ consumer.phase.Settled) : ConsumerHolds groupId issuing consumer :=
  ⟨known, fun joined => absurd joined waits,
    fun group _ _ _ _ _ => agrees_unsettled waits group consumer.memberId⟩

theorem ConsumerKnows.thrown (known : ConsumerKnows groupId issuing consumer) :
    ConsumerHolds groupId issuing consumer.thrown :=
  @ConsumerKnows.waits groupId issuing consumer.thrown ⟨known.grouped, known.knows⟩ id

theorem ConsumerKnows.nextRound (known : ConsumerKnows groupId issuing consumer) (round : Nat) :
    ConsumerHolds groupId issuing (consumer.nextRound round) := by
  apply @ConsumerKnows.waits groupId issuing (consumer.nextRound round) ⟨known.grouped, known.knows⟩
  unfold GroupConsumer.nextRound
  simp only
  split <;> exact id

theorem ConsumerKnows.forgotten (known : ConsumerKnows groupId issuing consumer) (error : ErrorCode)
    (round : Nat) : ConsumerHolds groupId issuing ((consumer.forgetIfExpired error).nextRound round) := by
  unfold GroupConsumer.forgetIfExpired
  split
  · exact @ConsumerKnows.nextRound groupId issuing { consumer with memberId := [] }
      ⟨known.grouped, .inl rfl⟩ round
  · exact known.nextRound round

theorem ConsumerKnows.collected (known : ConsumerKnows groupId issuing consumer) (assignment : Bytes) :
    ConsumerHolds groupId issuing (consumer.collected assignment) := by
  unfold GroupConsumer.collected
  split
  · exact known.thrown
  · next assigned _ =>
    exact @ConsumerKnows.waits groupId issuing { consumer with assignment := assigned, phase := .idle }
      ⟨known.grouped, known.knows⟩ id

theorem ConsumerKnows.syncedAsLeader (known : ConsumerKnows groupId issuing consumer) (round : Nat)
    (result : SyncResult) : ConsumerHolds groupId issuing (consumer.syncedAsLeader round result) := by
  unfold GroupConsumer.syncedAsLeader
  split
  · exact known.forgotten result.error round
  · exact known.collected result.assignment

theorem ConsumerHolds.syncedAsFollower (holds : ConsumerHolds groupId issuing consumer) {round wait : Nat}
    (follows : consumer.phase = .following round wait) (result : SyncResult) :
    ConsumerHolds groupId issuing (consumer.syncedAsFollower round wait result) := by
  unfold GroupConsumer.syncedAsFollower
  split
  · split
    · have reached := holds.reached
      have agrees := holds.agrees
      rw [follows] at reached agrees
      exact ⟨⟨holds.grouped, holds.knows⟩, reached, agrees⟩
    · exact holds.toConsumerKnows.nextRound round
  split
  · exact holds.toConsumerKnows.forgotten result.error round
  · exact holds.toConsumerKnows.collected result.assignment

/-- A leader that is told of the topics divides them among the list it has. -/
theorem ConsumerHolds.described (holds : ConsumerHolds groupId issuing consumer) {round : Nat}
    {members : Roster} (leads : consumer.phase = .leading round members) (topics : List MetadataTopic) :
    ConsumerHolds groupId issuing (consumer.described round members topics) := by
  unfold GroupConsumer.described
  simp only
  split
  · exact holds.toConsumerKnows.thrown
  · next assignments encoded =>
    have reached := holds.reached
    have agrees := holds.agrees
    rw [leads] at reached agrees
    refine ⟨⟨holds.grouped, holds.knows⟩, reached, ?_⟩
    intro group member there settled same found
    obtain ⟨isLeader, isRoster⟩ := agrees group member there settled same found
    refine ⟨isLeader, ?_⟩
    rw [← isRoster]
    split at encoded
    · exact divided_fair (isRoster ▸ roster_distinct group) (assign_round_robin_divides _) encoded
    · exact divided_fair (isRoster ▸ roster_distinct group) (assign_range_divides _) encoded

/-- An answer to a join names the id that came with it or was given out for it,
unless it refuses. -/
theorem join_answer_id (coordinator : GroupCoordinator) (groupId memberId clientId : Bytes)
    (subscription protocols : List Bytes) (sessionTimeoutMs nowMs : Int) :
    ((coordinator.join groupId memberId clientId subscription protocols sessionTimeoutMs nowMs).2.memberId = [] ∧
      (coordinator.join groupId memberId clientId subscription protocols sessionTimeoutMs nowMs).2.error ≠ .none) ∨
      (groupId ≠ [] ∧
        (coordinator.join groupId memberId clientId subscription protocols sessionTimeoutMs nowMs).2.memberId =
          if memberId = [] then coordinator.freshId clientId else memberId) := by
  unfold GroupCoordinator.join
  split
  · exact .inl ⟨rfl, by simp⟩
  next named =>
  simp only
  split
  · next fresh => exact .inr ⟨named, join_member_id _ _ _ _ _ _ _⟩
  split
  · exact .inl ⟨rfl, by simp⟩
  · exact .inr ⟨named, join_member_id _ _ _ _ _ _ _⟩

theorem join_leaves_group (coordinator : GroupCoordinator) {groupId : Bytes} (named : groupId ≠ [])
    (memberId clientId : Bytes) (subscription protocols : List Bytes) (sessionTimeoutMs nowMs : Int) :
    ∃ next, (coordinator.join groupId memberId clientId subscription protocols sessionTimeoutMs
      nowMs).1.groups.find? groupId = some next := by
  unfold GroupCoordinator.join
  rw [if_neg named]
  simp only
  split
  · exact ⟨_, by rw [GroupCoordinator.store, OrderedMap.find_insert, if_pos rfl]⟩
  split
  · exact ⟨_, by rw [GroupCoordinator.store, OrderedMap.find_insert, if_pos rfl]⟩
  · exact ⟨_, by rw [GroupCoordinator.store, OrderedMap.find_insert, if_pos rfl]⟩

theorem answered_id_issued {memberId clientId : Bytes} {subscription protocols : List Bytes}
    {sessionTimeoutMs nowMs : Int} (known : memberId = [] ∨ (memberId, groupId) ∈ issuing.issued)
    (call_ : call = .join groupId memberId clientId subscription protocols sessionTimeoutMs nowMs)
    {result : JoinResult}
    (answer : result = (issuing.coordinator.join groupId memberId clientId subscription protocols
      sessionTimeoutMs nowMs).2) (occupied : result.memberId ≠ []) :
    (result.memberId, groupId) ∈ issuing.issued ++ issuing.coordinator.issues call := by
  subst answer call_
  by_cases fresh : memberId = []
  · apply List.mem_append_right
    subst fresh
    simp [GroupCoordinator.issues, occupied]
  · apply List.mem_append_left
    rcases join_answer_id issuing.coordinator groupId memberId clientId subscription protocols
      sessionTimeoutMs nowMs with ⟨none, _⟩ | ⟨_, same⟩
    · exact absurd none occupied
    · rw [if_neg fresh] at same
      rw [same]
      exact known.resolve_left fresh

theorem join_succeeds {coordinator : GroupCoordinator} {memberId clientId : Bytes}
    {subscription protocols : List Bytes} {sessionTimeoutMs nowMs : Int} {result : JoinResult}
    (answer : result = (coordinator.join groupId memberId clientId subscription protocols
      sessionTimeoutMs nowMs).2) (fine : result.error = .none) :
    result.memberId ≠ [] ∧ ∃ group, (coordinator.join groupId memberId clientId subscription protocols
        sessionTimeoutMs nowMs).1.groups.find? groupId = some group ∧ group.IsSettled ∧
      result = group.resultFor result.memberId := by
  subst answer
  rcases join_answer_id coordinator groupId memberId clientId subscription protocols sessionTimeoutMs
    nowMs with ⟨_, refused⟩ | ⟨named, same⟩
  · exact absurd fine refused
  · constructor
    · rw [same]
      split
      · exact fresh_id_occupied coordinator clientId
      · next occupied => exact occupied
    · obtain ⟨group, there⟩ := join_leaves_group coordinator named memberId clientId subscription protocols
        sessionTimeoutMs nowMs
      rcases coordinator_join_answer coordinator groupId memberId clientId subscription protocols
        sessionTimeoutMs nowMs there with ⟨refused, _⟩ | ⟨settled, id, told⟩
      · exact absurd fine refused
      · refine ⟨group, there, settled, ?_⟩
        rw [told]
        rfl

theorem ConsumerHolds.joined (holds : ConsumerHolds groupId issuing consumer)
    (named : ∀ groupId group, next.coordinator.groups.find? groupId = some group → group.Named)
    {nowMs : Int} (call_ : call = .join consumer.groupId consumer.memberId consumer.clientId consumer.topics
      [consumer.strategy] consumer.sessionTimeoutMs nowMs)
    (taken : Issuing.step call issuing = some next) {result : JoinResult}
    (answer : result = (issuing.coordinator.join consumer.groupId consumer.memberId consumer.clientId
      consumer.topics [consumer.strategy] consumer.sessionTimeoutMs nowMs).2)
    (later : ConsumerHolds groupId next consumer) (round : Nat) :
    ConsumerHolds groupId next (consumer.joined round result) := by
  have isNext : next = ⟨issuing.coordinator.after call, issuing.issued ++ issuing.coordinator.issues call⟩ :=
    (Option.some.inj taken).symm
  -- what the consumer is once it has noted the id
  obtain ⟨told, isTold⟩ : ∃ told, told = if result.memberId = [] then consumer else
      { consumer with memberId := result.memberId } := ⟨_, rfl⟩
  have known : ConsumerKnows groupId next told := by
    rw [isTold]
    split
    · exact later.toConsumerKnows
    · next occupied =>
      refine ⟨holds.grouped, .inr ?_⟩
      rw [isNext]
      exact answered_id_issued holds.knows call_ answer occupied
  unfold GroupConsumer.joined
  simp only [← isTold]
  split
  · exact known.nextRound round
  split
  · exact known.forgotten result.error round
  split
  · exact known.thrown
  next notRefused =>
  obtain ⟨occupied, group, there, settled, isResult⟩ := join_succeeds answer (not_not.mp notRefused)
  have isMember : told.memberId = result.memberId := by
    rw [isTold, if_neg occupied]
  have isGroup : next.coordinator.groups.find? groupId = some group := by
    rw [isNext, ← holds.grouped]
    subst call_
    exact there
  have same : result.generation = group.generation ∧ result.leaderId = group.leaderId := by
    rw [isResult]
    exact ⟨rfl, rfl⟩
  have here : ∀ other, next.coordinator.groups.find? groupId = some other → other = group := by
    intro other isOther
    exact Option.some.inj (isOther.symm.trans isGroup)
  have reached : ∀ other : GroupConsumer, other.groupId = told.groupId → other.generation = result.generation →
      next.Reached other.pass := by
    intro other grouped generation found member isFound _
    have inGroup : next.coordinator.groups.find? groupId = some found := by
      simpa only [GroupConsumer.pass, grouped, known.grouped] using isFound
    rw [here found inGroup]
    exact (generation.trans same.1).le
  split
  · next leads =>
    refine ⟨⟨known.grouped, known.knows⟩, fun _ => reached _ rfl rfl, ?_⟩
    intro other member isOther _ _ _
    rw [here other isOther]
    refine ⟨isMember.trans (leads.trans same.2), ?_⟩
    have members : result.members = group.members.entries.map (·.2) := by
      rw [isResult]
      simp only [Group.resultFor]
      rw [if_pos (leads.trans same.2)]
    rw [members]
    exact roster_of_members (named groupId group isGroup)
  · next follows =>
    refine ⟨⟨known.grouped, known.knows⟩, fun _ => reached _ rfl rfl, ?_⟩
    intro other member isOther _ _ _
    rw [here other isOther]
    intro leads
    exact follows ((isMember.symm.trans leads).trans same.2.symm)

end Consumers

/-- A generation that waits for its leader has no plan; the members of a settled
one have what its plan has for them. -/
structure GroupFollows (plans : Int → Option Plan) (group : Group) : Prop where
  waiting : group.state = .completingRebalance → plans group.generation = none
  served : group.state = .stable → ∃ plan, plans group.generation = some plan ∧
    plan.roster = group.roster ∧ ∀ id member, group.members.find? id = some member →
      plan.assignments.find? id = some member.assignment
  reached : ∀ generation plan, plans generation = some plan → generation ≤ group.generation

section Groups

variable {plans : Int → Option Plan} {group next : Group}

theorem GroupFollows.shift (follows : GroupFollows plans group) (shift : GroupShift group next)
    (outcome : OutcomeShift group next) : GroupFollows plans next := by
  cases shift with
  | quiet state generation leaderId members =>
      refine ⟨?_, ?_, ?_⟩
      · rw [state, generation]
        exact follows.waiting
      · intro stable
        obtain ⟨plan, isPlan, roster, each⟩ := follows.served (state ▸ stable)
        refine ⟨plan, generation ▸ isPlan, ?_, ?_⟩
        · cases outcome with
          | kept _ _ same =>
              simp only [Group.outcome, JoinOutcome.mk.injEq] at same
              exact roster.trans same.2.2.symm
          | unsettled open_ _ => exact absurd (.inr stable) open_
          | renewed later => omega
        · intro id member found
          obtain ⟨old, isOld, same⟩ := members id member found
          rw [same]
          exact each id old isOld
      · rw [generation]
        exact follows.reached
  | restarted state generation =>
      refine ⟨fun completing => by simp [completing] at state, fun stable => by simp [stable] at state, ?_⟩
      rw [generation]
      exact follows.reached
  | completed state generation =>
      have ahead : plans next.generation = none := by
        cases planned : plans next.generation with
        | none => rfl
        | some plan =>
            have behind := follows.reached next.generation plan planned
            omega
      refine ⟨fun _ => ahead, fun stable => by simp [stable] at state, ?_⟩
      intro other plan planned
      have behind := follows.reached other plan planned
      omega

theorem new_group_follows (groupId : Bytes) : GroupFollows (fun _ => none) { id := groupId } :=
  ⟨fun _ => rfl, nofun, nofun⟩

theorem roster_mem {id : Bytes} {member : Member} (found : group.members.find? id = some member) :
    (id, member.subscription) ∈ group.roster :=
  List.mem_map.mpr ⟨(id, member), group.members.mem_entries.mpr found, rfl⟩

theorem GroupFollows.assign (follows : GroupFollows plans group) {assignments : OrderedMap Bytes Bytes}
    (fair : Plan.Fair ⟨group.roster, assignments⟩) (memberId : Bytes) (nowMs : Int) :
    GroupFollows (Function.update plans group.generation (some ⟨group.roster, assignments⟩))
      ((group.touch memberId nowMs).assign assignments) := by
  have roster : ((group.touch memberId nowMs).assign assignments).roster = group.roster := by
    have outcome := (assign_outcome (group.touch memberId nowMs) assignments).trans
      (touch_outcome group memberId nowMs)
    exact congrArg JoinOutcome.roster outcome
  refine ⟨nofun, fun _ => ⟨⟨group.roster, assignments⟩, Function.update_self _ _ _, roster.symm, ?_⟩, ?_⟩
  · intro id member found
    have listed := roster_mem found
    rw [roster] at listed
    obtain ⟨shares, each, _⟩ := fair.divided
    obtain ⟨_, bytes, _, given, _⟩ := each id member.subscription listed
    simp only [Group.assign, OrderedMap.find_map_values, Option.map_eq_some_iff] at found
    obtain ⟨touched, _, same⟩ := found
    simp only at given
    rw [given] at same
    rw [given, ← same]
  · intro generation plan planned
    rw [Function.update_apply] at planned
    split at planned
    · next here => exact here.le
    · exact follows.reached generation plan planned

def SyncsGroup (groupId : Bytes) : GroupCall → Prop
  | .sync target _ _ _ _ => target = groupId
  | _ => False

variable {coordinator : GroupCoordinator} {groupId : Bytes}

theorem group_for_present (present : coordinator.groups.find? groupId = some group) :
    coordinator.groupFor groupId = group := by
  rw [GroupCoordinator.groupFor, present, Option.getD_some]

theorem group_for_absent (absent : coordinator.groups.find? groupId = none) :
    coordinator.groupFor groupId = { id := groupId } := by
  rw [GroupCoordinator.groupFor, absent, Option.getD_none]

/-- A group that has not been there is followed by the first one under its id. -/
theorem GroupFollows.call {call : GroupCall} (follows : GroupFollows plans (coordinator.groupFor groupId))
    (spared : ¬ SyncsGroup groupId call)
    (there : (coordinator.after call).groups.find? groupId = some next) : GroupFollows plans next := by
  cases present : coordinator.groups.find? groupId with
  | none =>
      rw [group_for_absent present] at follows
      exact follows.shift (group_shift_new present there) (outcome_shift_new present there)
  | some group =>
      rw [group_for_present present] at follows
      by_cases sync : call.IsSync
      · cases group_step coordinator call there with
        | kept same =>
            cases present.symm.trans same
            exact follows
        | synced | assigned => exact absurd rfl spared
        | created | issued | joined | beat | left | expired => exact sync.elim
      · exact follows.shift (group_shift sync present there) (outcome_shift present there)

theorem sync_keeps_group (coordinator : GroupCoordinator) (groupId memberId : Bytes) (generation : Int)
    (assignments : OrderedMap Bytes Bytes) (nowMs : Int) (target : Bytes) :
    ((coordinator.sync groupId memberId generation assignments nowMs).1.groups.find? target).isNone =
      (coordinator.groups.find? target).isNone := by
  by_cases current : coordinator.Current groupId memberId generation
  · obtain ⟨group, member, present, known, rfl⟩ := current
    have stored : ∀ changed, ((coordinator.store groupId changed).groups.find? target).isNone =
        (coordinator.groups.find? target).isNone := by
      intro changed
      rw [GroupCoordinator.store, OrderedMap.find_insert]
      split
      · next same => rw [same, present]; rfl
      · rfl
    rw [sync_current coordinator present known]
    split
    · rfl
    split
    · split <;> exact stored _
    · exact stored _
  · obtain ⟨_, _, refused⟩ := sync_refused current assignments nowMs
    rw [refused]

/-- A sync of the group keeps its plans, but for the leader's, which may make
one; what it collects is what the plan has for the member. -/
theorem GroupFollows.sync (follows : GroupFollows plans (coordinator.groupFor groupId))
    (holds : coordinator.Holds) (fair : ∀ generation plan, plans generation = some plan → plan.Fair)
    {memberId : Bytes} {generation : Int} {assignments : OrderedMap Bytes Bytes}
    (agrees : ∀ group member, coordinator.groups.find? groupId = some group → group.IsSettled →
      generation = group.generation → group.members.find? memberId = some member →
      memberId = group.leaderId → Plan.Fair ⟨group.roster, assignments⟩) (nowMs : Int) :
    ∃ later : Int → Option Plan, (∀ generation plan, later generation = some plan → plan.Fair) ∧
      (∀ generation plan, plans generation = some plan → later generation = some plan) ∧
      GroupFollows later
        ((coordinator.sync groupId memberId generation assignments nowMs).1.groupFor groupId) ∧
      ((coordinator.sync groupId memberId generation assignments nowMs).2.error = .none →
        ∃ plan group member, later generation = some plan ∧
          coordinator.groups.find? groupId = some group ∧ group.members.find? memberId = some member ∧
          (memberId, member.subscription) ∈ plan.roster ∧ plan.assignments.find? memberId =
            some (coordinator.sync groupId memberId generation assignments nowMs).2.assignment) := by
  by_cases current : coordinator.Current groupId memberId generation
  · obtain ⟨group, member, present, known, rfl⟩ := current
    rw [sync_current coordinator present known]
    rw [group_for_present present] at follows
    have stored : ∀ changed, (coordinator.store groupId changed).groupFor groupId = changed := by
      intro changed
      exact group_for_present (by rw [GroupCoordinator.store, OrderedMap.find_insert, if_pos rfl])
    have touched : GroupFollows plans (group.touch memberId nowMs) :=
      follows.shift (touch_shift group memberId nowMs) (touch_outcome_shift group memberId nowMs)
    split
    · refine ⟨plans, fair, fun _ _ => id, ?_, by simp⟩
      rw [group_for_present present]
      exact follows
    next notPreparing =>
    split
    · next completing =>
      have unplanned := follows.waiting completing
      split
      · next leads =>
        have plan := agrees group member present (.inl completing) rfl known leads
        obtain ⟨shares, each, _⟩ := plan.divided
        obtain ⟨_, bytes, _, given, _⟩ := each memberId member.subscription (roster_mem known)
        simp only at given
        refine ⟨Function.update plans group.generation (some ⟨group.roster, assignments⟩), ?_, ?_, ?_, ?_⟩
        · intro generation other planned
          rw [Function.update_apply] at planned
          split at planned
          · cases planned
            exact plan
          · exact fair generation other planned
        · intro generation other planned
          have elsewhere : generation ≠ group.generation := by
            intro here
            rw [here, unplanned] at planned
            cases planned
          rw [Function.update_apply, if_neg elsewhere]
          exact planned
        · rw [stored]
          exact follows.assign plan memberId nowMs
        · intro _
          refine ⟨_, group, member, Function.update_self _ _ _, present, known, roster_mem known, ?_⟩
          simp only [given, Option.getD_some]
      · refine ⟨plans, fair, fun _ _ => id, ?_, by simp⟩
        rw [stored]
        exact touched
    · next notCompleting =>
      have stable := stable_of_known (holds groupId group present) known notPreparing notCompleting
      obtain ⟨plan, isPlan, roster, each⟩ := follows.served stable
      refine ⟨plans, fair, fun _ _ => id, ?_, fun _ => ?_⟩
      · rw [stored]
        exact touched
      · exact ⟨plan, group, member, isPlan, present, known, roster ▸ roster_mem known,
          each memberId member known⟩
  · obtain ⟨failure, failed, refused⟩ := sync_refused current assignments nowMs
    rw [refused]
    exact ⟨plans, fair, fun _ _ => id, follows, fun fine => absurd fine failed⟩

end Groups

structure Consuming.Planned (state : Consuming) (plans : Int → Option Plan) : Prop where
  fair : ∀ generation plan, plans generation = some plan → plan.Fair
  group : GroupFollows plans (state.coordinator.groupFor state.groupId)
  given : ∀ grant ∈ state.granted, grant.life = state.life → ∃ plan,
    plans grant.generation = some plan ∧ grant.Follows plan

/-- Whoever synced was subscribed to what it got, and nobody else of its
generation got any of it. -/
def Consuming.Exclusive (state : Consuming) : Prop :=
  ∀ one ∈ state.granted, one.Subscribed ∧ ∀ other ∈ state.granted, other.life = one.life →
    other.generation = one.generation → one.Excludes other

structure Consuming.Holds (state : Consuming) : Prop where
  groups : state.coordinator.Holds
  named : ∀ groupId group, state.coordinator.groups.find? groupId = some group → group.Named
  issued : IssuingHolds state.issuing
  consumers : ∀ index, ConsumerHolds state.groupId state.issuing (state.consumers index)
  planned : ∃ plans, state.Planned plans
  lives : ∀ grant ∈ state.granted, grant.life ≤ state.life
  exclusive : state.Exclusive

section Runs

variable {state next : Consuming}

theorem Consuming.start_holds (groupId : Bytes) (settings : Nat → ConsumerSettings) :
    (Consuming.start groupId settings).Holds where
  groups := nofun
  named := nofun
  issued := issuing_start_holds
  consumers := fun index => @ConsumerKnows.waits groupId Issuing.start
    ((Consuming.start groupId settings).consumers index) ⟨rfl, .inl rfl⟩ id
  planned := ⟨fun _ => none, nofun, new_group_follows groupId, nofun⟩
  lives := nofun
  exclusive := nofun

theorem Consuming.Holds.become (holds : state.Holds) (index : Nat) {consumer : GroupConsumer}
    (kept : ConsumerHolds state.groupId state.issuing consumer) : (state.become index consumer).Holds := by
  obtain ⟨plans, planned⟩ := holds.planned
  refine ⟨holds.groups, holds.named, holds.issued, ?_,
    ⟨plans, planned.fair, planned.group, planned.given⟩, holds.lives, holds.exclusive⟩
  intro other
  simp only [Consuming.become, Function.update_apply]
  split
  · exact kept
  · exact holds.consumers other

theorem Consuming.call_taken (state : Consuming) (call : GroupCall) :
    Issuing.step call state.issuing = some (state.call call).issuing := rfl

/-- A call that is no sync of the group keeps the plans, unless it removes the
group; then there is nothing left of them but what has been handed out. -/
theorem Consuming.Holds.call (holds : state.Holds) {call : GroupCall}
    (spared : ¬ SyncsGroup state.groupId call) : (state.call call).Holds := by
  have taken := state.call_taken call
  refine ⟨after_holds holds.groups call, fun _ _ there => after_named holds.named there,
    issuing_step holds.issued taken, fun index => (holds.consumers index).kept holds.issued taken,
    ?_, ?_, holds.exclusive⟩
  · obtain ⟨plans, planned⟩ := holds.planned
    cases there : (state.coordinator.after call).groups.find? state.groupId with
    | some next =>
        have same : (state.call call).life = state.life := by
          simp only [Consuming.call, there, Option.isNone_some, Bool.false_eq_true, and_false, if_false]
        refine ⟨plans, planned.fair, ?_, ?_⟩
        · have group := planned.group.call spared there
          rw [← group_for_present there] at group
          exact group
        · rw [same]
          exact planned.given
    | none =>
        cases present : state.coordinator.groups.find? state.groupId with
        | none =>
            have same : (state.call call).life = state.life := by
              simp only [Consuming.call, present, Option.isSome_none, Bool.false_eq_true, false_and,
                if_false]
            refine ⟨plans, planned.fair, ?_, ?_⟩
            · have group := planned.group
              rw [group_for_absent present, ← group_for_absent there] at group
              exact group
            · rw [same]
              exact planned.given
        | some group =>
            have later : (state.call call).life = state.life + 1 := by
              simp only [Consuming.call, there, present, Option.isSome_some, Option.isNone_none, and_self,
                if_true]
            refine ⟨fun _ => none, fun _ _ given => absurd given.symm (Option.some_ne_none _), ?_, ?_⟩
            · have group := new_group_follows state.groupId
              rw [← group_for_absent there] at group
              exact group
            · intro grant member now
              have old := holds.lives grant member
              omega
  · intro grant member
    have old := holds.lives grant member
    simp only [Consuming.call]
    split <;> omega

/-- What two members collected in the group's current life follows from its plans. -/
theorem Consuming.Planned.exclusive {plans : Int → Option Plan} (planned : state.Planned plans)
    {one other : Grant} (inside : one ∈ state.granted) (also : other ∈ state.granted)
    (now : one.life = state.life) (same : other.life = one.life)
    (generation : other.generation = one.generation) : one.Excludes other := by
  obtain ⟨plan, isPlan, follows⟩ := planned.given one inside now
  obtain ⟨otherPlan, isOther, otherFollows⟩ := planned.given other also (same.trans now)
  rw [generation, isPlan] at isOther
  cases isOther
  exact follows.excludes otherFollows (planned.fair _ _ isPlan)

theorem Consuming.sync_same_life (state : Consuming) (groupId memberId : Bytes) (generation : Int)
    (assignments : OrderedMap Bytes Bytes) (nowMs : Int) :
    (state.call (.sync groupId memberId generation assignments nowMs)).life = state.life := by
  have stays := sync_keeps_group state.coordinator groupId memberId generation assignments nowMs state.groupId
  simp only [Consuming.call, GroupCoordinator.after, stays]
  rw [if_neg]
  rintro ⟨there, absent⟩
  rw [Option.isNone_iff_eq_none] at absent
  rw [absent] at there
  cases there

theorem Consuming.Holds.grant (holds : state.Holds) {plans : Int → Option Plan}
    (planned : state.Planned plans) {grant : Grant} (now : grant.life = state.life)
    (follows : ∃ plan, plans grant.generation = some plan ∧ grant.Follows plan) :
    Consuming.Holds { state with granted := state.granted ++ [grant] } := by
  have granted : ∀ one ∈ state.granted ++ [grant], one.life = state.life → ∃ plan,
      plans one.generation = some plan ∧ one.Follows plan := by
    intro one inside current
    rcases List.mem_append.mp inside with old | last
    · exact planned.given one old current
    · rw [List.mem_singleton.mp last]
      exact follows
  have still : Consuming.Planned { state with granted := state.granted ++ [grant] } plans :=
    ⟨planned.fair, planned.group, granted⟩
  refine ⟨holds.groups, holds.named, holds.issued, holds.consumers, ⟨plans, still⟩, ?_, ?_⟩
  · intro one inside
    rcases List.mem_append.mp inside with old | last
    · exact holds.lives one old
    · rw [List.mem_singleton.mp last]
      exact now.le
  · intro one inside
    rcases List.mem_append.mp inside with old | last
    · refine ⟨(holds.exclusive one old).1, ?_⟩
      intro other also same generation
      rcases List.mem_append.mp also with alsoOld | alsoLast
      · exact (holds.exclusive one old).2 other alsoOld same generation
      · have current : one.life = state.life := by
          rw [← same, List.mem_singleton.mp alsoLast]
          exact now
        exact still.exclusive inside also current same generation
    · have isGrant := List.mem_singleton.mp last
      obtain ⟨plan, isPlan, given⟩ := follows
      refine ⟨isGrant ▸ given.subscribed (planned.fair _ _ isPlan), ?_⟩
      intro other also same generation
      exact still.exclusive inside also (isGrant ▸ now) same generation

theorem Consuming.Holds.sync (holds : state.Holds) (index : Nat) {assignments : OrderedMap Bytes Bytes}
    (nowMs : Int) (agrees : ∀ group member, state.coordinator.groups.find? state.groupId = some group →
      group.IsSettled → (state.consumers index).generation = group.generation →
      group.members.find? (state.consumers index).memberId = some member →
      (state.consumers index).memberId = group.leaderId → Plan.Fair ⟨group.roster, assignments⟩)
    {answered : SyncResult → GroupConsumer}
    (kept : ∀ issuing result, ConsumerHolds state.groupId issuing (state.consumers index) →
      ConsumerHolds state.groupId issuing (answered result)) :
    (state.sync index assignments nowMs answered).Holds := by
  have grouped := (holds.consumers index).grouped
  obtain ⟨consumer, isConsumer⟩ : ∃ consumer, state.consumers index = consumer := ⟨_, rfl⟩
  unfold Consuming.sync
  simp only [isConsumer] at grouped agrees kept ⊢
  rw [grouped]
  obtain ⟨call, isCall⟩ : ∃ call : GroupCall, call = .sync state.groupId consumer.memberId
    consumer.generation assignments nowMs := ⟨_, rfl⟩
  obtain ⟨plans, planned⟩ := holds.planned
  obtain ⟨later, fair, extends_, follows, granted⟩ :=
    planned.group.sync holds.groups planned.fair agrees nowMs
  rw [← isCall]
  obtain ⟨result, isResult⟩ : ∃ result, (state.coordinator.sync state.groupId consumer.memberId
    consumer.generation assignments nowMs).2 = result := ⟨_, rfl⟩
  rw [isResult] at granted ⊢
  have taken := state.call_taken call
  have same : (state.call call).life = state.life := by
    rw [isCall]
    exact state.sync_same_life _ _ _ _ _
  have isAfter : (state.call call).coordinator = (state.coordinator.sync state.groupId consumer.memberId
      consumer.generation assignments nowMs).1 := by
    rw [isCall]
    rfl
  have called : (state.call call).Planned later := by
    refine ⟨fair, ?_, ?_⟩
    · rw [isAfter]
      exact follows
    · intro grant inside now
      obtain ⟨plan, isPlan, given⟩ := planned.given grant inside (now.trans same)
      exact ⟨plan, extends_ _ _ isPlan, given⟩
  have calledHolds : (state.call call).Holds :=
    ⟨after_holds holds.groups call, fun _ _ there => after_named holds.named there,
      issuing_step holds.issued taken, fun other => (holds.consumers other).kept holds.issued taken,
      ⟨later, called⟩, fun grant inside => (holds.lives grant inside).trans same.ge, holds.exclusive⟩
  have moved : ((state.call call).become index (answered result)).Holds := by
    apply calledHolds.become
    apply kept
    rw [← isConsumer]
    exact (holds.consumers index).kept holds.issued taken
  split
  · next fine =>
    obtain ⟨plan, group, member, isPlan, present, known, listed, given⟩ := granted fine
    have subscription : state.subscriptionOf consumer.memberId = member.subscription := by
      simp only [Consuming.subscriptionOf, present, Option.bind_some, known, Option.map_some,
        Option.getD_some]
    apply moved.grant ⟨called.fair, called.group, called.given⟩ same.symm
    exact ⟨plan, isPlan, subscription ▸ listed, given⟩
  · exact moved

theorem Consuming.Holds.request (holds : state.Holds) {index : Nat} {nowMs : Int} {delivered : Bool}
    (taken : state.request index nowMs delivered = some next) : next.Holds := by
  have consumer := holds.consumers index
  unfold Consuming.request at taken
  simp only at taken
  split at taken
  · cases taken
  · cases taken
    apply (holds.call _).become
    · split
      · apply consumer.joined _ rfl (state.call_taken _) rfl _ _
        · intro groupId group there
          exact after_named holds.named there
        · exact consumer.kept holds.issued (state.call_taken _)
      · exact (consumer.kept holds.issued (state.call_taken _)).toConsumerKnows.thrown
    · exact id
  · next leads =>
    cases taken
    apply holds.become
    split
    · exact consumer.described leads _
    · exact consumer.toConsumerKnows.thrown
  · next assigns =>
    cases taken
    apply holds.sync
    · intro group member present settled same known _
      have agrees := consumer.agrees group member present settled same known
      rw [assigns] at agrees
      exact agrees.2
    · intro issuing result kept
      split
      · exact kept.toConsumerKnows.syncedAsLeader _ result
      · exact kept.toConsumerKnows.thrown
  · next follows =>
    cases taken
    apply holds.sync
    · intro group member present settled same known leads
      have agrees := consumer.agrees group member present settled same known
      rw [follows] at agrees
      exact absurd leads agrees
    · intro issuing result kept
      split
      · exact kept.syncedAsFollower follows result
      · exact kept.toConsumerKnows.thrown

theorem Consuming.Holds.step {action : ConsumerAction} (holds : state.Holds)
    (admitted : state.Admits action) (taken : Consuming.step action state = some next) : next.Holds := by
  cases action with
  | start index =>
      simp only [Consuming.step] at taken
      split at taken
      · cases taken
        have known := (holds.consumers index).toConsumerKnows
        exact holds.become index (@ConsumerKnows.waits _ _
          { state.consumers index with phase := .joining 0 } ⟨known.grouped, known.knows⟩ id)
      · cases taken
  | request index nowMs delivered => exact holds.request taken
  | fail index =>
      cases taken
      exact holds.become index (holds.consumers index).toConsumerKnows.thrown
  | leave index =>
      simp only [Consuming.step] at taken
      split at taken
      · next idle =>
        split at taken
        · cases taken
          exact holds
        · cases taken
          have grouped := (holds.consumers index).grouped
          have waits : ¬ (state.consumers index).left.phase.Settled := by
            simp only [GroupConsumer.left, idle]
            exact id
          apply (holds.call id).become
          exact @ConsumerKnows.waits _ _ (state.consumers index).left ⟨grouped, .inl rfl⟩ waits
      · cases taken
  | hostPartition topic =>
      cases taken
      obtain ⟨plans, planned⟩ := holds.planned
      exact ⟨holds.groups, holds.named, holds.issued, holds.consumers,
        ⟨plans, planned.fair, planned.group, planned.given⟩, holds.lives, holds.exclusive⟩
  | other call =>
      cases taken
      apply holds.call
      cases call with
      | sync => exact admitted
      | join | heartbeat | leave | expire => exact id

end Runs

/-- Between the creation of a group and its removal, no two members collect one
partition in one generation. -/
theorem granted_apart_within_life {groupId : Bytes} {settings : Nat → ConsumerSettings}
    {final : Consuming} (reached : GuardedRun.Reaches Consuming.step Consuming.Admits
      (Consuming.start groupId settings) final) :
    ∀ one ∈ final.granted, one.Subscribed ∧ ∀ other ∈ final.granted, other.life = one.life →
      other.generation = one.generation → one.Excludes other := by
  have holds := reached.invariant _ _ Consuming.Holds (Consuming.start_holds groupId settings)
    fun state action next before admitted taken => before.step admitted taken
  exact holds.exclusive

/-- Nobody else joins or syncs the group, and nobody who leaves or expires is its
last member. -/
def Consuming.Keeps (state : Consuming) (action : ConsumerAction) : Prop :=
  state.Admits action ∧
    match action with
    | .leave index => state.coordinator.empties state.groupId
        (.leave (state.consumers index).groupId (state.consumers index).memberId) = false
    | .other call => state.coordinator.empties state.groupId call = false
    | _ => True

/-- All that has been granted is of one life, which has not ended. -/
structure Consuming.OneLife (state : Consuming) : Prop where
  now : ∀ grant ∈ state.granted, grant.life = state.life
  nobody : (∀ group, state.coordinator.groups.find? state.groupId = some group →
    group.members.isEmpty = true) → state.granted = []

section OneLife

variable {state next : Consuming}

theorem Consuming.OneLife.call (one : state.OneLife) {call : GroupCall}
    (kept : state.coordinator.empties state.groupId call = false) : (state.call call).OneLife := by
  constructor
  · intro grant inside
    have isNow := one.now grant inside
    simp only [Consuming.call]
    split
    · next removed =>
      -- a group that is removed without having been emptied had nobody in it
      have before : state.granted = [] := by
        apply one.nobody
        intro group present
        by_contra occupied
        obtain ⟨later, stays, _⟩ := group_stays present (Bool.not_eq_true _ ▸ occupied) kept
        rw [stays] at removed
        cases removed.2
      have nothing : grant ∈ state.granted := inside
      rw [before] at nothing
      cases nothing
    · exact isNow
  · intro nobody
    apply one.nobody
    intro group present
    by_contra occupied
    obtain ⟨later, stays, still⟩ := group_stays present (Bool.not_eq_true _ ▸ occupied) kept
    have empty := nobody later stays
    rw [still] at empty
    cases empty

theorem joins_empty_nothing {coordinator : GroupCoordinator} {groupId : Bytes} {call : GroupCall}
    (stays : ∀ id, coordinator.removes groupId id call = false) :
    coordinator.empties groupId call = false := by
  unfold GroupCoordinator.empties
  cases present : coordinator.groups.find? groupId with
  | none => rfl
  | some group =>
      simp only [Option.any_some, stays]
      cases entries : group.members.entries with
      | nil => simp [OrderedMap.isEmpty, entries]
      | cons first rest => simp

theorem Consuming.OneLife.sync (one : state.OneLife) (index : Nat) (assignments : OrderedMap Bytes Bytes)
    (nowMs : Int) (answered : SyncResult → GroupConsumer)
    (grouped : (state.consumers index).groupId = state.groupId) :
    (state.sync index assignments nowMs answered).OneLife := by
  have called := one.call (joins_empty_nothing fun id => (rfl : state.coordinator.removes state.groupId id
    (.sync (state.consumers index).groupId (state.consumers index).memberId
      (state.consumers index).generation assignments nowMs) = false))
  unfold Consuming.sync
  simp only
  split
  · next fine =>
    have current : state.coordinator.Current state.groupId (state.consumers index).memberId
        (state.consumers index).generation := by
      by_contra stale
      obtain ⟨failure, failed, refused⟩ := sync_refused stale assignments nowMs
      rw [grouped, refused] at fine
      exact failed fine
    obtain ⟨group, member, present, known, _⟩ := current
    have stays := sync_stays (has_member_iff.mpr ⟨group, member, present, known⟩) state.groupId
      (state.consumers index).memberId (state.consumers index).generation assignments nowMs
    obtain ⟨later, still, there, isStill⟩ := has_member_iff.mp stays
    rw [← grouped] at there
    have same := state.sync_same_life (state.consumers index).groupId (state.consumers index).memberId
      (state.consumers index).generation assignments nowMs
    constructor
    · intro grant inside
      rcases List.mem_append.mp inside with old | last
      · exact (one.now grant old).trans same.symm
      · rw [List.mem_singleton.mp last]
        exact same.symm
    · intro nobody
      rw [grouped] at there
      have after : (state.call (.sync (state.consumers index).groupId (state.consumers index).memberId
          (state.consumers index).generation assignments nowMs)).coordinator.groups.find?
            state.groupId = some later := by
        rw [grouped]
        exact there
      have empty := nobody later after
      rw [find_in_empty empty] at isStill
      cases isStill
  · exact ⟨called.now, called.nobody⟩

theorem Consuming.OneLife.step {action : ConsumerAction} (one : state.OneLife) (holds : state.Holds)
    (kept : state.Keeps action) (taken : Consuming.step action state = some next) : next.OneLife := by
  cases action with
  | start index =>
      simp only [Consuming.step] at taken
      split at taken
      · cases taken
        exact ⟨one.now, one.nobody⟩
      · cases taken
  | request index nowMs delivered =>
      have grouped := (holds.consumers index).grouped
      simp only [Consuming.step, Consuming.request] at taken
      split at taken
      · cases taken
      · cases taken
        have called := one.call (joins_empty_nothing fun id => (rfl :
          state.coordinator.removes state.groupId id (.join (state.consumers index).groupId
            (state.consumers index).memberId (state.consumers index).clientId
            (state.consumers index).topics [(state.consumers index).strategy]
            (state.consumers index).sessionTimeoutMs nowMs) = false))
        exact ⟨called.now, called.nobody⟩
      · cases taken
        exact ⟨one.now, one.nobody⟩
      · cases taken
        exact one.sync index _ nowMs _ grouped
      · cases taken
        exact one.sync index _ nowMs _ grouped
  | fail index =>
      cases taken
      exact ⟨one.now, one.nobody⟩
  | leave index =>
      simp only [Consuming.step] at taken
      split at taken
      · split at taken
        · cases taken
          exact one
        · cases taken
          have called := one.call kept.2
          exact ⟨called.now, called.nobody⟩
      · cases taken
  | hostPartition topic =>
      cases taken
      exact ⟨one.now, one.nobody⟩
  | other call =>
      cases taken
      exact one.call kept.2

end OneLife

/-- As long as nobody empties the group, no two members of a generation ever
collect the same partition. -/
theorem consumers_own_exclusively {groupId : Bytes} {settings : Nat → ConsumerSettings}
    {final : Consuming} (reached : GuardedRun.Reaches Consuming.step Consuming.Keeps
      (Consuming.start groupId settings) final) :
    ∀ one ∈ final.granted, one.Subscribed ∧ ∀ other ∈ final.granted,
      other.generation = one.generation → one.Excludes other := by
  have kept := reached.invariant _ _ (fun state => state.Holds ∧ state.OneLife)
    ⟨Consuming.start_holds groupId settings, ⟨nofun, fun _ => rfl⟩⟩
    fun state action next before admitted taken =>
      ⟨before.1.step admitted.1 taken, before.2.step before.1 admitted taken⟩
  intro one inside
  refine ⟨(kept.1.exclusive one inside).1, ?_⟩
  intro other also generation
  have same : other.life = one.life := (kept.2.now other also).trans (kept.2.now one inside).symm
  exact (kept.1.exclusive one inside).2 other also same generation

instance (state : Consuming) (action : ConsumerAction) : Decidable (state.Admits action) :=
  match action with
  | .other (.join target _ _ _ _ _ _) => inferInstanceAs (Decidable (target ≠ state.groupId))
  | .other (.sync target _ _ _ _) => inferInstanceAs (Decidable (target ≠ state.groupId))
  | .other (.heartbeat ..) | .other (.leave ..) | .other (.expire _) => .isTrue trivial
  | .start _ | .request .. | .fail _ | .leave _ | .hostPartition _ => .isTrue trivial

def lettered (index : Nat) : ConsumerSettings := ⟨[97 + UInt8.ofNat index], [[116]], [114], 10000⟩

instance (state : Consuming) (action : ConsumerAction) : Decidable (state.Keeps action) :=
  match action with
  | .leave index => inferInstanceAs (Decidable (state.Admits (.leave index) ∧
      state.coordinator.empties state.groupId
        (.leave (state.consumers index).groupId (state.consumers index).memberId) = false))
  | .other call => inferInstanceAs (Decidable (state.Admits (.other call) ∧
      state.coordinator.empties state.groupId call = false))
  | .start _ | .request .. | .fail _ | .hostPartition _ => .isTrue ⟨trivial, trivial⟩

/-- The second consumer joins before the first has synced, which has to come
back for the next generation. -/
def twoAtOnce : List ConsumerAction :=
  [.hostPartition [116], .hostPartition [116], .start 0, .request 0 0 true, .start 1, .request 1 0 true,
    .request 0 0 true, .request 0 0 true, .request 0 0 true, .request 0 0 true, .request 0 0 true,
    .request 1 0 true, .request 1 0 true]

theorem consumers_own_exclusively_two : ∃ (final : Consuming) (one other : Grant),
    final.granted = [one, other] ∧ one.memberId ≠ other.memberId ∧
      decodeAssignment one.assignment = .ok [⟨[116], 0⟩] ∧
      decodeAssignment other.assignment = .ok [⟨[116], 1⟩] ∧
      one.Subscribed ∧ one.Excludes other := by
  obtain ⟨final, reached, checked⟩ := GuardedRun.found_by_run Consuming.step Consuming.Keeps
    (Consuming.start [103] lettered)
    (fun state => state.granted.map (fun grant => (grant.generation, grant.memberId)) =
        [(2, [97, 45, 49]), (2, [98, 45, 50])] &&
      (state.granted.map fun grant => decodeAssignment grant.assignment) =
        [.ok [⟨[116], 0⟩], .ok [⟨[116], 1⟩]])
    twoAtOnce (by decide +kernel)
  simp only [Bool.and_eq_true, decide_eq_true_eq] at checked
  obtain ⟨grants, shares⟩ := checked
  obtain ⟨one, other, listed⟩ := List.length_eq_two.mp (by simpa using congrArg List.length grants)
  simp only [listed, List.map_cons, List.map_nil, List.cons.injEq, Prod.mk.injEq, and_true] at grants shares
  obtain ⟨⟨generation, name⟩, otherGeneration, otherName⟩ := grants
  have owns := consumers_own_exclusively reached one (by simp [listed])
  refine ⟨final, one, other, listed, by simp [name, otherName], shares.1, shares.2, owns.1, ?_⟩
  exact owns.2 other (by simp [listed]) (otherGeneration.trans generation.symm)

/-- The second consumer comes when the first has left: the group counts its
generations from one again, and hands the same partition out. -/
def oneByOne : List ConsumerAction :=
  [.hostPartition [116], .start 0, .request 0 0 true, .request 0 0 true, .request 0 0 true, .leave 0,
    .start 1, .request 1 0 true, .request 1 0 true, .request 1 0 true]

theorem next_life_counts_again :
    ¬ ∀ (groupId : Bytes) (settings : Nat → ConsumerSettings) (final : Consuming),
      GuardedRun.Reaches Consuming.step Consuming.Admits (Consuming.start groupId settings) final →
        ∀ one ∈ final.granted, ∀ other ∈ final.granted, other.generation = one.generation →
          one.Excludes other := by
  intro all
  obtain ⟨final, reached, checked⟩ := GuardedRun.found_by_run Consuming.step Consuming.Admits
    (Consuming.start [103] lettered)
    (fun state => state.granted.map (fun grant => (grant.generation, grant.memberId)) =
        [(1, [97, 45, 49]), (1, [98, 45, 50])] &&
      (state.granted.map fun grant => decodeAssignment grant.assignment) =
        [.ok [⟨[116], 0⟩], .ok [⟨[116], 0⟩]])
    oneByOne (by decide +kernel)
  simp only [Bool.and_eq_true, decide_eq_true_eq] at checked
  obtain ⟨grants, shares⟩ := checked
  obtain ⟨one, other, listed⟩ := List.length_eq_two.mp (by simpa using congrArg List.length grants)
  simp only [listed, List.map_cons, List.map_nil, List.cons.injEq, Prod.mk.injEq, and_true] at grants shares
  obtain ⟨⟨generation, name⟩, otherGeneration, otherName⟩ := grants
  have apart := all _ _ final reached one (by simp [listed]) other (by simp [listed])
    (otherGeneration.trans generation.symm) _ _ shares.1 shares.2
  exact apart.1 (by simp [name, otherName]) ⟨[116], 0⟩ (by simp) (by simp)

end DariyaKyu.Cli

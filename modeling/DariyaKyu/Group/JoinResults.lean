import DariyaKyu.Group.GroupInvariants

/-!
What joins are told. A rebalance that completes settles who leads, what protocol
the group speaks and who is in it; every join that is answered without an error
before the next rebalance begins, by the completing join or by a retry on either
side of the leader's sync, is told the same. A change of the membership goes
through a rebalance, and answers nobody until it has completed.
-/

namespace DariyaKyu.Groups

set_option autoImplicit false

open Protocol

/-- Who is in the group, and what each of them subscribes to. -/
abbrev Roster := List (Bytes × List Bytes)

structure JoinOutcome where
  leaderId : Bytes
  protocolName : Bytes
  roster : Roster
  deriving DecidableEq

namespace Group

def roster (group : Group) : Roster :=
  group.members.entries.map fun entry => (entry.1, entry.2.subscription)

def outcome (group : Group) : JoinOutcome := ⟨group.leaderId, group.protocolName, group.roster⟩

def IsSettled (group : Group) : Prop :=
  group.state = .completingRebalance ∨ group.state = .stable

end Group

/-- What a call can do to the outcome of a group: keep it, throw it away, or put
the one of the next generation in its place. -/
inductive OutcomeShift (before after : Group) : Prop where
  | kept (settled : before.IsSettled) (generation : after.generation = before.generation)
      (outcome : after.outcome = before.outcome)
  | unsettled (open_ : ¬ after.IsSettled) (generation : after.generation = before.generation)
  | renewed (generation : after.generation = before.generation + 1)

section OneGroup

variable {group : Group}

theorem roster_map_values (change : Bytes → Member → Member)
    (same : ∀ id member, (change id member).subscription = member.subscription) {state : GroupState} :
    Group.roster { group with members := group.members.mapValues change, state := state } =
      group.roster := by
  simp only [Group.roster, OrderedMap.mapValues, List.map_map]
  apply List.map_congr_left
  intro entry _
  simp [same]

theorem touch_outcome (group : Group) (id : Bytes) (nowMs : Int) :
    (group.touch id nowMs).outcome = group.outcome := by
  have roster : (group.touch id nowMs).roster = group.roster := by
    apply roster_map_values
    intro other member
    split <;> rfl
  simp only [Group.outcome, roster]
  rfl

theorem assign_outcome (group : Group) (assignments : OrderedMap Bytes Bytes) :
    (group.assign assignments).outcome = group.outcome := by
  have roster : (group.assign assignments).roster = group.roster := by
    apply roster_map_values
    intro id member
    split <;> rfl
  simp only [Group.outcome, roster]
  rfl

theorem outcome_shift_kept {next : Group} (settles : next.IsSettled → group.IsSettled)
    (generation : next.generation = group.generation) (outcome : next.outcome = group.outcome) :
    OutcomeShift group next := by
  by_cases settled : group.IsSettled
  · exact .kept settled generation outcome
  · exact .unsettled (fun after => settled (settles after)) generation

theorem touch_outcome_shift (group : Group) (id : Bytes) (nowMs : Int) :
    OutcomeShift group (group.touch id nowMs) :=
  outcome_shift_kept (fun settled => settled) rfl (touch_outcome group id nowMs)

theorem complete_join_outcome_shift {before : Group} (preparing : group.state = .preparingRebalance)
    (generation : group.generation = before.generation) :
    OutcomeShift before group.maybeCompleteJoin := by
  rcases complete_join_cases group with ⟨_, completed⟩ | ⟨_, _, _, _, completed⟩ | ⟨_, _, _, _, completed⟩
  · rw [completed]
    exact .unsettled (by simp [Group.IsSettled]) generation
  · rw [completed]
    exact .unsettled (by simp [Group.IsSettled, preparing]) generation
  · rw [completed]
    apply OutcomeShift.renewed
    rw [generation]

theorem join_outcome_shift (group : Group) (id clientId : Bytes) (subscription protocols : List Bytes)
    (sessionTimeoutMs nowMs : Int) :
    OutcomeShift group (group.join id clientId subscription protocols sessionTimeoutMs nowMs).1 := by
  rcases join_cases group id clientId subscription protocols sessionTimeoutMs nowMs with
    ⟨_, joined⟩ | ⟨_, joined⟩
  · rw [joined]
    exact touch_outcome_shift group id nowMs
  · obtain ⟨state, generation⟩ :=
      rejoining_state group id clientId subscription protocols sessionTimeoutMs nowMs
    rw [joined]
    exact complete_join_outcome_shift state generation

theorem expire_outcome_shift (group : Group) (nowMs : Int) :
    OutcomeShift group (group.expire nowMs) := by
  rcases expire_cases group nowMs with rebalanced | same
  · rw [rebalanced]
    exact complete_join_outcome_shift rfl rfl
  · rw [same]
    exact outcome_shift_kept (fun settled => settled) rfl rfl

end OneGroup

theorem outcome_shift {coordinator : GroupCoordinator} {call : GroupCall} {groupId : Bytes}
    {group next : Group} (present : coordinator.groups.find? groupId = some group)
    (there : (coordinator.after call).groups.find? groupId = some next) : OutcomeShift group next := by
  cases group_step coordinator call there with
  | kept same =>
      cases present.symm.trans same
      exact outcome_shift_kept (fun settled => settled) rfl rfl
  | created absent =>
      rw [present] at absent
      cases absent
  | issued named =>
      simp only [GroupCoordinator.groupFor, present, Option.getD_some]
      exact join_outcome_shift group _ _ _ _ _ _
  | joined was known =>
      cases present.symm.trans was
      exact join_outcome_shift group _ _ _ _ _ _
  | synced was | beat was =>
      cases present.symm.trans was
      exact touch_outcome_shift group _ _
  | @assigned _ _ nowMs assignments was known completing =>
      cases present.symm.trans was
      have outcome : ((group.touch group.leaderId nowMs).assign assignments).outcome = group.outcome :=
        (assign_outcome _ _).trans (touch_outcome group group.leaderId nowMs)
      exact outcome_shift_kept (fun _ => .inl completing) rfl outcome
  | left was =>
      cases present.symm.trans was
      exact complete_join_outcome_shift rfl rfl
  | expired was =>
      cases present.symm.trans was
      exact expire_outcome_shift group _

/-- A group that a call creates has not settled, or has settled its first generation. -/
theorem outcome_shift_new {coordinator : GroupCoordinator} {call : GroupCall} {groupId : Bytes}
    {next : Group} (absent : coordinator.groups.find? groupId = none)
    (there : (coordinator.after call).groups.find? groupId = some next) :
    OutcomeShift { id := groupId } next := by
  cases group_step coordinator call there with
  | kept same =>
      rw [absent] at same
      cases same
  | created _ => exact .unsettled (by simp [Group.IsSettled]) rfl
  | issued named =>
      simp only [GroupCoordinator.groupFor, absent, Option.getD_none]
      exact join_outcome_shift _ _ _ _ _ _ _
  | joined was | synced was | beat was | left was | expired was =>
      rw [absent] at was
      cases was
  | assigned was known completing =>
      rw [absent] at was
      cases was

def Group.Named (group : Group) : Prop :=
  ∀ id member, group.members.find? id = some member → member.memberId = id

section Names

variable {group : Group}

theorem named_map_values (named : group.Named) (change : Bytes → Member → Member)
    (same : ∀ id member, (change id member).memberId = member.memberId) {id : Bytes} {member : Member}
    (found : (group.members.mapValues change).find? id = some member) : member.memberId = id := by
  rw [OrderedMap.find_map_values, Option.map_eq_some_iff] at found
  obtain ⟨old, isOld, rfl⟩ := found
  rw [same]
  exact named id old isOld

theorem touch_named (named : group.Named) (id : Bytes) (nowMs : Int) :
    (group.touch id nowMs).Named := by
  intro other member found
  apply named_map_values named _ _ found
  intro other member
  split <;> rfl

theorem assign_named (named : group.Named) (assignments : OrderedMap Bytes Bytes) :
    (group.assign assignments).Named := by
  intro id member found
  apply named_map_values named _ _ found
  intro other member
  split <;> rfl

theorem begin_rebalance_named (named : group.Named) : group.beginRebalance.Named := by
  intro id member found
  apply named_map_values named _ _ found
  intro other member
  rfl

theorem complete_join_named (named : group.Named) : group.maybeCompleteJoin.Named := by
  intro id member found
  rw [complete_join_members] at found
  exact named id member found

theorem join_named (named : group.Named) (id clientId : Bytes) (subscription protocols : List Bytes)
    (sessionTimeoutMs nowMs : Int) :
    (group.join id clientId subscription protocols sessionTimeoutMs nowMs).1.Named := by
  rcases join_cases group id clientId subscription protocols sessionTimeoutMs nowMs with
    ⟨_, joined⟩ | ⟨_, joined⟩
  · rw [joined]
    exact touch_named named id nowMs
  · rw [joined]
    apply complete_join_named
    intro other member found
    simp only [Group.rejoining, Group.enroll, OrderedMap.find_insert] at found
    split at found
    · next same =>
      rw [same, ← Option.some.inj found]
    split at found
    · exact named other member found
    · exact begin_rebalance_named named other member found

theorem after_named {coordinator : GroupCoordinator}
    (named : ∀ groupId group, coordinator.groups.find? groupId = some group → group.Named)
    {call : GroupCall} {groupId : Bytes} {next : Group}
    (there : (coordinator.after call).groups.find? groupId = some next) : next.Named := by
  cases group_step coordinator call there with
  | kept same => exact named groupId next same
  | created absent => exact nofun
  | issued isNamed =>
      apply join_named
      unfold GroupCoordinator.groupFor
      cases present : coordinator.groups.find? groupId with
      | none => exact nofun
      | some group => exact named groupId group present
  | joined present known => exact join_named (named groupId _ present) _ _ _ _ _ _
  | synced present | beat present => exact touch_named (named groupId _ present) _ _
  | assigned present known completing =>
      exact assign_named (touch_named (named groupId _ present) _ _) _
  | left present =>
      apply complete_join_named
      apply begin_rebalance_named
      intro id member found
      simp only [OrderedMap.find_erase] at found
      split at found
      · cases found
      · exact named groupId _ present id member found
  | @expired group nowMs present =>
      rcases expire_cases group nowMs with rebalanced | same
      · rw [rebalanced]
        apply complete_join_named
        apply begin_rebalance_named
        intro id member found
        rw [OrderedMap.find_filter] at found
        exact named groupId _ present id member (Option.filter_eq_some_iff.mp found).1
      · rw [same]
        exact named groupId _ present

end Names

/-- What a join was told, and who was in its group right after it. -/
structure Answer where
  result : JoinResult
  roster : Roster

/-- A coordinator; for each group, from its creation to its removal, what each
completed rebalance settled; and what the joins of the group were told. -/
structure Joining where
  coordinator : GroupCoordinator
  outcomes : Bytes → Int → Option JoinOutcome
  answers : Bytes → List Answer

namespace Joining

def start : Joining := ⟨{}, fun _ _ => none, fun _ => []⟩

def outcomesAfter (state : Joining) (call : GroupCall) (groupId : Bytes) : Int → Option JoinOutcome :=
  match (state.coordinator.after call).groups.find? groupId with
  | none => fun _ => none
  | some next =>
      if next.generation = (state.coordinator.groupFor groupId).generation then state.outcomes groupId
      else Function.update (state.outcomes groupId) next.generation (some next.outcome)

def answersAfter (state : Joining) (call : GroupCall) (groupId : Bytes) : List Answer :=
  match (state.coordinator.after call).groups.find? groupId, call with
  | none, _ => []
  | some next, .join target memberId clientId subscription protocols sessionTimeoutMs nowMs =>
      if target = groupId then
        state.answers groupId ++
          [⟨(state.coordinator.join target memberId clientId subscription protocols sessionTimeoutMs
            nowMs).2, next.roster⟩]
      else state.answers groupId
  | some _, _ => state.answers groupId

def step (call : GroupCall) (state : Joining) : Option Joining :=
  some ⟨state.coordinator.after call, state.outcomesAfter call, state.answersAfter call⟩

end Joining

/-- A refusal lists nobody; any other answer is what its generation has settled,
and lists the roster when it goes to the leader. -/
structure Answer.Agrees (answer : Answer) (outcomes : Int → Option JoinOutcome) : Prop where
  refused : answer.result.error ≠ .none → answer.result.members = []
  told : answer.result.error = .none → ∃ outcome,
    outcomes answer.result.generation = some outcome ∧ answer.result.leaderId = outcome.leaderId ∧
      answer.result.protocolName = outcome.protocolName ∧ answer.roster = outcome.roster ∧
      outcome.roster ≠ [] ∧
      answer.result.members.map (fun member => (member.memberId, member.subscription)) =
        if answer.result.memberId = outcome.leaderId then outcome.roster else []

structure Joining.GroupMatches (state : Joining) (groupId : Bytes) (group : Group) : Prop where
  settled : group.IsSettled → state.outcomes groupId group.generation = some group.outcome
  reached : ∀ generation outcome, state.outcomes groupId generation = some outcome →
    generation ≤ group.generation
  answered : ∀ answer ∈ state.answers groupId, answer.Agrees (state.outcomes groupId)

structure Joining.Holds (state : Joining) : Prop where
  named : ∀ groupId group, state.coordinator.groups.find? groupId = some group → group.Named
  matched : ∀ groupId group, state.coordinator.groups.find? groupId = some group →
    state.GroupMatches groupId group
  absent : ∀ groupId, state.coordinator.groups.find? groupId = none →
    state.outcomes groupId = (fun _ => none) ∧ state.answers groupId = []

/-- An answer of one group to a join: it is told to come back, or the group has
settled and it is told the result. -/
theorem join_answer (group : Group) (id clientId : Bytes) (subscription protocols : List Bytes)
    (sessionTimeoutMs nowMs : Int) :
    ((group.join id clientId subscription protocols sessionTimeoutMs nowMs).2.error ≠ .none ∧
        (group.join id clientId subscription protocols sessionTimeoutMs nowMs).2.members = []) ∨
      (group.join id clientId subscription protocols sessionTimeoutMs nowMs).1.IsSettled ∧
        (group.join id clientId subscription protocols sessionTimeoutMs nowMs).2 =
          (group.join id clientId subscription protocols sessionTimeoutMs nowMs).1.resultFor id := by
  unfold Group.join
  split
  · next retry =>
    right
    refine ⟨?_, rfl⟩
    unfold Group.isRetry at retry
    split at retry
    · cases retry
    · simp only [Bool.and_eq_true, Bool.or_eq_true, beq_iff_eq] at retry
      exact retry.1.1
  · simp only
    have occupied : (group.rejoining id clientId subscription protocols sessionTimeoutMs
        nowMs).members.isEmpty ≠ true := by
      rw [Ne, OrderedMap.is_empty_iff]
      intro nobody
      have here := nobody id
      simp [Group.rejoining, Group.enroll] at here
    rcases complete_join_cases (group.rejoining id clientId subscription protocols sessionTimeoutMs
      nowMs) with ⟨nobody, _⟩ | ⟨_, _, _, _, completed⟩ | ⟨_, _, _, _, completed⟩
    · exact absurd nobody occupied
    · have preparing := (rejoining_state group id clientId subscription protocols sessionTimeoutMs
        nowMs).1
      rw [completed, if_pos preparing]
      exact .inl ⟨by simp, rfl⟩
    · rw [completed, if_neg (by simp)]
      exact .inr ⟨.inl rfl, rfl⟩

theorem coordinator_join_answer (coordinator : GroupCoordinator) (groupId memberId clientId : Bytes)
    (subscription protocols : List Bytes) (sessionTimeoutMs nowMs : Int) {next : Group}
    (there : (coordinator.join groupId memberId clientId subscription protocols sessionTimeoutMs
      nowMs).1.groups.find? groupId = some next) :
    ((coordinator.join groupId memberId clientId subscription protocols sessionTimeoutMs
        nowMs).2.error ≠ .none ∧
      (coordinator.join groupId memberId clientId subscription protocols sessionTimeoutMs
        nowMs).2.members = []) ∨
      next.IsSettled ∧ ∃ id, (coordinator.join groupId memberId clientId subscription protocols
        sessionTimeoutMs nowMs).2 = next.resultFor id := by
  unfold GroupCoordinator.join at there ⊢
  split
  · exact .inl ⟨by simp, rfl⟩
  next named =>
  rw [if_neg named] at there
  simp only at there ⊢
  split
  · next fresh =>
    rw [if_pos fresh] at there
    simp only [GroupCoordinator.store, OrderedMap.find_insert, if_true, Option.some.injEq] at there
    subst there
    exact (join_answer _ _ _ _ _ _ _).imp_right fun both => ⟨both.1, _, both.2⟩
  split
  · exact .inl ⟨by simp, rfl⟩
  · next fresh known =>
    rw [if_neg fresh, if_neg known] at there
    simp only [GroupCoordinator.store, OrderedMap.find_insert, if_true, Option.some.injEq] at there
    subst there
    exact (join_answer _ _ _ _ _ _ _).imp_right fun both => ⟨both.1, _, both.2⟩

theorem roster_of_members {group : Group} (named : group.Named) :
    (group.members.entries.map (·.2)).map (fun member => (member.memberId, member.subscription)) =
      group.roster := by
  rw [List.map_map]
  apply List.map_congr_left
  rintro ⟨id, member⟩ inside
  have same := named id member (group.members.mem_entries.mp inside)
  simp [same]

theorem result_for_agrees {next : Group} {outcomes : Int → Option JoinOutcome} (named : next.Named)
    (holds : GroupHolds next) (reached : next.IsSettled)
    (settled : outcomes next.generation = some next.outcome) (id : Bytes) :
    Answer.Agrees ⟨next.resultFor id, next.roster⟩ outcomes := by
  refine ⟨fun refused => absurd rfl refused, fun _ => ⟨next.outcome, settled, rfl, rfl, rfl, ?_, ?_⟩⟩
  · obtain ⟨leader, first, _⟩ := (holds.settled reached).leads
    intro nobody
    simp only [Group.outcome, Group.roster, List.map_eq_nil_iff] at nobody
    simp [OrderedMap.first?, nobody] at first
  · by_cases leads : id = next.leaderId
    · simp only [Group.resultFor, Group.outcome, leads, if_true]
      exact roster_of_members named
    · simp only [Group.resultFor, Group.outcome, leads, if_false, List.map_nil]

theorem Answer.Agrees.mono {answer : Answer} {outcomes later : Int → Option JoinOutcome}
    (agrees : answer.Agrees outcomes)
    (kept : ∀ generation outcome, outcomes generation = some outcome →
      later generation = some outcome) : answer.Agrees later := by
  refine ⟨agrees.refused, ?_⟩
  intro fine
  obtain ⟨outcome, settled, rest⟩ := agrees.told fine
  exact ⟨outcome, kept _ _ settled, rest⟩

/-- What a call makes of the ledger of a group that it leaves behind. -/
theorem outcomes_step {state : Joining} (holds : state.Holds) {call : GroupCall} {groupId : Bytes}
    {next : Group} (there : (state.coordinator.after call).groups.find? groupId = some next) :
    (next.IsSettled → state.outcomesAfter call groupId next.generation = some next.outcome) ∧
      (∀ generation outcome, state.outcomesAfter call groupId generation = some outcome →
        generation ≤ next.generation) ∧
      ∀ generation outcome, state.outcomes groupId generation = some outcome →
        state.outcomesAfter call groupId generation = some outcome := by
  have ledger : state.outcomesAfter call groupId =
      if next.generation = (state.coordinator.groupFor groupId).generation then state.outcomes groupId
      else Function.update (state.outcomes groupId) next.generation (some next.outcome) := by
    unfold Joining.outcomesAfter
    simp only [there]
  have before : OutcomeShift (state.coordinator.groupFor groupId) next ∧
      ((state.coordinator.groupFor groupId).IsSettled →
        state.outcomes groupId (state.coordinator.groupFor groupId).generation =
          some (state.coordinator.groupFor groupId).outcome) ∧
      ∀ generation outcome, state.outcomes groupId generation = some outcome →
        generation ≤ (state.coordinator.groupFor groupId).generation := by
    unfold GroupCoordinator.groupFor
    cases present : state.coordinator.groups.find? groupId with
    | none =>
        refine ⟨outcome_shift_new present there, by simp [Group.IsSettled], ?_⟩
        simp [(holds.absent groupId present).1]
    | some group =>
        have matched := holds.matched groupId group present
        exact ⟨outcome_shift present there, matched.settled, matched.reached⟩
  obtain ⟨shift, settled, reached⟩ := before
  rw [ledger]
  cases shift with
  | kept was generation outcome =>
      rw [if_pos generation]
      refine ⟨fun _ => ?_, ?_, fun _ _ same => same⟩
      · rw [generation, outcome]
        exact settled was
      · rw [generation]
        exact reached
  | unsettled open_ generation =>
      rw [if_pos generation]
      refine ⟨fun closed => absurd closed open_, ?_, fun _ _ same => same⟩
      rw [generation]
      exact reached
  | renewed generation =>
      -- the ledger has nothing about the generation that begins
      rw [if_neg (by omega)]
      refine ⟨fun _ => Function.update_self _ _ _, ?_, ?_⟩
      · intro other outcome found
        by_cases same : other = next.generation
        · omega
        · rw [Function.update_of_ne same] at found
          have bound := reached other outcome found
          omega
      · intro other outcome found
        have bound := reached other outcome found
        rw [Function.update_of_ne (by omega)]
        exact found

theorem joining_step {state next : Joining} {call : GroupCall} (groups : state.coordinator.Holds)
    (holds : state.Holds) (taken : Joining.step call state = some next) : next.Holds := by
  cases taken
  refine ⟨fun groupId group there => after_named holds.named there, ?_, ?_⟩
  · intro groupId group there
    obtain ⟨settled, reached, kept⟩ := outcomes_step holds there
    refine ⟨settled, reached, ?_⟩
    have earlier : ∀ answer ∈ state.answers groupId,
        answer.Agrees (state.outcomesAfter call groupId) := by
      intro answer member
      cases present : state.coordinator.groups.find? groupId with
      | none =>
          rw [(holds.absent groupId present).2] at member
          cases member
      | some before => exact ((holds.matched groupId before present).answered answer member).mono kept
    intro answer member
    simp only [Joining.answersAfter, there] at member
    cases call with
    | join target memberId clientId subscription protocols sessionTimeoutMs nowMs =>
        simp only at member
        split at member
        · next here =>
          subst here
          rcases List.mem_append.mp member with was | now
          · exact earlier answer was
          · cases List.mem_singleton.mp now
            rcases coordinator_join_answer state.coordinator target memberId clientId subscription
              protocols sessionTimeoutMs nowMs there with ⟨refused, nobody⟩ | ⟨closed, id, told⟩
            · exact ⟨fun _ => nobody, fun fine => absurd fine refused⟩
            · rw [told]
              exact result_for_agrees (after_named holds.named there)
                (after_holds groups _ target group there) closed (settled closed) id
        · exact earlier answer member
    | sync | heartbeat | leave | expire => exact earlier answer member
  · intro groupId gone
    simp only [Joining.outcomesAfter, Joining.answersAfter, gone, and_self]

theorem joining_start_holds : Joining.start.Holds :=
  ⟨nofun, nofun, fun _ _ => ⟨rfl, rfl⟩⟩

/-- Between the creation and the removal of a group, the joins that succeed with
one generation name one leader and one protocol, and only the leader is given a
list of members: the members of that generation, with what they subscribe to
when the answer is given. -/
theorem join_results_agree {final : Joining}
    (reached : GuardedRun.Reaches Joining.step (fun _ _ => True) Joining.start final) (groupId : Bytes) :
    (∀ first ∈ final.answers groupId, ∀ second ∈ final.answers groupId,
      first.result.error = .none → second.result.error = .none →
      first.result.generation = second.result.generation →
        first.result.leaderId = second.result.leaderId ∧
          first.result.protocolName = second.result.protocolName ∧
          (first.result.members ≠ [] → second.result.members ≠ [] →
            first.result.memberId = second.result.memberId)) ∧
      ∀ answer ∈ final.answers groupId,
        (answer.result.error ≠ .none → answer.result.members = []) ∧
        (answer.result.error = .none →
          (answer.result.members ≠ [] ↔ answer.result.memberId = answer.result.leaderId)) ∧
        (answer.result.members ≠ [] → ∃ outcome,
          final.outcomes groupId answer.result.generation = some outcome ∧
            answer.result.members.map (fun member => (member.memberId, member.subscription)) =
              outcome.roster ∧
            answer.roster = outcome.roster) := by
  have kept := reached.invariant _ _ (fun state => state.coordinator.Holds ∧ state.Holds)
    ⟨nofun, joining_start_holds⟩ (by
      intro state call next both _ taken
      refine ⟨?_, joining_step both.1 both.2 taken⟩
      cases taken
      exact after_holds both.1 call)
  have agrees : ∀ answer ∈ final.answers groupId, answer.Agrees (final.outcomes groupId) := by
    intro answer member
    cases present : final.coordinator.groups.find? groupId with
    | none =>
        rw [(kept.2.absent groupId present).2] at member
        cases member
    | some group => exact (kept.2.matched groupId group present).answered answer member
  have lists : ∀ answer ∈ final.answers groupId, answer.result.error = .none →
      (answer.result.members ≠ [] ↔ answer.result.memberId = answer.result.leaderId) := by
    intro answer member fine
    obtain ⟨outcome, _, leader, _, _, occupied, members⟩ := (agrees answer member).told fine
    rw [leader, Ne, ← List.map_eq_nil_iff (f := fun member => (member.memberId, member.subscription)),
      members]
    by_cases leads : answer.result.memberId = outcome.leaderId
    · simp [leads, occupied]
    · simp [leads]
  constructor
  · intro first isFirst second isSecond firstFine secondFine same
    obtain ⟨one, oneSettled, oneLeader, oneProtocol, _⟩ := (agrees first isFirst).told firstFine
    obtain ⟨two, twoSettled, twoLeader, twoProtocol, _⟩ := (agrees second isSecond).told secondFine
    rw [same, twoSettled] at oneSettled
    cases oneSettled
    refine ⟨oneLeader.trans twoLeader.symm, oneProtocol.trans twoProtocol.symm, ?_⟩
    intro firstLists secondLists
    have firstLeads := (lists first isFirst firstFine).mp firstLists
    have secondLeads := (lists second isSecond secondFine).mp secondLists
    rw [firstLeads, secondLeads, oneLeader, twoLeader]
  · intro answer member
    refine ⟨(agrees answer member).refused, lists answer member, ?_⟩
    intro listed
    by_cases fine : answer.result.error = .none
    · obtain ⟨outcome, settled, leader, _, roster, _, members⟩ := (agrees answer member).told fine
      have leads := (lists answer member fine).mp listed
      rw [if_pos (leads.trans leader)] at members
      exact ⟨outcome, settled, members, roster⟩
    · exact absurd ((agrees answer member).refused fine) listed

/-- A second consumer joins the first one; both come back for the outcome. -/
def bothCollect : List GroupCall :=
  [.join [103] [] [97] [[116]] [[114]] 10000 0, .join [103] [] [98] [[117]] [[114]] 10000 0,
    .join [103] [97, 45, 49] [97] [[116]] [[114]] 10000 0,
    .join [103] [98, 45, 50] [98] [[117]] [[114]] 10000 0]

theorem join_results_agree_both :
    ∃ (final : Joining) (leading following : Answer),
      leading ∈ final.answers [103] ∧ following ∈ final.answers [103] ∧
      leading.result.generation = 2 ∧ following.result.generation = 2 ∧
      leading.result.leaderId = following.result.leaderId ∧ leading.result.members.length = 2 ∧
      following.result.members = [] ∧ following.result.memberId ≠ following.result.leaderId := by
  obtain ⟨final, reached, checked⟩ := GuardedRun.found_by_run Joining.step (fun _ _ => True)
    Joining.start
    (fun state => (state.answers [103]).any (fun answer => answer.result.error == .none &&
        answer.result.generation == 2 && answer.result.members.length == 2) &&
      (state.answers [103]).any fun answer => answer.result.error == .none &&
        answer.result.generation == 2 && answer.result.members == [])
    bothCollect (by decide +kernel)
  simp only [Bool.and_eq_true, List.any_eq_true, beq_iff_eq] at checked
  obtain ⟨⟨leading, isLeading, ⟨leadingFine, second⟩, both⟩,
    ⟨following, isFollowing, ⟨followingFine, alsoSecond⟩, nobody⟩⟩ := checked
  obtain ⟨agree, each⟩ := join_results_agree reached [103]
  have leader := (agree leading isLeading following isFollowing leadingFine followingFine
    (second.trans alsoSecond.symm)).1
  have lists := (each following isFollowing).2.1 followingFine
  exact ⟨final, leading, following, isLeading, isFollowing, second, alsoSecond, leader, both, nobody,
    fun leads => lists.mpr leads nobody⟩

end DariyaKyu.Groups

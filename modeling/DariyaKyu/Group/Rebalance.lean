import DariyaKyu.Group.GroupCoordinator

/-!
What a call can do to a group, and what every group satisfies between calls. A
group is empty, or it waits for a member that has not rejoined, or it has
settled on a generation: then everybody has rejoined, the member with the
smallest id leads, and the protocol is the first of the leader's that all share.
-/

namespace DariyaKyu.Groups

set_option autoImplicit false

open Protocol

structure Group.Settled (group : Group) : Prop where
  rejoined : ∀ id member, group.members.find? id = some member → member.rejoined = true
  generation : 1 ≤ group.generation
  leads : ∃ leader, group.members.first? = some (group.leaderId, leader) ∧
    group.protocolName = (leader.protocols.find? group.everyone).getD []

structure GroupHolds (group : Group) : Prop where
  empty : group.state = .empty ↔ group.members.isEmpty = true
  waiting : group.state = .preparingRebalance →
    ∃ id member, group.members.find? id = some member ∧ member.rejoined = false
  settled : group.state = .completingRebalance ∨ group.state = .stable → group.Settled
  counted : 0 ≤ group.generation

section OneGroup

variable {group : Group}

theorem complete_join_cases (group : Group) :
    (group.members.isEmpty = true ∧
        group.maybeCompleteJoin = { group with state := .empty, leaderId := [] }) ∨
      (∃ id member, group.members.find? id = some member ∧ member.rejoined = false ∧
        group.maybeCompleteJoin = group) ∨
      ∃ leaderId leader, group.members.first? = some (leaderId, leader) ∧
        (∀ id member, group.members.find? id = some member → member.rejoined = true) ∧
        group.maybeCompleteJoin =
          { group with
            generation := group.generation + 1
            leaderId := leaderId
            protocolName := (leader.protocols.find? group.everyone).getD []
            state := .completingRebalance } := by
  unfold Group.maybeCompleteJoin
  cases first : group.members.first? with
  | none =>
      left
      exact ⟨List.isEmpty_iff.mpr (List.head?_eq_none_iff.mp first), rfl⟩
  | some entry =>
      obtain ⟨leaderId, leader⟩ := entry
      right
      cases all : group.members.entries.all (·.2.rejoined) with
      | false =>
          left
          have someone : ¬ ∀ id member, group.members.find? id = some member → member.rejoined = true := by
            intro everyone
            rw [(group.members.all_iff fun _ member => member.rejoined).mpr everyone] at all
            cases all
          push Not at someone
          obtain ⟨id, member, found, waits⟩ := someone
          exact ⟨id, member, found, by simpa using waits, by simp⟩
      | true =>
          right
          exact ⟨leaderId, leader, rfl,
            (group.members.all_iff fun _ member => member.rejoined).mp all, by simp⟩

theorem begin_rebalance_find (group : Group) (id : Bytes) :
    group.beginRebalance.members.find? id =
      (group.members.find? id).map fun member => { member with rejoined := false } :=
  group.members.find_map_values _ id

theorem map_values_is_empty (members : OrderedMap Bytes Member) (change : Bytes → Member → Member) :
    (members.mapValues change).isEmpty = members.isEmpty := by
  simp [OrderedMap.isEmpty, OrderedMap.mapValues]

theorem complete_join_holds (counted : 0 ≤ group.generation)
    (preparing : group.state = .preparingRebalance) : GroupHolds group.maybeCompleteJoin := by
  rcases complete_join_cases group with ⟨nobody, completed⟩ | ⟨id, member, found, waits, completed⟩ |
    ⟨leaderId, leader, first, rejoined, completed⟩
  · rw [completed]
    exact ⟨by simp [nobody], nofun, by simp, counted⟩
  · rw [completed]
    refine ⟨?_, fun _ => ⟨id, member, found, waits⟩, by simp [preparing], counted⟩
    simp only [preparing, reduceCtorEq, false_iff]
    intro nobody
    rw [OrderedMap.is_empty_iff] at nobody
    rw [nobody id] at found
    cases found
  · rw [completed]
    refine ⟨?_, nofun, fun _ => ⟨rejoined, ?_, leader, first, rfl⟩, ?_⟩
    · simp only [reduceCtorEq, false_iff, OrderedMap.isEmpty, List.isEmpty_iff]
      intro nobody
      simp [OrderedMap.first?, nobody] at first
    · simp only
      omega
    · simp only
      omega

@[simp] theorem complete_join_members (group : Group) :
    group.maybeCompleteJoin.members = group.members := by
  rcases complete_join_cases group with ⟨_, completed⟩ | ⟨_, _, _, _, completed⟩ | ⟨_, _, _, _, completed⟩
  all_goals rw [completed]

/-- A change of the members that none of the invariants looks at. -/
theorem remap_holds (holds : GroupHolds group) (change : Bytes → Member → Member)
    (rejoined : ∀ id member, (change id member).rejoined = member.rejoined)
    (protocols : ∀ id member, (change id member).protocols = member.protocols)
    {state : GroupState} (next : state = group.state ∨
      group.state = .completingRebalance ∧ state = .stable) :
    GroupHolds { group with members := group.members.mapValues change, state := state } := by
  have settles : group.Settled →
      Group.Settled { group with members := group.members.mapValues change, state := state } := by
    intro settled
    obtain ⟨leader, first, named⟩ := settled.leads
    refine ⟨?_, settled.generation, change group.leaderId leader, ?_, ?_⟩
    · intro id member found
      simp only [OrderedMap.find_map_values, Option.map_eq_some_iff] at found
      obtain ⟨old, isOld, rfl⟩ := found
      rw [rejoined]
      exact settled.rejoined id old isOld
    · simp only [OrderedMap.first?, OrderedMap.mapValues, List.head?_map] at first ⊢
      rw [first]
      rfl
    · have everyone : Group.everyone { group with
          members := group.members.mapValues change, state := state } = group.everyone := by
        funext candidate
        simp only [Group.everyone, OrderedMap.mapValues, List.all_map]
        congr 1
        funext entry
        simp [protocols]
      rw [everyone, protocols]
      exact named
  refine ⟨?_, ?_, ?_, holds.counted⟩
  · simp only [map_values_is_empty]
    rcases next with same | ⟨completing, stable⟩
    · rw [same]
      exact holds.empty
    · rw [← holds.empty, completing, stable]
      simp
  · intro preparing
    rcases next with same | ⟨_, stable⟩
    · obtain ⟨id, member, found, waits⟩ := holds.waiting (same ▸ preparing)
      refine ⟨id, change id member, ?_, by rw [rejoined, waits]⟩
      simp [found]
    · rw [stable] at preparing
      cases preparing
  · intro reached
    rcases next with same | ⟨completing, _⟩
    · exact settles (holds.settled (same ▸ reached))
    · exact settles (holds.settled (.inl completing))

theorem touch_holds (holds : GroupHolds group) (id : Bytes) (nowMs : Int) :
    GroupHolds (group.touch id nowMs) := by
  apply remap_holds holds
  · intro other member
    split <;> rfl
  · intro other member
    split <;> rfl
  · exact .inl rfl

theorem assign_holds (holds : GroupHolds group) (completing : group.state = .completingRebalance)
    (assignments : OrderedMap Bytes Bytes) : GroupHolds (group.assign assignments) := by
  apply remap_holds holds
  · intro id member
    split <;> rfl
  · intro id member
    split <;> rfl
  · exact .inr ⟨completing, rfl⟩

/-- A join is a retry that is answered as it stands, or it goes through a
rebalance that it begins, joins or completes. -/
theorem join_cases (group : Group) (id clientId : Bytes) (subscription protocols : List Bytes)
    (sessionTimeoutMs nowMs : Int) :
    (group.isRetry id subscription protocols = true ∧
        (group.join id clientId subscription protocols sessionTimeoutMs nowMs).1 =
          group.touch id nowMs) ∨
      (group.isRetry id subscription protocols = false ∧
        (group.join id clientId subscription protocols sessionTimeoutMs nowMs).1 =
          (group.rejoining id clientId subscription protocols sessionTimeoutMs
            nowMs).maybeCompleteJoin) := by
  unfold Group.join
  cases retry : group.isRetry id subscription protocols with
  | true => exact .inl ⟨rfl, rfl⟩
  | false =>
      refine .inr ⟨rfl, ?_⟩
      simp only [Bool.false_eq_true, if_false]
      split <;> rfl

theorem rejoining_state (group : Group) (id clientId : Bytes) (subscription protocols : List Bytes)
    (sessionTimeoutMs nowMs : Int) :
    (group.rejoining id clientId subscription protocols sessionTimeoutMs nowMs).state =
        .preparingRebalance ∧
      (group.rejoining id clientId subscription protocols sessionTimeoutMs nowMs).generation =
        group.generation := by
  simp only [Group.rejoining, Group.enroll]
  split
  · next preparing => exact ⟨preparing, rfl⟩
  · exact ⟨rfl, rfl⟩

theorem join_holds (holds : GroupHolds group) (id clientId : Bytes)
    (subscription protocols : List Bytes) (sessionTimeoutMs nowMs : Int) :
    GroupHolds (group.join id clientId subscription protocols sessionTimeoutMs nowMs).1 := by
  rcases join_cases group id clientId subscription protocols sessionTimeoutMs nowMs with
    ⟨_, joined⟩ | ⟨_, joined⟩
  · rw [joined]
    exact touch_holds holds id nowMs
  · obtain ⟨state, generation⟩ :=
      rejoining_state group id clientId subscription protocols sessionTimeoutMs nowMs
    rw [joined]
    apply complete_join_holds _ state
    rw [generation]
    exact holds.counted

/-- Either someone has timed out and the group rebalances without them, or the
group is as it was. -/
theorem expire_cases (group : Group) (nowMs : Int) :
    group.expire nowMs = { group with
        members := group.members.filter fun _ member => !member.timedOut nowMs
      }.beginRebalance.maybeCompleteJoin ∨ group.expire nowMs = group := by
  unfold Group.expire
  split
  · exact .inl rfl
  · next nobody =>
    right
    have all : group.members.filter (fun _ member => !member.timedOut nowMs) = group.members := by
      apply group.members.filter_same
      intro id member found
      have inTime := List.any_eq_false.mp (Bool.eq_false_iff.mpr nobody) (id, member)
        (group.members.mem_entries.mpr found)
      rw [Bool.eq_false_iff.mpr inTime]
      rfl
    simp only [all]

theorem expire_holds (holds : GroupHolds group) (nowMs : Int) : GroupHolds (group.expire nowMs) := by
  rcases expire_cases group nowMs with rebalanced | same
  · rw [rebalanced]
    exact complete_join_holds holds.counted rfl
  · rw [same]
    exact holds

theorem join_members {id clientId other : Bytes} {subscription protocols : List Bytes}
    {sessionTimeoutMs nowMs : Int} {member : Member}
    (present : (group.join id clientId subscription protocols sessionTimeoutMs
      nowMs).1.members.find? other = some member) :
    other = id ∨ ∃ old, group.members.find? other = some old := by
  rcases join_cases group id clientId subscription protocols sessionTimeoutMs nowMs with
    ⟨_, joined⟩ | ⟨_, joined⟩
  · rw [joined, Group.touch, OrderedMap.find_map_values, Option.map_eq_some_iff] at present
    obtain ⟨old, isOld, _⟩ := present
    exact .inr ⟨old, isOld⟩
  · rw [joined, complete_join_members] at present
    simp only [Group.rejoining, Group.enroll, OrderedMap.find_insert] at present
    split at present
    · next same => exact .inl same
    · split at present
      · exact .inr ⟨member, present⟩
      · rw [begin_rebalance_find, Option.map_eq_some_iff] at present
        obtain ⟨old, isOld, _⟩ := present
        exact .inr ⟨old, isOld⟩

theorem expire_members {nowMs : Int} {id : Bytes} {member : Member}
    (present : (group.expire nowMs).members.find? id = some member) :
    ∃ old, group.members.find? id = some old ∧ old.timedOut nowMs = false := by
  have kept : ∀ old, (group.members.find? id).filter (fun member => !member.timedOut nowMs) = some old →
      ∃ old, group.members.find? id = some old ∧ old.timedOut nowMs = false := by
    intro old found
    obtain ⟨isOld, inTime⟩ := Option.filter_eq_some_iff.mp found
    exact ⟨old, isOld, by simpa using inTime⟩
  unfold Group.expire at present
  split at present
  · rw [complete_join_members, begin_rebalance_find, Option.map_eq_some_iff] at present
    obtain ⟨old, found, _⟩ := present
    rw [OrderedMap.find_filter] at found
    exact kept old found
  · rw [OrderedMap.find_filter] at present
    exact kept member present

end OneGroup

/-- What a call makes of the group with an id, if it leaves one behind. -/
inductive GroupStep (coordinator : GroupCoordinator) (groupId : Bytes) :
    GroupCall → Group → Prop where
  | kept {call : GroupCall} {next : Group} (same : coordinator.groups.find? groupId = some next) :
      GroupStep coordinator groupId call next
  | created {memberId clientId : Bytes} {subscription protocols : List Bytes}
      {sessionTimeoutMs nowMs : Int} (absent : coordinator.groups.find? groupId = none) :
      GroupStep coordinator groupId
        (.join groupId memberId clientId subscription protocols sessionTimeoutMs nowMs) { id := groupId }
  | issued {clientId : Bytes} {subscription protocols : List Bytes} {sessionTimeoutMs nowMs : Int}
      (named : groupId ≠ []) :
      GroupStep coordinator groupId
        (.join groupId [] clientId subscription protocols sessionTimeoutMs nowMs)
        ((coordinator.groupFor groupId).join (coordinator.freshId clientId) clientId subscription
          protocols sessionTimeoutMs nowMs).1
  | joined {group : Group} {member : Member} {memberId clientId : Bytes}
      {subscription protocols : List Bytes} {sessionTimeoutMs nowMs : Int}
      (there : coordinator.groups.find? groupId = some group)
      (known : group.members.find? memberId = some member) :
      GroupStep coordinator groupId
        (.join groupId memberId clientId subscription protocols sessionTimeoutMs nowMs)
        (group.join memberId clientId subscription protocols sessionTimeoutMs nowMs).1
  | synced {group : Group} {memberId : Bytes} {generation nowMs : Int}
      {assignments : OrderedMap Bytes Bytes}
      (there : coordinator.groups.find? groupId = some group) :
      GroupStep coordinator groupId (.sync groupId memberId generation assignments nowMs)
        (group.touch memberId nowMs)
  | assigned {group : Group} {member : Member} {nowMs : Int} {assignments : OrderedMap Bytes Bytes}
      (there : coordinator.groups.find? groupId = some group)
      (known : group.members.find? group.leaderId = some member)
      (completing : group.state = .completingRebalance) :
      GroupStep coordinator groupId (.sync groupId group.leaderId group.generation assignments nowMs)
        ((group.touch group.leaderId nowMs).assign assignments)
  | beat {group : Group} {memberId : Bytes} {generation nowMs : Int}
      (there : coordinator.groups.find? groupId = some group) :
      GroupStep coordinator groupId (.heartbeat groupId memberId generation nowMs)
        (group.touch memberId nowMs)
  | left {group : Group} {memberId : Bytes} (there : coordinator.groups.find? groupId = some group) :
      GroupStep coordinator groupId (.leave groupId memberId)
        { group with members := group.members.erase memberId }.beginRebalance.maybeCompleteJoin
  | expired {group : Group} {nowMs : Int} (there : coordinator.groups.find? groupId = some group) :
      GroupStep coordinator groupId (.expire nowMs) (group.expire nowMs)

theorem stored_find {coordinator : GroupCoordinator} {stored groupId : Bytes} {group next : Group}
    (there : (coordinator.store stored group).groups.find? groupId = some next) :
    (groupId = stored ∧ next = group) ∨
      (groupId ≠ stored ∧ coordinator.groups.find? groupId = some next) := by
  simp only [GroupCoordinator.store, OrderedMap.find_insert] at there
  split at there
  · next same => exact .inl ⟨same, (Option.some.inj there).symm⟩
  · next different => exact .inr ⟨different, there⟩

theorem group_step_join (coordinator : GroupCoordinator) (target memberId clientId : Bytes)
    (subscription protocols : List Bytes) (sessionTimeoutMs nowMs : Int) {groupId : Bytes}
    {next : Group}
    (there : (coordinator.join target memberId clientId subscription protocols sessionTimeoutMs
      nowMs).1.groups.find? groupId = some next) :
    GroupStep coordinator groupId
      (.join target memberId clientId subscription protocols sessionTimeoutMs nowMs) next := by
  unfold GroupCoordinator.join at there
  split at there
  · exact .kept there
  next named =>
  simp only at there
  split at there
  · next fresh =>
    subst fresh
    rcases stored_find there with ⟨rfl, rfl⟩ | ⟨_, same⟩
    · exact .issued named
    · exact .kept same
  split at there
  · next unknown =>
    rcases stored_find there with ⟨rfl, rfl⟩ | ⟨_, same⟩
    · cases present : coordinator.groups.find? groupId with
      | none =>
          simp only [GroupCoordinator.groupFor, present, Option.getD_none]
          exact .created present
      | some group =>
          simp only [GroupCoordinator.groupFor, present, Option.getD_some]
          exact .kept present
    · exact .kept same
  · next known =>
    rcases stored_find there with ⟨rfl, rfl⟩ | ⟨_, same⟩
    · cases present : coordinator.groups.find? groupId with
      | none =>
          simp [GroupCoordinator.groupFor, present] at known
      | some group =>
          simp only [GroupCoordinator.groupFor, present, Option.getD_some] at known ⊢
          obtain ⟨member, found⟩ := Option.ne_none_iff_exists'.mp (Option.isNone_iff_eq_none.not.mp known)
          exact .joined present found
    · exact .kept same

theorem group_step_sync (coordinator : GroupCoordinator) (target memberId : Bytes) (generation : Int)
    (assignments : OrderedMap Bytes Bytes) (nowMs : Int) {groupId : Bytes} {next : Group}
    (there : (coordinator.sync target memberId generation assignments nowMs).1.groups.find? groupId =
      some next) :
    GroupStep coordinator groupId (.sync target memberId generation assignments nowMs) next := by
  unfold GroupCoordinator.sync at there
  cases present : coordinator.groups.find? target with
  | none =>
      simp only [present] at there
      exact .kept there
  | some group =>
      simp only [present] at there
      cases known : group.members.find? memberId with
      | none =>
          simp only [known] at there
          exact .kept there
      | some member =>
          simp only [known] at there
          split at there
          · exact .kept there
          next current =>
          split at there
          · exact .kept there
          split at there
          · next completing =>
            split at there
            · next leads =>
              subst leads
              have same : generation = group.generation := by simpa using current
              subst same
              rcases stored_find there with ⟨rfl, rfl⟩ | ⟨_, same⟩
              · exact .assigned present known completing
              · exact .kept same
            · rcases stored_find there with ⟨rfl, rfl⟩ | ⟨_, same⟩
              · exact .synced present
              · exact .kept same
          · rcases stored_find there with ⟨rfl, rfl⟩ | ⟨_, same⟩
            · exact .synced present
            · exact .kept same

theorem group_step_heartbeat (coordinator : GroupCoordinator) (target memberId : Bytes)
    (generation nowMs : Int) {groupId : Bytes} {next : Group}
    (there : (coordinator.heartbeat target memberId generation nowMs).1.groups.find? groupId =
      some next) :
    GroupStep coordinator groupId (.heartbeat target memberId generation nowMs) next := by
  unfold GroupCoordinator.heartbeat at there
  cases present : coordinator.groups.find? target with
  | none =>
      simp only [present] at there
      exact .kept there
  | some group =>
      simp only [present] at there
      split at there
      · exact .kept there
      split at there
      · exact .kept there
      split at there
      · exact .kept there
      rcases stored_find there with ⟨rfl, rfl⟩ | ⟨_, same⟩
      · exact .beat present
      · exact .kept same

theorem group_step_leave (coordinator : GroupCoordinator) (target memberId : Bytes) {groupId : Bytes}
    {next : Group}
    (there : (coordinator.leave target memberId).1.groups.find? groupId = some next) :
    GroupStep coordinator groupId (.leave target memberId) next := by
  unfold GroupCoordinator.leave at there
  cases present : coordinator.groups.find? target with
  | none =>
      simp only [present] at there
      exact .kept there
  | some group =>
      simp only [present] at there
      split at there
      · exact .kept there
      split at there
      · simp only [OrderedMap.find_erase] at there
        split at there
        · cases there
        · exact .kept there
      · rcases stored_find there with ⟨rfl, rfl⟩ | ⟨_, same⟩
        · exact .left present
        · exact .kept same

/-- Every group a call leaves behind has come about in one of these ways. -/
theorem group_step (coordinator : GroupCoordinator) (call : GroupCall) {groupId : Bytes}
    {next : Group} (there : (coordinator.after call).groups.find? groupId = some next) :
    GroupStep coordinator groupId call next := by
  cases call with
  | join => exact group_step_join _ _ _ _ _ _ _ _ there
  | sync => exact group_step_sync _ _ _ _ _ _ there
  | heartbeat => exact group_step_heartbeat _ _ _ _ _ there
  | leave => exact group_step_leave _ _ _ there
  | expire nowMs =>
      simp only [GroupCoordinator.after, GroupCoordinator.expire, OrderedMap.find_filter,
        OrderedMap.find_map_values, Option.filter_eq_some_iff, Option.map_eq_some_iff] at there
      obtain ⟨⟨group, present, rfl⟩, _⟩ := there
      exact .expired present

/-- What a call that is not a sync can do to a group: leave it as it is but for
the clocks, throw it back into a rebalance, or complete one. -/
inductive GroupShift (before after : Group) : Prop where
  | quiet (state : after.state = before.state) (generation : after.generation = before.generation)
      (leaderId : after.leaderId = before.leaderId)
      (members : ∀ id next, after.members.find? id = some next →
        ∃ member, before.members.find? id = some member ∧ next.assignment = member.assignment)
  | restarted (state : after.state = .preparingRebalance ∨ after.state = .empty)
      (generation : after.generation = before.generation)
  | completed (state : after.state = .completingRebalance)
      (generation : after.generation = before.generation + 1)

theorem touch_shift (group : Group) (id : Bytes) (nowMs : Int) : GroupShift group (group.touch id nowMs) := by
  refine .quiet rfl rfl rfl ?_
  intro other next found
  rw [Group.touch, OrderedMap.find_map_values, Option.map_eq_some_iff] at found
  obtain ⟨member, isMember, rfl⟩ := found
  refine ⟨member, isMember, ?_⟩
  split <;> rfl

theorem complete_join_shift {before group : Group} (preparing : group.state = .preparingRebalance)
    (generation : group.generation = before.generation) : GroupShift before group.maybeCompleteJoin := by
  rcases complete_join_cases group with ⟨_, completed⟩ | ⟨_, _, _, _, completed⟩ | ⟨_, _, _, _, completed⟩
  · rw [completed]
    exact .restarted (.inr rfl) generation
  · rw [completed]
    exact .restarted (.inl preparing) generation
  · rw [completed]
    apply GroupShift.completed rfl
    rw [generation]

theorem join_shift (group : Group) (id clientId : Bytes) (subscription protocols : List Bytes)
    (sessionTimeoutMs nowMs : Int) :
    GroupShift group (group.join id clientId subscription protocols sessionTimeoutMs nowMs).1 := by
  rcases join_cases group id clientId subscription protocols sessionTimeoutMs nowMs with
    ⟨_, joined⟩ | ⟨_, joined⟩
  · rw [joined]
    exact touch_shift group id nowMs
  · obtain ⟨state, generation⟩ :=
      rejoining_state group id clientId subscription protocols sessionTimeoutMs nowMs
    rw [joined]
    exact complete_join_shift state generation

theorem expire_shift (group : Group) (nowMs : Int) : GroupShift group (group.expire nowMs) := by
  rcases expire_cases group nowMs with rebalanced | same
  · rw [rebalanced]
    exact complete_join_shift rfl rfl
  · rw [same]
    exact .quiet rfl rfl rfl fun id member found => ⟨member, found, rfl⟩

def GroupCall.IsSync : GroupCall → Prop
  | .sync _ _ _ _ _ => True
  | _ => False

theorem group_shift {coordinator : GroupCoordinator} {call : GroupCall} (other : ¬ call.IsSync)
    {groupId : Bytes} {group next : Group} (present : coordinator.groups.find? groupId = some group)
    (there : (coordinator.after call).groups.find? groupId = some next) : GroupShift group next := by
  cases group_step coordinator call there with
  | kept same =>
      cases present.symm.trans same
      exact .quiet rfl rfl rfl fun id member found => ⟨member, found, rfl⟩
  | created absent =>
      rw [present] at absent
      cases absent
  | issued named =>
      simp only [GroupCoordinator.groupFor, present, Option.getD_some]
      exact join_shift group _ _ _ _ _ _
  | joined was known =>
      cases present.symm.trans was
      exact join_shift group _ _ _ _ _ _
  | synced was => exact (other trivial).elim
  | assigned was known completing => exact (other trivial).elim
  | beat was =>
      cases present.symm.trans was
      exact touch_shift group _ _
  | left was =>
      cases present.symm.trans was
      exact complete_join_shift rfl rfl
  | expired was =>
      cases present.symm.trans was
      exact expire_shift group _

/-- The member is in the group, and the generation is the group's. -/
def GroupCoordinator.Current (coordinator : GroupCoordinator) (groupId memberId : Bytes)
    (generation : Int) : Prop :=
  ∃ group member, coordinator.groups.find? groupId = some group ∧
    group.members.find? memberId = some member ∧ generation = group.generation

theorem sync_refused {coordinator : GroupCoordinator} {groupId memberId : Bytes} {generation : Int}
    (stale : ¬ coordinator.Current groupId memberId generation) (assignments : OrderedMap Bytes Bytes)
    (nowMs : Int) :
    ∃ failure, failure ≠ .none ∧
      coordinator.sync groupId memberId generation assignments nowMs = (coordinator, { error := failure }) := by
  unfold GroupCoordinator.sync
  cases present : coordinator.groups.find? groupId with
  | none => exact ⟨.unknownMemberId, by decide, rfl⟩
  | some group =>
      cases known : group.members.find? memberId with
      | none => exact ⟨.unknownMemberId, by decide, by simp [known]⟩
      | some member =>
          have other : generation ≠ group.generation :=
            fun same => stale ⟨group, member, present, known, same⟩
          exact ⟨.illegalGeneration, by decide, by simp [known, other]⟩

theorem heartbeat_refused {coordinator : GroupCoordinator} {groupId memberId : Bytes}
    {generation : Int} (stale : ¬ coordinator.Current groupId memberId generation) (nowMs : Int) :
    ∃ failure, failure ≠ .none ∧
      coordinator.heartbeat groupId memberId generation nowMs = (coordinator, failure) := by
  unfold GroupCoordinator.heartbeat
  cases present : coordinator.groups.find? groupId with
  | none => exact ⟨.unknownMemberId, by decide, rfl⟩
  | some group =>
      cases known : group.members.find? memberId with
      | none => exact ⟨.unknownMemberId, by decide, by simp [known]⟩
      | some member =>
          have other : generation ≠ group.generation :=
            fun same => stale ⟨group, member, present, known, same⟩
          exact ⟨.illegalGeneration, by decide, by simp [known, other]⟩

/-- What a sync of a current member does: nothing while the group prepares; it
settles the generation when it is the leader's; else it waits or collects. -/
theorem sync_current (coordinator : GroupCoordinator) {groupId memberId : Bytes} {group : Group}
    {member : Member} (present : coordinator.groups.find? groupId = some group)
    (known : group.members.find? memberId = some member) (assignments : OrderedMap Bytes Bytes)
    (nowMs : Int) :
    coordinator.sync groupId memberId group.generation assignments nowMs =
      if group.state = .preparingRebalance then (coordinator, { error := .rebalanceInProgress })
      else if group.state = .completingRebalance then
        if memberId = group.leaderId then
          (coordinator.store groupId ((group.touch memberId nowMs).assign assignments),
            { assignment := (assignments.find? memberId).getD member.assignment })
        else (coordinator.store groupId (group.touch memberId nowMs), { error := .rebalanceInProgress })
      else (coordinator.store groupId (group.touch memberId nowMs), { assignment := member.assignment }) := by
  simp only [GroupCoordinator.sync, present, known, ne_eq, not_true_eq_false, if_false]

def GroupCoordinator.Holds (coordinator : GroupCoordinator) : Prop :=
  ∀ groupId group, coordinator.groups.find? groupId = some group → GroupHolds group

theorem new_group_holds (groupId : Bytes) : GroupHolds { id := groupId } :=
  ⟨by simp [OrderedMap.isEmpty, OrderedMap.empty], nofun, by simp, le_refl _⟩

theorem group_for_holds {coordinator : GroupCoordinator} (holds : coordinator.Holds) (groupId : Bytes) :
    GroupHolds (coordinator.groupFor groupId) := by
  unfold GroupCoordinator.groupFor
  cases present : coordinator.groups.find? groupId with
  | none => exact new_group_holds groupId
  | some group => exact holds groupId group present

theorem after_holds {coordinator : GroupCoordinator} (holds : coordinator.Holds) (call : GroupCall) :
    (coordinator.after call).Holds := by
  intro groupId next there
  cases group_step coordinator call there with
  | kept same => exact holds groupId next same
  | created absent => exact new_group_holds groupId
  | issued named => exact join_holds (group_for_holds holds groupId) _ _ _ _ _ _
  | joined present known => exact join_holds (holds groupId _ present) _ _ _ _ _ _
  | synced present => exact touch_holds (holds groupId _ present) _ _
  | @assigned group _ nowMs assignments present known completing =>
      exact assign_holds (touch_holds (holds groupId _ present) _ _) completing assignments
  | beat present => exact touch_holds (holds groupId _ present) _ _
  | left present => exact complete_join_holds (holds groupId _ present).counted rfl
  | expired present => exact expire_holds (holds groupId _ present) _

end DariyaKyu.Groups

import DariyaKyu.Group.Settling

/-!
One stuck member and a rebalance. While a group prepares, a sync, a heartbeat
and with it an offset commit are sent back before they touch the session of the
one who asks, and nobody else's request touches it either: only its own join
does. So a member that does not join again is due when its session is, and then
the group waits for the others alone.
-/

namespace DariyaKyu.Groups

set_option autoImplicit false

def GroupCall.Joins (groupId memberId : Bytes) : GroupCall → Prop
  | .join target id _ _ _ _ _ => target = groupId ∧ id = memberId
  | _ => False

/-- The id under which a call joins the group; the coordinator makes one up for
a join that comes without. -/
def GroupCoordinator.joiner (coordinator : GroupCoordinator) (groupId : Bytes) : GroupCall → Option Bytes
  | .join target memberId clientId _ _ _ _ =>
      if target = groupId then some (if memberId = [] then coordinator.freshId clientId else memberId)
      else none
  | _ => none

def GroupCoordinator.joiners (groupId : Bytes) : GroupCoordinator → List GroupCall → List Bytes
  | _, [] => []
  | coordinator, call :: calls =>
      (coordinator.joiner groupId call).toList ++ joiners groupId (coordinator.after call) calls

def GroupCoordinator.Loses (coordinator : GroupCoordinator) (groupId : Bytes) (call : GroupCall) : Prop :=
  ∃ id, coordinator.hasMember groupId id = true ∧ coordinator.removes groupId id call = true

/-- Whom a call finds in a preparing group: the one that joins, someone whose
record it leaves as it is, or someone it calls back because another is gone. -/
inductive MemberShift (group : Group) (joiner : Option Bytes) (loses : Prop) (id : Bytes)
    (now : Member) : Prop where
  | joined (joins : joiner = some id) (back : now.rejoined = true)
  | stayed (other : joiner ≠ some id) (was : group.members.find? id = some now)
  | recalled (lost : loses) (old : Member) (was : group.members.find? id = some old)
      (same : now = { old with rejoined := false })

section OneGroup

variable {coordinator : GroupCoordinator} {groupId : Bytes} {group next : Group}

theorem sync_preparing (present : coordinator.groups.find? groupId = some group)
    (preparing : group.state = .preparingRebalance) {target memberId : Bytes} {generation nowMs : Int}
    {assignments : OrderedMap Bytes Bytes}
    (there : (coordinator.sync target memberId generation assignments nowMs).1.groups.find? groupId =
      some next) : next = group := by
  by_cases current : coordinator.Current target memberId generation
  · obtain ⟨owner, member, isOwner, known, rfl⟩ := current
    rw [sync_current coordinator isOwner known] at there
    by_cases here : groupId = target
    · subst here
      cases isOwner.symm.trans present
      rw [if_pos preparing] at there
      exact Option.some.inj (there.symm.trans present)
    · have elsewhere : ∀ changed, (coordinator.store target changed).groups.find? groupId = some next →
          next = group := by
        intro changed stored
        rcases stored_find stored with ⟨same, _⟩ | ⟨_, unchanged⟩
        · exact absurd same here
        · exact Option.some.inj (unchanged.symm.trans present)
      split at there
      · exact Option.some.inj (there.symm.trans present)
      split at there
      · split at there <;> exact elsewhere _ there
      · exact elsewhere _ there
  · obtain ⟨_, _, refused⟩ := sync_refused current assignments nowMs
    rw [refused] at there
    exact Option.some.inj (there.symm.trans present)

theorem heartbeat_preparing (present : coordinator.groups.find? groupId = some group)
    (preparing : group.state = .preparingRebalance) {target memberId : Bytes} {generation nowMs : Int}
    (there : (coordinator.heartbeat target memberId generation nowMs).1.groups.find? groupId =
      some next) : next = group := by
  have unchanged : coordinator.groups.find? groupId = some next → next = group :=
    fun same => Option.some.inj (same.symm.trans present)
  unfold GroupCoordinator.heartbeat at there
  split at there
  · exact unchanged there
  next owner isOwner =>
  split at there
  · exact unchanged there
  split at there
  · exact unchanged there
  split at there
  · exact unchanged there
  next settled =>
  rcases stored_find there with ⟨same, _⟩ | ⟨_, other⟩
  · subst same
    cases isOwner.symm.trans present
    exact absurd preparing settled
  · exact unchanged other

theorem join_preparing (preparing : group.state = .preparingRebalance) {id clientId other : Bytes}
    {subscription protocols : List Bytes} {sessionTimeoutMs nowMs : Int} {now : Member}
    (found : (group.join id clientId subscription protocols sessionTimeoutMs nowMs).1.members.find? other =
      some now) {loses : Prop} : MemberShift group (some id) loses other now := by
  rcases join_cases group id clientId subscription protocols sessionTimeoutMs nowMs with
    ⟨retry, _⟩ | ⟨_, joined⟩
  · unfold Group.isRetry at retry
    split at retry
    · cases retry
    · simp [preparing] at retry
  · rw [joined, complete_join_members, Group.rejoining, if_pos preparing] at found
    simp only [Group.enroll, OrderedMap.find_insert] at found
    split at found
    · next same =>
      cases found
      exact .joined (congrArg some same.symm) rfl
    · next different =>
      exact .stayed (fun same => different (Option.some.inj same).symm) found

theorem join_shift_member (present : coordinator.groups.find? groupId = some group)
    (preparing : group.state = .preparingRebalance) (named : groupId ≠ []) {loses : Prop}
    {target memberId clientId : Bytes} {subscription protocols : List Bytes}
    {sessionTimeoutMs nowMs : Int} {id : Bytes} {now : Member}
    (there : (coordinator.join target memberId clientId subscription protocols sessionTimeoutMs
      nowMs).1.groups.find? groupId = some next) (found : next.members.find? id = some now) :
    MemberShift group (coordinator.joiner groupId
      (.join target memberId clientId subscription protocols sessionTimeoutMs nowMs)) loses id now := by
  simp only [GroupCoordinator.joiner]
  by_cases here : target = groupId
  · subst here
    have isGroup : coordinator.groupFor target = group := by
      rw [GroupCoordinator.groupFor, present, Option.getD_some]
    rw [if_pos rfl]
    simp only [GroupCoordinator.join, named, if_false, isGroup] at there
    split at there
    · next fresh =>
      rcases stored_find there with ⟨_, rfl⟩ | ⟨elsewhere, _⟩
      · rw [if_pos fresh]
        exact join_preparing preparing found
      · exact absurd rfl elsewhere
    next issued =>
    rw [if_neg issued]
    split at there
    · next unknown =>
      rcases stored_find there with ⟨_, rfl⟩ | ⟨elsewhere, _⟩
      · apply MemberShift.stayed _ found
        intro same
        rw [Option.some.inj same, found] at unknown
        cases unknown
      · exact absurd rfl elsewhere
    · rcases stored_find there with ⟨_, rfl⟩ | ⟨elsewhere, _⟩
      · exact join_preparing preparing found
      · exact absurd rfl elsewhere
  · rw [if_neg here]
    refine MemberShift.stayed (by simp) ?_
    cases group_step_join coordinator _ _ _ _ _ _ _ there with
    | kept same =>
        cases present.symm.trans same
        exact found
    | created | issued | joined => exact absurd rfl here

theorem leave_shift_member (present : coordinator.groups.find? groupId = some group) {target leaving id : Bytes} {now : Member}
    (there : (coordinator.leave target leaving).1.groups.find? groupId = some next)
    (found : next.members.find? id = some now) :
    MemberShift group none (coordinator.Loses groupId (.leave target leaving)) id now := by
  have unchanged : coordinator.groups.find? groupId = some next →
      MemberShift group none (coordinator.Loses groupId (.leave target leaving)) id now := by
    intro same
    cases present.symm.trans same
    exact .stayed (Option.some_ne_none id).symm found
  unfold GroupCoordinator.leave at there
  split at there
  · exact unchanged there
  next owner isOwner =>
  split at there
  · exact unchanged there
  next known =>
  simp only at there
  have isMember := Option.isNone_eq_false_iff.mp (Bool.not_eq_true _ ▸ known)
  split at there
  · simp only [OrderedMap.find_erase] at there
    split at there
    · cases there
    · exact unchanged there
  · rcases stored_find there with ⟨same, rfl⟩ | ⟨_, other⟩
    · subst same
      cases isOwner.symm.trans present
      rw [complete_join_members, begin_rebalance_find, Option.map_eq_some_iff] at found
      obtain ⟨old, isOld, rfl⟩ := found
      simp only [OrderedMap.find_erase] at isOld
      split at isOld
      · cases isOld
      · have lost : coordinator.Loses groupId (.leave groupId leaving) := by
          refine ⟨leaving, ?_, by simp [GroupCoordinator.removes]⟩
          simpa [GroupCoordinator.hasMember, present] using isMember
        exact .recalled lost old isOld rfl
    · exact unchanged other

theorem expire_shift_member (present : coordinator.groups.find? groupId = some group) {nowMs : Int} {id : Bytes} {now : Member}
    (there : (coordinator.expire nowMs).1.groups.find? groupId = some next)
    (found : next.members.find? id = some now) :
    MemberShift group none (coordinator.Loses groupId (.expire nowMs)) id now := by
  simp only [GroupCoordinator.expire, OrderedMap.find_filter, OrderedMap.find_map_values, present,
    Option.map_some, Option.filter_eq_some_iff, Option.some.injEq] at there
  obtain ⟨rfl, _⟩ := there
  unfold Group.expire at found
  simp only at found
  split at found
  · next due =>
    obtain ⟨⟨gone, member⟩, inside, late⟩ := List.any_eq_true.mp due
    rw [complete_join_members, begin_rebalance_find, Option.map_eq_some_iff] at found
    obtain ⟨old, isOld, rfl⟩ := found
    have was := (Option.filter_eq_some_iff.mp ((OrderedMap.find_filter _ _ _).symm.trans isOld)).1
    have lost : coordinator.Loses groupId (.expire nowMs) := by
      have known := group.members.mem_entries.mp inside
      refine ⟨gone, ?_, ?_⟩
      · simp [GroupCoordinator.hasMember, present, known]
      · simpa [GroupCoordinator.removes, present, known] using late
    exact .recalled lost old was rfl
  · rw [OrderedMap.find_filter, Option.filter_eq_some_iff] at found
    exact .stayed (Option.some_ne_none id).symm found.1

theorem member_shift (present : coordinator.groups.find? groupId = some group)
    (preparing : group.state = .preparingRebalance) (named : groupId ≠ []) {call : GroupCall}
    (there : (coordinator.after call).groups.find? groupId = some next) {id : Bytes} {now : Member}
    (found : next.members.find? id = some now) :
    MemberShift group (coordinator.joiner groupId call) (coordinator.Loses groupId call) id now := by
  cases call with
  | join => exact join_shift_member present preparing named there found
  | leave => exact leave_shift_member present there found
  | expire => exact expire_shift_member present there found
  | sync =>
      cases sync_preparing present preparing there
      exact .stayed (Option.some_ne_none id).symm found
  | heartbeat =>
      cases heartbeat_preparing present preparing there
      exact .stayed (Option.some_ne_none id).symm found

theorem goes_on_preparing (present : coordinator.groups.find? groupId = some group)
    (preparing : group.state = .preparingRebalance) {call : GroupCall}
    (incomplete : coordinator.completes groupId call = false) (holds : GroupHolds next)
    (there : (coordinator.after call).groups.find? groupId = some next)
    (occupied : next.members.isEmpty = false) :
    next.state = .preparingRebalance ∧ next.generation = group.generation := by
  have generation := generation_after present there
  rw [incomplete] at generation
  have same : next.generation = group.generation := by simpa using generation
  refine ⟨?_, same⟩
  by_cases sync : call.IsSync
  · cases call with
    | sync =>
        cases sync_preparing present preparing there
        exact preparing
    | join | heartbeat | leave | expire => exact sync.elim
  · cases group_shift sync present there with
    | quiet state => exact state.trans preparing
    | restarted state =>
        refine state.resolve_right fun empty => ?_
        rw [holds.empty.mp empty] at occupied
        cases occupied
    | completed _ later => omega

end OneGroup

/-- One of these calls completes the rebalance that follows this generation, with
the member in the group. -/
def GroupCoordinator.CompletesWithin (groupId memberId : Bytes) (generation : Int) :
    GroupCoordinator → List GroupCall → Prop
  | _, [] => False
  | coordinator, call :: calls =>
      (∃ group member, coordinator.groups.find? groupId = some group ∧
        group.members.find? memberId = some member ∧ group.state = .preparingRebalance ∧
        group.generation = generation ∧ coordinator.completes groupId call = true) ∨
      CompletesWithin groupId memberId generation (coordinator.after call) calls

/-- As long as the member is in the group, the group prepares, and the session of
the member is what it was. -/
def GroupCoordinator.Waits (coordinator : GroupCoordinator) (groupId memberId : Bytes) (generation : Int)
    (silent : Member) : Prop :=
  ∀ group member, coordinator.groups.find? groupId = some group →
    group.members.find? memberId = some member → group.state = .preparingRebalance ∧
      group.generation = generation ∧ member.lastHeartbeatMs = silent.lastHeartbeatMs ∧
      member.sessionTimeoutMs = silent.sessionTimeoutMs

section Runs

variable {state : Issuing} {groupId memberId : Bytes} {generation : Int} {silent : Member}
  {call : GroupCall} {calls : List GroupCall}

theorem joiner_of_member (issued : IssuingHolds state) {group : Group} {member : Member}
    (present : state.coordinator.groups.find? groupId = some group)
    (known : group.members.find? memberId = some member)
    (joins : state.coordinator.joiner groupId call = some memberId) : call.Joins groupId memberId := by
  cases call with
  | join target id clientId subscription protocols sessionTimeoutMs nowMs =>
      simp only [GroupCoordinator.joiner, Option.ite_none_right_eq_some, Option.some.injEq] at joins
      obtain ⟨here, same⟩ := joins
      refine ⟨here, ?_⟩
      split at same
      · obtain ⟨client, number, below, isId⟩ :=
          issued.numbered _ (issued.owned groupId group present memberId member known)
        have unique := numbered_unique (same.trans isId)
        omega
      · exact same
  | sync | heartbeat | leave | expire => cases joins

/-- One call, of anybody: it completes the rebalance, or the group goes on
waiting with the session of the silent member untouched. -/
theorem waits_step (holds : state.coordinator.Holds) (issued : IssuingHolds state) (named : groupId ≠ [])
    (knows : (memberId, groupId) ∈ state.issued)
    (waits : state.coordinator.Waits groupId memberId generation silent)
    (quiet : ¬ call.Joins groupId memberId) :
    (∃ group member, state.coordinator.groups.find? groupId = some group ∧
        group.members.find? memberId = some member ∧ group.state = .preparingRebalance ∧
        group.generation = generation ∧ state.coordinator.completes groupId call = true) ∨
      (state.coordinator.after call).Waits groupId memberId generation silent := by
  cases completes : state.coordinator.completes groupId call with
  | false =>
      right
      intro next now there found
      have holder : state.Knows ⟨groupId, memberId, generation⟩ := .inr knows
      obtain ⟨group, old, present, known⟩ := holder_was_member issued holder rfl there found
      obtain ⟨preparing, generation, heartbeat, timeout⟩ := waits group old present known
      have occupied : next.members.isEmpty = false := by
        rw [Bool.eq_false_iff]
        intro nobody
        rw [find_in_empty nobody] at found
        cases found
      obtain ⟨still, same⟩ := goes_on_preparing present preparing completes
        (after_holds holds call groupId next there) there occupied
      refine ⟨still, same.trans generation, ?_⟩
      cases member_shift present preparing named there found with
      | joined joins => exact absurd (joiner_of_member issued present known joins) quiet
      | stayed _ was =>
          cases known.symm.trans was
          exact ⟨heartbeat, timeout⟩
      | recalled _ before was isNow =>
          cases known.symm.trans was
          rw [isNow]
          exact ⟨heartbeat, timeout⟩
  | true =>
      cases here : state.coordinator.hasMember groupId memberId with
      | true =>
          obtain ⟨group, member, present, known⟩ := has_member_iff.mp here
          obtain ⟨preparing, generation, _⟩ := waits group member present known
          exact .inl ⟨group, member, present, known, preparing, generation, rfl⟩
      | false =>
          right
          intro next now there found
          have holder : state.Knows ⟨groupId, memberId, generation⟩ := .inr knows
          obtain ⟨group, old, present, known⟩ := holder_was_member issued holder rfl there found
          have inside := has_member_iff.mpr ⟨group, old, present, known⟩
          rw [here] at inside
          cases inside

/-- Any number of calls, none of which is a join of the member. -/
theorem waits_run (holds : state.coordinator.Holds) (issued : IssuingHolds state) (named : groupId ≠ [])
    (knows : (memberId, groupId) ∈ state.issued)
    (waits : state.coordinator.Waits groupId memberId generation silent)
    (quiet : ∀ call ∈ calls, ¬ call.Joins groupId memberId) :
    state.coordinator.CompletesWithin groupId memberId generation calls ∨
      (state.coordinator.afterAll calls).Waits groupId memberId generation silent := by
  induction calls generalizing state with
  | nil => exact .inr waits
  | cons call calls ih =>
      rcases waits_step holds issued named knows waits (quiet call List.mem_cons_self) with
        completes | waiting
      · exact .inl (.inl completes)
      · have later := @ih ⟨state.coordinator.after call, state.issued ++ state.coordinator.issues call⟩
          (after_holds holds call) (issuing_step issued rfl) (List.mem_append_left _ knows) waiting
          fun other inside => quiet other (List.mem_cons_of_mem _ inside)
        exact later.imp_left .inr

theorem due_member_expires {coordinator : GroupCoordinator}
    (waits : coordinator.Waits groupId memberId generation silent) {nowMs : Int}
    (due : silent.sessionTimeoutMs ≤ nowMs - silent.lastHeartbeatMs) :
    (coordinator.after (.expire nowMs)).hasMember groupId memberId = false := by
  simp only [GroupCoordinator.after, expire_has_member, Bool.and_eq_false_iff, Bool.not_eq_false']
  cases here : coordinator.hasMember groupId memberId with
  | false => exact .inl rfl
  | true =>
      obtain ⟨group, member, present, known⟩ := has_member_iff.mp here
      obtain ⟨_, _, heartbeat, timeout⟩ := waits group member present known
      right
      simp only [GroupCoordinator.removes, present, Option.bind_some, known, Option.any_some,
        Member.timedOut, heartbeat, timeout, decide_eq_true_eq]
      exact due

/-- If nobody is lost, everyone who is back stays so until the group completes;
so it has completed before everyone is. -/
theorem all_back_completes (holds : state.coordinator.Holds) (issued : IssuingHolds state)
    (named : groupId ≠ []) {group : Group} {member : Member}
    (present : state.coordinator.groups.find? groupId = some group)
    (known : group.members.find? memberId = some member) (preparing : group.state = .preparingRebalance)
    (isGeneration : group.generation = generation) {back : List Bytes}
    (returned : ∀ id now, group.members.find? id = some now → id ∈ back → now.rejoined = true)
    (keeps : ∀ done call rest, calls = done ++ call :: rest →
      ¬ (state.coordinator.afterAll done).Loses groupId call)
    (all : ∀ later id now, (state.coordinator.afterAll calls).groups.find? groupId = some later →
      later.members.find? id = some now → id ∈ back ++ state.coordinator.joiners groupId calls) :
    state.coordinator.CompletesWithin groupId memberId generation calls := by
  induction calls generalizing state group member back with
  | nil =>
      obtain ⟨id, now, found, waits⟩ := (holds groupId group present).waiting preparing
      have inside := all group id now present found
      simp only [GroupCoordinator.joiners, List.append_nil] at inside
      rw [returned id now found inside] at waits
      cases waits
  | cons call calls ih =>
      cases completes : state.coordinator.completes groupId call with
      | true => exact .inl ⟨group, member, present, known, preparing, isGeneration, completes⟩
      | false =>
          right
          have spared : ¬ state.coordinator.Loses groupId call := keeps [] call calls rfl
          have inGroup := has_member_iff.mpr ⟨group, member, present, known⟩
          have unremoved : state.coordinator.removes groupId memberId call = false := by
            rw [Bool.eq_false_iff]
            exact fun removes => spared ⟨memberId, inGroup, removes⟩
          obtain ⟨next, now, there, found⟩ := has_member_iff.mp (stays_member inGroup unremoved)
          have occupied : next.members.isEmpty = false := by
            rw [Bool.eq_false_iff]
            intro nobody
            rw [find_in_empty nobody] at found
            cases found
          obtain ⟨still, same⟩ := goes_on_preparing present preparing completes
            (after_holds holds call groupId next there) there occupied
          apply @ih ⟨state.coordinator.after call, state.issued ++ state.coordinator.issues call⟩
            (after_holds holds call) (issuing_step issued rfl) next now there found still
            (same.trans isGeneration) (back ++ (state.coordinator.joiner groupId call).toList)
          · intro id now isNow inside
            cases member_shift present preparing named there isNow with
            | joined _ isBack => exact isBack
            | stayed other was =>
                rcases List.mem_append.mp inside with before | joins
                · exact returned id now was before
                · exact absurd (Option.mem_toList.mp joins) other
            | recalled lost => exact absurd lost spared
          · intro done other rest split
            exact keeps (call :: done) other rest (by rw [split, List.cons_append])
          · intro later id now isLater isNow
            have inside := all later id now isLater isNow
            rw [GroupCoordinator.joiners, ← List.append_assoc] at inside
            exact inside

end Runs

/-- A member that does not come back cannot hold up a rebalance for longer than
its session: unless the rebalance completes, nothing moves the session, and the
timer takes the member out when it is over. And once everyone has joined who is
left when nobody goes any more, the rebalance is complete. -/
theorem silent_member_expires {state : Issuing}
    (reached : GuardedRun.Reaches Issuing.step (fun _ _ => True) Issuing.start state)
    {groupId memberId : Bytes} {group : Group} {member : Member}
    (present : state.coordinator.groups.find? groupId = some group)
    (preparing : group.state = .preparingRebalance)
    (known : group.members.find? memberId = some member) (calls : List GroupCall) :
    ((∀ call ∈ calls, ¬ call.Joins groupId memberId) →
      state.coordinator.CompletesWithin groupId memberId group.generation calls ∨
        (∀ later now, (state.coordinator.afterAll calls).groups.find? groupId = some later →
          later.members.find? memberId = some now →
            now.lastHeartbeatMs = member.lastHeartbeatMs ∧ now.sessionTimeoutMs = member.sessionTimeoutMs) ∧
        ∀ nowMs, member.sessionTimeoutMs ≤ nowMs - member.lastHeartbeatMs →
          ((state.coordinator.afterAll calls).after (.expire nowMs)).hasMember groupId memberId = false) ∧
    ((∀ done call rest, calls = done ++ call :: rest →
        ¬ (state.coordinator.afterAll done).Loses groupId call) →
      (∀ later id now, (state.coordinator.afterAll calls).groups.find? groupId = some later →
        later.members.find? id = some now → id ∈ state.coordinator.joiners groupId calls) →
      state.coordinator.CompletesWithin groupId memberId group.generation calls) := by
  have kept := reached.invariant _ _ (fun state => state.coordinator.Holds ∧ IssuingHolds state)
    ⟨nofun, issuing_start_holds⟩ (by
      intro state call next both _ taken
      refine ⟨?_, issuing_step both.2 taken⟩
      cases taken
      exact after_holds both.1 call)
  have knows := kept.2.owned groupId group present memberId member known
  have named := issued_for_named reached _ knows
  constructor
  · intro quiet
    have waits : state.coordinator.Waits groupId memberId group.generation member := by
      intro other now isOther isNow
      cases present.symm.trans isOther
      cases known.symm.trans isNow
      exact ⟨preparing, rfl, rfl, rfl⟩
    rcases waits_run kept.1 kept.2 named knows waits quiet with completes | waiting
    · exact .inl completes
    · right
      refine ⟨?_, fun nowMs due => due_member_expires waiting due⟩
      intro later now isLater isNow
      exact (waiting later now isLater isNow).2.2
  · intro keeps all
    have nobody_back : ∀ id now, group.members.find? id = some now → id ∈ ([] : List Bytes) →
        now.rejoined = true := fun _ _ _ => nofun
    apply all_back_completes kept.1 kept.2 named present known preparing rfl nobody_back keeps
    intro later id now isLater isNow
    exact all later id now isLater isNow

def onlyBeats : List GroupCall :=
  [.heartbeat [103] [97, 45, 49] 1 5000, .join [103] [98, 45, 50] [98] [[117]] [[114]] 10000 6000]

def bothJoin : List GroupCall :=
  [.join [103] [98, 45, 50] [98] [[117]] [[114]] 10000 6000,
    .join [103] [97, 45, 49] [97] [[116]] [[114]] 10000 6000]

theorem silent_member_expires_first : ∃ state : Issuing,
    ((state.coordinator.afterAll onlyBeats).after (.expire 10000)).hasMember [103] [97, 45, 49] = false ∧
      state.coordinator.CompletesWithin [103] [97, 45, 49] 1 bothJoin := by
  obtain ⟨state, reached, checked⟩ := GuardedRun.found_by_run Issuing.step (fun _ _ => True)
    Issuing.start
    (fun state =>
      ((state.coordinator.groups.find? [103]).any fun group => group.state == .preparingRebalance &&
        group.generation == 1 && (group.members.find? [97, 45, 49]).any fun member =>
          member.lastHeartbeatMs == 0 && member.sessionTimeoutMs == 10000) &&
      (onlyBeats.zip [state.coordinator, state.coordinator.afterAll (onlyBeats.take 1)]).all
        (fun at_ => !at_.2.completes [103] at_.1) &&
      ((state.coordinator.afterAll bothJoin).groups.find? [103]).all fun later =>
        later.members.entries.all fun entry => entry.1 == [98, 45, 50] || entry.1 == [97, 45, 49])
    secondComes (by decide +kernel)
  simp only [Bool.and_eq_true, Option.any_eq_true, beq_iff_eq, onlyBeats, List.zip_cons_cons,
    List.zip_nil_right, List.all_cons, List.all_nil, and_true, Bool.not_eq_eq_eq_not, Bool.not_true]
    at checked
  obtain ⟨⟨⟨group, present, ⟨preparing, generation⟩, member, known, heartbeat, timeout⟩, first, second⟩,
    returned⟩ := checked
  refine ⟨state, ?_, ?_⟩
  · have quiet : ∀ call ∈ onlyBeats, ¬ call.Joins [103] [97, 45, 49] := by
      intro call inside
      simp only [onlyBeats, List.mem_cons, List.not_mem_nil, or_false] at inside
      rcases inside with rfl | rfl
      · exact id
      · exact fun joins => absurd joins.2 (by decide)
    rcases (silent_member_expires reached present preparing known onlyBeats).1 quiet with
      completes | ⟨_, expires⟩
    · rcases completes with ⟨_, _, _, _, _, _, now⟩ | ⟨_, _, _, _, _, _, later⟩ | never
      · exact absurd (first.symm.trans now) Bool.false_ne_true
      · exact absurd (second.symm.trans later) Bool.false_ne_true
      · exact never.elim
    · exact expires 10000 (by rw [heartbeat, timeout]; decide)
  · have within := (silent_member_expires reached present preparing known bothJoin).2
    rw [generation] at within
    apply within
    · intro done call rest split
      have joins : call.joinsAs ≠ none := by
        have inside : call ∈ bothJoin := by
          rw [split]
          simp
        simp only [bothJoin, List.mem_cons, List.not_mem_nil, or_false] at inside
        rcases inside with rfl | rfl <;> simp [GroupCall.joinsAs]
      rintro ⟨id, _, removes⟩
      cases call with
      | join => cases removes
      | sync | heartbeat | leave | expire => exact joins rfl
    · intro later id now isLater isNow
      rw [isLater, Option.all_some] at returned
      have each := (later.members.all_iff fun id _ => id == [98, 45, 50] || id == [97, 45, 49]).mp returned
        id now isNow
      simp only [Bool.or_eq_true, beq_iff_eq] at each
      simpa [GroupCoordinator.joiners, GroupCoordinator.joiner, bothJoin] using each

end DariyaKyu.Groups

import DariyaKyu.Group.MemberIds

/-!
Fencing by generation. A member id and a generation that are not those of the
group now are refused, and a pair that has gone out of date never comes back:
an id is given out once, nobody joins under an id that is not in the group, and
every rebalance that completes is a generation higher than the one before.
-/

namespace DariyaKyu.Groups

set_option autoImplicit false

def Group.everyoneBack (group : Group) : Bool :=
  !group.members.isEmpty && group.members.entries.all (·.2.rejoined)

/-- What a call passes to `maybeCompleteJoin` for the group with an id, if it
gets that far. -/
def GroupCoordinator.rebalanced (coordinator : GroupCoordinator) (groupId : Bytes) :
    GroupCall → Option Group
  | .join target memberId clientId subscription protocols sessionTimeoutMs nowMs =>
      let group := coordinator.groupFor groupId
      let id := if memberId = [] then coordinator.freshId clientId else memberId
      if target = groupId ∧ target ≠ [] ∧ (memberId = [] ∨ (group.members.find? memberId).isSome) ∧
          group.isRetry id subscription protocols = false then
        some (group.rejoining id clientId subscription protocols sessionTimeoutMs nowMs)
      else none
  | .leave target memberId =>
      match coordinator.groups.find? groupId with
      | none => none
      | some group =>
          if target = groupId ∧ (group.members.find? memberId).isSome then
            some { group with members := group.members.erase memberId }.beginRebalance
          else none
  | .expire nowMs =>
      match coordinator.groups.find? groupId with
      | none => none
      | some group =>
          if group.members.entries.any (·.2.timedOut nowMs) then
            some { group with
              members := group.members.filter fun _ member => !member.timedOut nowMs }.beginRebalance
          else none
  | _ => none

def GroupCoordinator.completes (coordinator : GroupCoordinator) (groupId : Bytes)
    (call : GroupCall) : Bool :=
  (coordinator.rebalanced groupId call).any Group.everyoneBack

theorem complete_join_generation (group : Group) :
    group.maybeCompleteJoin.generation = group.generation + if group.everyoneBack then 1 else 0 := by
  unfold Group.everyoneBack
  rcases complete_join_cases group with ⟨nobody, completed⟩ | ⟨id, member, found, waits, completed⟩ |
    ⟨leaderId, leader, first, rejoined, completed⟩
  · simp [completed, nobody]
  · have notAll : group.members.entries.all (·.2.rejoined) ≠ true := by
      intro all
      have back := (group.members.all_iff fun _ member => member.rejoined).mp all id member found
      rw [waits] at back
      cases back
    simp [completed, notAll]
  · have all := (group.members.all_iff fun _ member => member.rejoined).mpr rejoined
    have occupied : group.members.isEmpty = false := by
      rw [Bool.eq_false_iff]
      intro nobody
      simp only [OrderedMap.isEmpty, List.isEmpty_iff] at nobody
      simp [OrderedMap.first?, nobody] at first
    simp [completed, all, occupied]

/-- The group after a call is what `maybeCompleteJoin` makes of what it was
passed, or it is in the generation it was in. -/
def GroupCoordinator.Rebalances (coordinator : GroupCoordinator) (groupId : Bytes) (call : GroupCall)
    (group next : Group) : Prop :=
  (∃ passed, coordinator.rebalanced groupId call = some passed ∧
      passed.generation = group.generation ∧ next = passed.maybeCompleteJoin) ∨
    (coordinator.rebalanced groupId call = none ∧ next.generation = group.generation)

section Rebalances

variable {coordinator : GroupCoordinator} {groupId : Bytes} {group next : Group}

theorem rebalances_joined (present : coordinator.groups.find? groupId = some group) (named : groupId ≠ [])
    {memberId clientId : Bytes} {subscription protocols : List Bytes} {sessionTimeoutMs nowMs : Int}
    (known : memberId = [] ∨ (group.members.find? memberId).isSome)
    (joined : next = (group.join (if memberId = [] then coordinator.freshId clientId else memberId)
      clientId subscription protocols sessionTimeoutMs nowMs).1) :
    coordinator.Rebalances groupId
      (.join groupId memberId clientId subscription protocols sessionTimeoutMs nowMs) group next := by
  have isGroup : coordinator.groupFor groupId = group := by
    simp only [GroupCoordinator.groupFor, present, Option.getD_some]
  subst joined
  rcases join_cases group (if memberId = [] then coordinator.freshId clientId else memberId)
    clientId subscription protocols sessionTimeoutMs nowMs with ⟨retry, joined⟩ | ⟨anew, joined⟩
  · refine .inr ⟨?_, by rw [joined]; rfl⟩
    simp only [GroupCoordinator.rebalanced, isGroup, retry, Bool.true_eq_false, and_false, if_false]
  · left
    have same := (rejoining_state group (if memberId = [] then coordinator.freshId clientId else memberId)
      clientId subscription protocols sessionTimeoutMs nowMs).2
    refine ⟨_, ?_, same, joined⟩
    simp only [GroupCoordinator.rebalanced, isGroup]
    rw [if_pos ⟨trivial, named, known, anew⟩]

theorem rebalances_join (present : coordinator.groups.find? groupId = some group)
    {target memberId clientId : Bytes} {subscription protocols : List Bytes}
    {sessionTimeoutMs nowMs : Int}
    (there : (coordinator.join target memberId clientId subscription protocols sessionTimeoutMs
      nowMs).1.groups.find? groupId = some next) :
    coordinator.Rebalances groupId
      (.join target memberId clientId subscription protocols sessionTimeoutMs nowMs) group next := by
  have isGroup : coordinator.groupFor groupId = group := by
    simp only [GroupCoordinator.groupFor, present, Option.getD_some]
  have same : ∀ unchanged : coordinator.groups.find? groupId = some next,
      next.generation = group.generation := by
    intro unchanged
    rw [Option.some.inj (present.symm.trans unchanged)]
  by_cases here : target = groupId
  · subst here
    by_cases named : target = []
    · right
      simp only [GroupCoordinator.join, named, if_true] at there
      simp only [GroupCoordinator.rebalanced, named, ne_eq, not_true_eq_false, false_and, and_false,
        if_false, true_and]
      rw [named] at same
      exact same there
    · simp only [GroupCoordinator.join, named, if_false, isGroup] at there
      by_cases fresh : memberId = []
      · rw [if_pos fresh] at there
        apply rebalances_joined present named (.inl fresh)
        rcases stored_find there with ⟨_, joined⟩ | ⟨elsewhere, _⟩
        · rw [if_pos fresh]
          exact joined
        · exact absurd rfl elsewhere
      · rw [if_neg fresh] at there
        by_cases unknown : (group.members.find? memberId).isNone = true
        · right
          rw [if_pos unknown] at there
          rcases stored_find there with ⟨_, rfl⟩ | ⟨elsewhere, _⟩
          · simp only [GroupCoordinator.rebalanced, isGroup]
            simp [fresh, Option.isNone_iff_eq_none.mp unknown]
          · exact absurd rfl elsewhere
        · rw [if_neg unknown] at there
          apply rebalances_joined present named (.inr (Option.isNone_eq_false_iff.mp (Bool.not_eq_true _ ▸ unknown)))
          rcases stored_find there with ⟨_, joined⟩ | ⟨elsewhere, _⟩
          · rw [if_neg fresh]
            exact joined
          · exact absurd rfl elsewhere
  · right
    have unchanged : coordinator.groups.find? groupId = some next := by
      unfold GroupCoordinator.join at there
      split at there
      · exact there
      simp only at there
      split at there
      · exact (stored_find there).resolve_left (fun both => here both.1.symm) |>.2
      split at there
      · exact (stored_find there).resolve_left (fun both => here both.1.symm) |>.2
      · exact (stored_find there).resolve_left (fun both => here both.1.symm) |>.2
    exact ⟨by simp [GroupCoordinator.rebalanced, here], same unchanged⟩

theorem rebalances_leave (present : coordinator.groups.find? groupId = some group)
    {target memberId : Bytes}
    (there : (coordinator.leave target memberId).1.groups.find? groupId = some next) :
    coordinator.Rebalances groupId (.leave target memberId) group next := by
  have same : ∀ unchanged : coordinator.groups.find? groupId = some next,
      next.generation = group.generation := by
    intro unchanged
    rw [Option.some.inj (present.symm.trans unchanged)]
  by_cases here : target = groupId
  · subst here
    simp only [GroupCoordinator.leave, present] at there
    by_cases unknown : (group.members.find? memberId).isNone = true
    · right
      rw [if_pos unknown] at there
      refine ⟨?_, same there⟩
      simp only [GroupCoordinator.rebalanced, present]
      simp [Option.isNone_iff_eq_none.mp unknown]
    · left
      rw [if_neg unknown] at there
      have known := Option.isNone_eq_false_iff.mp (Bool.not_eq_true _ ▸ unknown)
      split at there
      · simp at there
      · let passed := { group with members := group.members.erase memberId }.beginRebalance
        have isPassed : coordinator.rebalanced target (.leave target memberId) = some passed := by
          simp only [GroupCoordinator.rebalanced, present, known, and_self, if_true, passed]
        refine ⟨passed, isPassed, rfl, ?_⟩
        rcases stored_find there with ⟨_, left⟩ | ⟨elsewhere, _⟩
        · exact left
        · exact absurd rfl elsewhere
  · right
    refine ⟨by simp [GroupCoordinator.rebalanced, present, here], ?_⟩
    cases group_step_leave coordinator target memberId there with
    | kept unchanged => exact same unchanged
    | left => exact absurd rfl here

theorem rebalances_expire (present : coordinator.groups.find? groupId = some group) {nowMs : Int}
    (there : (coordinator.expire nowMs).1.groups.find? groupId = some next) :
    coordinator.Rebalances groupId (.expire nowMs) group next := by
  simp only [GroupCoordinator.expire, OrderedMap.find_filter, OrderedMap.find_map_values, present,
    Option.map_some, Option.filter_eq_some_iff, Option.some.injEq] at there
  obtain ⟨rfl, _⟩ := there
  unfold GroupCoordinator.Rebalances
  simp only [GroupCoordinator.rebalanced, present, Group.expire]
  split
  · exact .inl ⟨_, rfl, rfl, rfl⟩
  · exact .inr ⟨rfl, rfl⟩

theorem rebalances (present : coordinator.groups.find? groupId = some group) {call : GroupCall}
    (there : (coordinator.after call).groups.find? groupId = some next) :
    coordinator.Rebalances groupId call group next := by
  cases call with
  | join => exact rebalances_join present there
  | leave => exact rebalances_leave present there
  | expire => exact rebalances_expire present there
  | sync =>
      refine .inr ⟨rfl, ?_⟩
      cases group_step coordinator _ there with
      | kept unchanged => rw [Option.some.inj (present.symm.trans unchanged)]
      | synced was | assigned was =>
          rw [Option.some.inj (present.symm.trans was)]
          rfl
  | heartbeat =>
      refine .inr ⟨rfl, ?_⟩
      cases group_step coordinator _ there with
      | kept unchanged => rw [Option.some.inj (present.symm.trans unchanged)]
      | beat was =>
          rw [Option.some.inj (present.symm.trans was)]
          rfl

theorem generation_after (present : coordinator.groups.find? groupId = some group) {call : GroupCall}
    (there : (coordinator.after call).groups.find? groupId = some next) :
    next.generation = group.generation + if coordinator.completes groupId call then 1 else 0 := by
  unfold GroupCoordinator.completes
  rcases rebalances present there with ⟨passed, isPassed, generation, rfl⟩ | ⟨nothing, generation⟩
  · rw [isPassed, complete_join_generation, generation]
    rfl
  · rw [nothing, generation]
    simp

end Rebalances

/-- A member id and a generation, as a join of the group handed them out. -/
structure Pass where
  groupId : Bytes
  memberId : Bytes
  generation : Int
  deriving DecidableEq

/-- The pass names a member id of the group, if it names one at all. -/
def Issuing.Knows (state : Issuing) (pass : Pass) : Prop :=
  pass.memberId = [] ∨ (pass.memberId, pass.groupId) ∈ state.issued

/-- While its member is in the group, the group is not behind the pass. -/
def Issuing.Reached (state : Issuing) (pass : Pass) : Prop :=
  ∀ group member, state.coordinator.groups.find? pass.groupId = some group →
    group.members.find? pass.memberId = some member → pass.generation ≤ group.generation

/-- While its member is in the group, the group is ahead of the pass. -/
def Issuing.Passed (state : Issuing) (pass : Pass) : Prop :=
  ∀ group member, state.coordinator.groups.find? pass.groupId = some group →
    group.members.find? pass.memberId = some member → pass.generation < group.generation

theorem numbered_occupied {bound : Nat} {id : Bytes} (numbered : Numbered bound id) : id ≠ [] := by
  obtain ⟨clientId, number, _, rfl⟩ := numbered
  simp

section Passes

variable {state next : Issuing} {call : GroupCall} {pass : Pass}

theorem Issuing.Knows.step (knows : state.Knows pass) (taken : Issuing.step call state = some next) :
    next.Knows pass := by
  cases taken
  exact knows.imp_right (List.mem_append_left _)

/-- Who holds a pass of a group and is in it after a call was in it before. -/
theorem holder_was_member (holds : IssuingHolds state) (knows : state.Knows pass)
    (taken : Issuing.step call state = some next) {group : Group} {member : Member}
    (there : next.coordinator.groups.find? pass.groupId = some group)
    (present : group.members.find? pass.memberId = some member) :
    ∃ before old, state.coordinator.groups.find? pass.groupId = some before ∧
      before.members.find? pass.memberId = some old := by
  have after := issuing_step holds taken
  cases taken
  rcases members_after there present with ⟨before, old, was, isOld⟩ | issued
  · exact ⟨before, old, was, isOld⟩
  · rcases knows with anonymous | known
    · have numbered := after.numbered _ (List.mem_append_right _ issued)
      exact absurd anonymous (numbered_occupied numbered)
    · -- the id would have been given out a second time
      have distinct := after.distinct
      simp only [List.map_append, List.nodup_append] at distinct
      have twice := distinct.2.2 pass.memberId (List.mem_map.mpr ⟨_, known, rfl⟩) pass.memberId
        (List.mem_map.mpr ⟨_, issued, rfl⟩)
      exact absurd rfl twice

theorem Issuing.Reached.step (holds : IssuingHolds state) (knows : state.Knows pass)
    (reached : state.Reached pass) (taken : Issuing.step call state = some next) :
    next.Reached pass := by
  intro group member there present
  obtain ⟨before, old, was, isOld⟩ := holder_was_member holds knows taken there present
  have floor := reached before old was isOld
  cases taken
  have generation := generation_after was there
  split at generation <;> omega

theorem Issuing.Passed.step (holds : IssuingHolds state) (knows : state.Knows pass)
    (passed : state.Passed pass) (taken : Issuing.step call state = some next) :
    next.Passed pass := by
  intro group member there present
  obtain ⟨before, old, was, isOld⟩ := holder_was_member holds knows taken there present
  have floor := passed before old was isOld
  cases taken
  have generation := generation_after was there
  split at generation <;> omega

theorem Issuing.Reached.passes (holds : IssuingHolds state) (knows : state.Knows pass)
    (reached : state.Reached pass) (taken : Issuing.step call state = some next)
    (completes : state.coordinator.completes pass.groupId call = true) : next.Passed pass := by
  intro group member there present
  obtain ⟨before, old, was, isOld⟩ := holder_was_member holds knows taken there present
  have floor := reached before old was isOld
  cases taken
  have generation := generation_after was there
  rw [if_pos completes] at generation
  omega

/-- A pass that has been left behind is current for no group. -/
theorem Issuing.Passed.stale (holds : IssuingHolds state) (knows : state.Knows pass)
    (passed : state.Passed pass) (groupId : Bytes) :
    ¬ state.coordinator.Current groupId pass.memberId pass.generation := by
  rintro ⟨group, member, there, present, same⟩
  have owned := holds.owned groupId group there pass.memberId member present
  rcases knows with anonymous | known
  · exact absurd anonymous (numbered_occupied (holds.numbered _ owned))
  · -- an id belongs to one group
    have sameGroup : groupId = pass.groupId := by
      have equal := List.inj_on_of_nodup_map holds.distinct owned known rfl
      exact congrArg Prod.snd equal
    subst sameGroup
    have ahead := passed group member there present
    omega

end Passes

end DariyaKyu.Groups

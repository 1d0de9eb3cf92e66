import DariyaKyu.Group.Fencing

/-!
Who stays in a group. Only two calls take a member out: its own leave, and the
timer when it is due. With the generations this says exactly how long a pair of
a member id and a generation stays current.
-/

namespace DariyaKyu.Groups

set_option autoImplicit false

def GroupCoordinator.hasMember (coordinator : GroupCoordinator) (groupId memberId : Bytes) : Bool :=
  ((coordinator.groups.find? groupId).bind (·.members.find? memberId)).isSome

def GroupCoordinator.removes (coordinator : GroupCoordinator) (groupId memberId : Bytes) :
    GroupCall → Bool
  | .leave target leaving => target == groupId && leaving == memberId
  | .expire nowMs =>
      ((coordinator.groups.find? groupId).bind (·.members.find? memberId)).any (·.timedOut nowMs)
  | _ => false

/-- The call takes the member out, or takes its group to the next generation. -/
def GroupCoordinator.overtakes (coordinator : GroupCoordinator) (pass : Pass) (call : GroupCall) :
    Bool :=
  coordinator.removes pass.groupId pass.memberId call || coordinator.completes pass.groupId call

section Members

variable {coordinator : GroupCoordinator} {groupId memberId : Bytes}

theorem has_member_iff : coordinator.hasMember groupId memberId = true ↔
    ∃ group member, coordinator.groups.find? groupId = some group ∧
      group.members.find? memberId = some member := by
  simp only [GroupCoordinator.hasMember, Option.isSome_iff_exists, Option.bind_eq_some_iff]
  exact exists_comm.trans (exists_congr fun _ => by simp)

theorem has_member_store (stored : Bytes) (group : Group) :
    (coordinator.store stored group).hasMember groupId memberId =
      if groupId = stored then (group.members.find? memberId).isSome
      else coordinator.hasMember groupId memberId := by
  simp only [GroupCoordinator.hasMember, GroupCoordinator.store, OrderedMap.find_insert]
  split <;> rfl

theorem touch_has (group : Group) (id memberId : Bytes) (nowMs : Int) :
    ((group.touch id nowMs).members.find? memberId).isSome = (group.members.find? memberId).isSome := by
  simp [Group.touch]

theorem assign_has (group : Group) (assignments : OrderedMap Bytes Bytes) (memberId : Bytes) :
    ((group.assign assignments).members.find? memberId).isSome =
      (group.members.find? memberId).isSome := by
  simp [Group.assign]

theorem join_keeps (group : Group) (id clientId : Bytes) (subscription protocols : List Bytes)
    (sessionTimeoutMs nowMs : Int) (present : (group.members.find? memberId).isSome = true) :
    ((group.join id clientId subscription protocols sessionTimeoutMs
      nowMs).1.members.find? memberId).isSome = true := by
  rcases join_cases group id clientId subscription protocols sessionTimeoutMs nowMs with
    ⟨_, joined⟩ | ⟨_, joined⟩
  · rw [joined, touch_has]
    exact present
  · rw [joined, complete_join_members]
    simp only [Group.rejoining, Group.enroll, OrderedMap.find_insert]
    split
    · rfl
    split
    · exact present
    · rw [begin_rebalance_find, Option.isSome_map]
      exact present

theorem join_enters (group : Group) (id clientId : Bytes) (subscription protocols : List Bytes)
    (sessionTimeoutMs nowMs : Int) :
    ((group.join id clientId subscription protocols sessionTimeoutMs nowMs).1.members.find? id).isSome =
      true := by
  rcases join_cases group id clientId subscription protocols sessionTimeoutMs nowMs with
    ⟨retry, _⟩ | ⟨_, joined⟩
  · apply join_keeps
    unfold Group.isRetry at retry
    split at retry
    · cases retry
    · next member found => simp [found]
  · rw [joined, complete_join_members]
    simp [Group.rejoining, Group.enroll]

theorem expire_has (group : Group) (memberId : Bytes) (nowMs : Int) :
    ((group.expire nowMs).members.find? memberId).isSome =
      (group.members.find? memberId).any (!·.timedOut nowMs) := by
  have kept : ((group.members.filter fun _ member => !member.timedOut nowMs).find? memberId).isSome =
      (group.members.find? memberId).any (!·.timedOut nowMs) := by
    rw [OrderedMap.find_filter]
    cases group.members.find? memberId with
    | none => rfl
    | some member => cases late : member.timedOut nowMs <;> simp [Option.filter, late]
  unfold Group.expire
  split
  · rw [complete_join_members, begin_rebalance_find, Option.isSome_map]
    exact kept
  · exact kept

theorem groupFor_has (present : coordinator.hasMember groupId memberId = true) :
    ((coordinator.groupFor groupId).members.find? memberId).isSome = true := by
  obtain ⟨group, member, there, found⟩ := has_member_iff.mp present
  simp [GroupCoordinator.groupFor, there, found]

theorem fresh_join (occupied : groupId ≠ []) (clientId : Bytes) (subscription protocols : List Bytes)
    (sessionTimeoutMs nowMs : Int) {joined : GroupCoordinator × JoinResult}
    (isJoined : coordinator.join groupId [] clientId subscription protocols sessionTimeoutMs nowMs = joined) :
    joined.1.nextMemberId = coordinator.nextMemberId + 1 ∧
      joined.1.hasMember groupId (coordinator.freshId clientId) = true ∧
      joined.2.memberId = coordinator.freshId clientId := by
  rw [GroupCoordinator.join, if_neg occupied] at isJoined
  simp only [if_true] at isJoined
  subst isJoined
  refine ⟨rfl, ?_, join_member_id _ _ _ _ _ _ _⟩
  rw [has_member_store, if_pos rfl]
  exact join_enters _ _ _ _ _ _ _

theorem join_stays (present : coordinator.hasMember groupId memberId = true)
    (target joining clientId : Bytes) (subscription protocols : List Bytes)
    (sessionTimeoutMs nowMs : Int) :
    (coordinator.join target joining clientId subscription protocols sessionTimeoutMs
      nowMs).1.hasMember groupId memberId = true := by
  unfold GroupCoordinator.join
  split
  · exact present
  simp only
  split
  · rw [has_member_store]
    split
    · next same => exact join_keeps _ _ _ _ _ _ _ (groupFor_has (same ▸ present))
    · exact present
  split
  · rw [has_member_store]
    split
    · next same => exact groupFor_has (same ▸ present)
    · exact present
  · rw [has_member_store]
    split
    · next same => exact join_keeps _ _ _ _ _ _ _ (groupFor_has (same ▸ present))
    · exact present

theorem sync_stays (present : coordinator.hasMember groupId memberId = true) (target syncing : Bytes)
    (generation : Int) (assignments : OrderedMap Bytes Bytes) (nowMs : Int) :
    (coordinator.sync target syncing generation assignments nowMs).1.hasMember groupId memberId =
      true := by
  unfold GroupCoordinator.sync
  split
  · exact present
  next group there =>
  have inside : groupId = target → (group.members.find? memberId).isSome = true := by
    intro same
    simpa [GroupCoordinator.hasMember, same, there] using present
  split
  · exact present
  split
  · exact present
  split
  · exact present
  simp only
  split
  · split
    · rw [has_member_store, assign_has, touch_has]
      split
      · next same => exact inside same
      · exact present
    · rw [has_member_store, touch_has]
      split
      · next same => exact inside same
      · exact present
  · rw [has_member_store, touch_has]
    split
    · next same => exact inside same
    · exact present

theorem heartbeat_stays (present : coordinator.hasMember groupId memberId = true)
    (target beating : Bytes) (generation nowMs : Int) :
    (coordinator.heartbeat target beating generation nowMs).1.hasMember groupId memberId = true := by
  unfold GroupCoordinator.heartbeat
  split
  · exact present
  next group there =>
  split
  · exact present
  split
  · exact present
  split
  · exact present
  · rw [has_member_store, touch_has]
    split
    · next same => simpa [GroupCoordinator.hasMember, same, there] using present
    · exact present

theorem find_in_empty {members : OrderedMap Bytes Member} (nobody : members.isEmpty = true)
    (id : Bytes) : members.find? id = none :=
  members.is_empty_iff.mp nobody id

theorem leave_has (target leaving : Bytes) :
    (coordinator.leave target leaving).1.hasMember groupId memberId =
      (coordinator.hasMember groupId memberId &&
        !coordinator.removes groupId memberId (.leave target leaving)) := by
  simp only [GroupCoordinator.removes]
  unfold GroupCoordinator.leave
  by_cases elsewhere : groupId = target
  · subst elsewhere
    split
    · next absent => simp [GroupCoordinator.hasMember, absent]
    next group there =>
    have before : coordinator.hasMember groupId memberId = (group.members.find? memberId).isSome := by
      simp [GroupCoordinator.hasMember, there]
    split
    · next unknown =>
      by_cases same : leaving = memberId
      · subst same
        simp [before, Option.isNone_iff_eq_none.mp unknown]
      · simp [same]
    simp only
    have erased : (({ group with members := group.members.erase leaving }.beginRebalance.maybeCompleteJoin
        ).members.find? memberId).isSome =
          ((group.members.find? memberId).isSome && !(leaving == memberId)) := by
      rw [complete_join_members, begin_rebalance_find, Option.isSome_map]
      simp only [OrderedMap.find_erase]
      by_cases same : memberId = leaving
      · simp [same]
      · simp [same, Ne.symm same]
    split
    · next nobody =>
      rw [find_in_empty nobody] at erased
      simp [GroupCoordinator.hasMember, there, ← erased]
    · rw [has_member_store, if_pos rfl, erased, before]
      simp
  · have other : (target == groupId) = false := by simpa using Ne.symm elsewhere
    rw [other, Bool.false_and, Bool.not_false, Bool.and_true]
    split
    · rfl
    split
    · rfl
    simp only
    split
    · simp [GroupCoordinator.hasMember, elsewhere]
    · rw [has_member_store, if_neg elsewhere]

theorem expire_has_member (nowMs : Int) :
    (coordinator.expire nowMs).1.hasMember groupId memberId =
      (coordinator.hasMember groupId memberId &&
        !coordinator.removes groupId memberId (.expire nowMs)) := by
  simp only [GroupCoordinator.removes, GroupCoordinator.hasMember, GroupCoordinator.expire,
    OrderedMap.find_filter, OrderedMap.find_map_values]
  cases coordinator.groups.find? groupId with
  | none => rfl
  | some group =>
      have inside := expire_has group memberId nowMs
      simp only [Option.map_some, Option.bind_some]
      by_cases nobody : (group.expire nowMs).members.isEmpty = true
      · rw [find_in_empty nobody] at inside
        cases found : group.members.find? memberId with
        | none => simp [Option.filter, nobody]
        | some member =>
            rw [found] at inside
            simpa [Option.filter, nobody] using inside
      · have occupied : (group.expire nowMs).members.isEmpty = false := by simpa using nobody
        simp only [Option.filter, occupied, Bool.not_false, if_true, Option.bind_some, inside]
        cases group.members.find? memberId <;> simp

theorem stays_member (present : coordinator.hasMember groupId memberId = true) {call : GroupCall}
    (keeps : coordinator.removes groupId memberId call = false) :
    (coordinator.after call).hasMember groupId memberId = true := by
  cases call with
  | join => exact join_stays present _ _ _ _ _ _ _
  | sync => exact sync_stays present _ _ _ _ _
  | heartbeat => exact heartbeat_stays present _ _ _ _
  | leave => simp [GroupCoordinator.after, leave_has, present, keeps]
  | expire => simp [GroupCoordinator.after, expire_has_member, present, keeps]

theorem removed_is_out {call : GroupCall} (removes : coordinator.removes groupId memberId call = true) :
    (coordinator.after call).hasMember groupId memberId = false := by
  cases call with
  | leave => simp [GroupCoordinator.after, leave_has, removes]
  | expire => simp [GroupCoordinator.after, expire_has_member, removes]
  | join | sync | heartbeat => cases removes

end Members

section Overtaking

variable {state next : Issuing} {call : GroupCall} {pass : Pass}

theorem current_stays {coordinator : GroupCoordinator}
    (current : coordinator.Current pass.groupId pass.memberId pass.generation)
    (kept : coordinator.overtakes pass call = false) :
    (coordinator.after call).Current pass.groupId pass.memberId pass.generation := by
  obtain ⟨group, member, there, found, same⟩ := current
  simp only [GroupCoordinator.overtakes, Bool.or_eq_false_iff] at kept
  have present : coordinator.hasMember pass.groupId pass.memberId = true :=
    has_member_iff.mpr ⟨group, member, there, found⟩
  obtain ⟨later, still, isLater, isStill⟩ := has_member_iff.mp (stays_member present kept.1)
  have generation := generation_after there isLater
  rw [kept.2] at generation
  exact ⟨later, still, isLater, isStill, by simpa [same] using generation.symm⟩

theorem overtaken_is_passed (holds : IssuingHolds state) (knows : state.Knows pass)
    (current : state.coordinator.Current pass.groupId pass.memberId pass.generation)
    (taken : Issuing.step call state = some next)
    (overtaken : state.coordinator.overtakes pass call = true) : next.Passed pass := by
  simp only [GroupCoordinator.overtakes, Bool.or_eq_true] at overtaken
  rcases overtaken with removes | completes
  · intro group member there found
    have out := removed_is_out removes
    cases taken
    have inside := has_member_iff.mpr ⟨group, member, there, found⟩
    rw [out] at inside
    cases inside
  · have reached : state.Reached pass := by
      intro group member there _
      obtain ⟨same, _, isSame, _, generation⟩ := current
      cases there.symm.trans isSame
      exact le_of_eq generation
    exact reached.passes holds knows taken completes

end Overtaking

end DariyaKyu.Groups

import DariyaKyu.Group.Membership

/-!
What the timer does. `expire` goes through the members of every group, erases
those whose session is due, starts a rebalance where someone was lost, and
erases the groups that nobody is left in. One group is one of three cases, and
what is left has nothing due in it.
-/

namespace DariyaKyu.Groups

set_option autoImplicit false

def Group.InTime (group : Group) (nowMs : Int) : Prop :=
  group.members.isEmpty = false ∧
    ∀ id member, group.members.find? id = some member → member.timedOut nowMs = false

def GroupCoordinator.memberCount (coordinator : GroupCoordinator) : Nat :=
  (coordinator.groups.entries.map fun entry => entry.2.members.entries.length).sum

structure Expired (before after : GroupCoordinator) (nowMs : Int) (count : Nat) : Prop where
  members : ∀ groupId id, after.hasMember groupId id = true ↔ ∃ group member,
    before.groups.find? groupId = some group ∧ group.members.find? id = some member ∧
      member.timedOut nowMs = false
  counted : before.memberCount = after.memberCount + count
  untouched : ∀ groupId group, before.groups.find? groupId = some group → group.InTime nowMs →
    after.groups.find? groupId = some group
  rebalances : ∀ groupId group, before.groups.find? groupId = some group →
    (∃ id late, group.members.find? id = some late ∧ late.timedOut nowMs = true) →
    (∃ id early, group.members.find? id = some early ∧ early.timedOut nowMs = false) →
      ∃ next, after.groups.find? groupId = some next ∧ next.state = .preparingRebalance ∧
        ∀ id, next.members.find? id = ((group.members.find? id).filter fun member =>
          !member.timedOut nowMs).map fun member => { member with rejoined := false }
  gone : ∀ groupId group, before.groups.find? groupId = some group →
    (∀ id member, group.members.find? id = some member → member.timedOut nowMs = true) →
      after.groups.find? groupId = none
  noneNew : ∀ groupId, before.groups.find? groupId = none → after.groups.find? groupId = none
  issued : after.nextMemberId = before.nextMemberId

section OneGroup

variable {group : Group} {nowMs : Int}

theorem nobody_due_iff : group.members.entries.any (·.2.timedOut nowMs) = false ↔
    ∀ id member, group.members.find? id = some member → member.timedOut nowMs = false := by
  rw [List.any_eq_false]
  constructor
  · intro none id member found
    exact Bool.eq_false_iff.mpr (none (id, member) (group.members.mem_entries.mpr found))
  · rintro none ⟨id, member⟩ inside
    rw [none id member (group.members.mem_entries.mp inside)]
    exact Bool.false_ne_true

theorem somebody_due_iff : group.members.entries.any (·.2.timedOut nowMs) = true ↔
    ∃ id member, group.members.find? id = some member ∧ member.timedOut nowMs = true := by
  rw [List.any_eq_true]
  constructor
  · rintro ⟨⟨id, member⟩, inside, late⟩
    exact ⟨id, member, group.members.mem_entries.mp inside, late⟩
  · rintro ⟨id, member, found, late⟩
    exact ⟨(id, member), group.members.mem_entries.mpr found, late⟩

theorem expire_in_time
    (inTime : ∀ id member, group.members.find? id = some member → member.timedOut nowMs = false) :
    group.expire nowMs = group := by
  have kept : group.members.filter (fun _ member => !member.timedOut nowMs) = group.members := by
    apply group.members.filter_same
    intro id member found
    rw [inTime id member found]
    rfl
  unfold Group.expire
  rw [nobody_due_iff.mpr inTime]
  simp only [Bool.false_eq_true, if_false, kept]

theorem expire_some_due
    (due : ∃ id late, group.members.find? id = some late ∧ late.timedOut nowMs = true)
    (left : ∃ id early, group.members.find? id = some early ∧ early.timedOut nowMs = false) :
    group.expire nowMs =
      { group with members := group.members.filter fun _ member => !member.timedOut nowMs }.beginRebalance := by
  unfold Group.expire
  rw [somebody_due_iff.mpr due]
  simp only [if_true]
  obtain ⟨id, early, found, inTime⟩ := left
  have there : ({ group with
      members := group.members.filter fun _ member => !member.timedOut nowMs }.beginRebalance.members.find? id) =
        some { early with rejoined := false } := by
    rw [begin_rebalance_find, OrderedMap.find_filter, found]
    simp [Option.filter, inTime]
  rcases complete_join_cases { group with
      members := group.members.filter fun _ member => !member.timedOut nowMs }.beginRebalance with
    ⟨nobody, _⟩ | ⟨_, _, _, _, same⟩ | ⟨_, _, _, everyone, _⟩
  · rw [(OrderedMap.is_empty_iff _).mp nobody id] at there
    cases there
  · exact same
  · cases everyone id _ there

theorem expire_all_due
    (due : ∀ id member, group.members.find? id = some member → member.timedOut nowMs = true) :
    (group.expire nowMs).members.isEmpty = true := by
  apply (OrderedMap.is_empty_iff _).mpr
  intro id
  apply Option.eq_none_iff_forall_ne_some.mpr
  intro member found
  obtain ⟨old, isOld, inTime⟩ := expire_members found
  rw [due id old isOld] at inTime
  cases inTime

theorem expire_keeps {id : Bytes} {early : Member} (found : group.members.find? id = some early)
    (inTime : early.timedOut nowMs = false) :
    (∃ kept, (group.expire nowMs).members.find? id = some kept) ∧
      (group.expire nowMs).members.isEmpty = false := by
  have stays := expire_has group id nowMs
  rw [found, Option.any_some, inTime, Bool.not_false, Option.isSome_iff_exists] at stays
  refine ⟨stays, Bool.eq_false_iff.mpr fun empty => ?_⟩
  obtain ⟨kept, isKept⟩ := stays
  rw [(OrderedMap.is_empty_iff _).mp empty id] at isKept
  cases isKept

theorem expire_leaves_in_time {id : Bytes} {member : Member}
    (found : (group.expire nowMs).members.find? id = some member) : member.timedOut nowMs = false := by
  by_cases due : ∃ id late, group.members.find? id = some late ∧ late.timedOut nowMs = true
  · obtain ⟨old, isOld, inTime⟩ := expire_members found
    rw [expire_some_due due ⟨id, old, isOld, inTime⟩, begin_rebalance_find] at found
    obtain ⟨kept, isKept, rfl⟩ := Option.map_eq_some_iff.mp found
    rw [OrderedMap.find_filter, isOld] at isKept
    simp only [Option.filter, inTime, Bool.not_false, if_true, Option.some.injEq] at isKept
    rw [← isKept]
    exact inTime
  · have none : ∀ id member, group.members.find? id = some member → member.timedOut nowMs = false := by
      intro id member isMember
      exact Bool.eq_false_iff.mpr fun late => due ⟨id, member, isMember, late⟩
    rw [expire_in_time none] at found
    exact none id member found

theorem expire_count (group : Group) (nowMs : Int) : group.members.entries.length =
    (group.expire nowMs).members.entries.length +
      (group.members.entries.filter (·.2.timedOut nowMs)).length := by
  have parts := group.members.entries.length_eq_length_filter_add (·.2.timedOut nowMs)
  have kept : (group.expire nowMs).members.entries.length =
      (group.members.entries.filter (!·.2.timedOut nowMs)).length := by
    unfold Group.expire
    split
    · rw [complete_join_members]
      exact List.length_map _
    · rfl
  omega

end OneGroup

section Coordinator

variable (coordinator : GroupCoordinator) (nowMs : Int)

theorem expire_find (groupId : Bytes) : (coordinator.expire nowMs).1.groups.find? groupId =
    ((coordinator.groups.find? groupId).map (·.expire nowMs)).filter fun group => !group.members.isEmpty := by
  simp only [GroupCoordinator.expire, OrderedMap.find_filter, OrderedMap.find_map_values]

theorem expire_counts : coordinator.memberCount =
    (coordinator.expire nowMs).1.memberCount + (coordinator.expire nowMs).2 := by
  simp only [GroupCoordinator.memberCount, GroupCoordinator.expire, OrderedMap.filter, OrderedMap.mapValues]
  induction coordinator.groups.entries with
  | nil => rfl
  | cons entry rest ih =>
      have here := expire_count entry.2 nowMs
      simp only [List.map_cons, List.sum_cons, List.filter_cons]
      split
      · simp only [List.map_cons, List.sum_cons]
        omega
      · next nobody =>
        -- a group that is erased has no members left to count
        have empty : (entry.2.expire nowMs).members.entries.length = 0 := by
          rw [List.length_eq_zero_iff, ← List.isEmpty_iff]
          simpa [OrderedMap.isEmpty] using nobody
        omega

theorem expire_members_left (groupId id : Bytes) :
    (coordinator.expire nowMs).1.hasMember groupId id = true ↔ ∃ group member,
      coordinator.groups.find? groupId = some group ∧ group.members.find? id = some member ∧
        member.timedOut nowMs = false := by
  rw [has_member_iff]
  constructor
  · rintro ⟨next, member, there, found⟩
    rw [expire_find, Option.filter_eq_some_iff] at there
    obtain ⟨group, isGroup, rfl⟩ := Option.map_eq_some_iff.mp there.1
    obtain ⟨old, isOld, inTime⟩ := expire_members found
    exact ⟨group, old, isGroup, isOld, inTime⟩
  · rintro ⟨group, member, isGroup, found, inTime⟩
    obtain ⟨⟨kept, isKept⟩, occupied⟩ := expire_keeps found inTime
    refine ⟨group.expire nowMs, kept, ?_, isKept⟩
    rw [expire_find, isGroup]
    simp [Option.filter, occupied]

theorem expire_left_in_time {groupId : Bytes} {group : Group}
    (there : (coordinator.expire nowMs).1.groups.find? groupId = some group) : group.InTime nowMs := by
  rw [expire_find, Option.filter_eq_some_iff] at there
  obtain ⟨before, _, rfl⟩ := Option.map_eq_some_iff.mp there.1
  exact ⟨by simpa using there.2, fun _ _ found => expire_leaves_in_time found⟩

theorem expire_nothing {coordinator : GroupCoordinator} {nowMs : Int}
    (inTime : ∀ groupId group, coordinator.groups.find? groupId = some group → group.InTime nowMs) :
    coordinator.expire nowMs = (coordinator, 0) := by
  have same : (coordinator.groups.mapValues fun _ group => group.expire nowMs) = coordinator.groups := by
    apply OrderedMap.map_values_same
    intro groupId group there
    exact expire_in_time (inTime groupId group there).2
  have kept : coordinator.groups.filter (fun _ group => !group.members.isEmpty) = coordinator.groups := by
    apply OrderedMap.filter_same
    intro groupId group there
    rw [(inTime groupId group there).1]
    rfl
  have none : (coordinator.groups.entries.map fun entry =>
      (entry.2.members.entries.filter (·.2.timedOut nowMs)).length).sum = 0 := by
    apply List.sum_eq_zero
    intro number member
    obtain ⟨⟨groupId, group⟩, inside, rfl⟩ := List.mem_map.mp member
    have group_in_time := (inTime groupId group (coordinator.groups.mem_entries.mp inside)).2
    have nobody := nobody_due_iff.mpr group_in_time
    rw [List.length_eq_zero_iff, List.filter_eq_nil_iff]
    simpa using nobody
  simp only [GroupCoordinator.expire, same, kept, none]

/-- The timer removes exactly the members that are due and returns how many they
were; who is left behind by one of them has to join again, and a group nobody is
left in is gone. Right behind it the timer has nothing to do. -/
theorem expire_takes_the_due (coordinator : GroupCoordinator) (nowMs : Int) :
    Expired coordinator (coordinator.expire nowMs).1 nowMs (coordinator.expire nowMs).2 ∧
      (coordinator.expire nowMs).1.expire nowMs = ((coordinator.expire nowMs).1, 0) := by
  refine ⟨?_, expire_nothing fun _ _ there => expire_left_in_time coordinator nowMs there⟩
  constructor
  case members => exact expire_members_left coordinator nowMs
  case counted => exact expire_counts coordinator nowMs
  case untouched =>
    intro groupId group there inTime
    rw [expire_find, there, Option.map_some, expire_in_time inTime.2]
    simp [Option.filter, inTime.1]
  case rebalances =>
    intro groupId group there due left
    have rebalanced := expire_some_due due left
    obtain ⟨id, early, found, inTime⟩ := left
    obtain ⟨_, occupied⟩ := expire_keeps found inTime
    refine ⟨group.expire nowMs, ?_, ?_, ?_⟩
    · rw [expire_find, there]
      simp [Option.filter, occupied]
    · rw [rebalanced]
      rfl
    · intro id
      rw [rebalanced, begin_rebalance_find, OrderedMap.find_filter]
  case gone =>
    intro groupId group there due
    rw [expire_find, there, Option.map_some]
    simp [Option.filter, expire_all_due due]
  case noneNew =>
    intro groupId absent
    rw [expire_find, absent]
    rfl
  case issued => rfl

end Coordinator

end DariyaKyu.Groups

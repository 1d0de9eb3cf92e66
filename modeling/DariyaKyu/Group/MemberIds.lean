import DariyaKyu.Common.Digits
import DariyaKyu.Group.Rebalance
import DariyaKyu.Library.GuardedRun

/-!
Member ids. The coordinator appends a number to what the client calls itself,
and never uses a number twice; the digits behind the last dash are that number.
So an id is given out once, for one group, and whoever is in a group was given
the id for that group. What a run has given out is kept next to the coordinator.
-/

namespace DariyaKyu.Groups

set_option autoImplicit false

/-- A coordinator and the ids it has given out, each with its group. -/
structure Issuing where
  coordinator : GroupCoordinator
  issued : List (Bytes × Bytes)

/-- What a call gives out: the id in the answer to a join that came without one. -/
def GroupCoordinator.issues (coordinator : GroupCoordinator) : GroupCall → List (Bytes × Bytes)
  | .join groupId memberId clientId subscription protocols sessionTimeoutMs nowMs =>
      let answer :=
        (coordinator.join groupId memberId clientId subscription protocols sessionTimeoutMs nowMs).2
      if memberId = [] ∧ answer.memberId ≠ [] then [(answer.memberId, groupId)] else []
  | _ => []

def Issuing.step (call : GroupCall) (state : Issuing) : Option Issuing :=
  some ⟨state.coordinator.after call, state.issued ++ state.coordinator.issues call⟩

def Issuing.start : Issuing := ⟨{}, []⟩

def Numbered (bound : Nat) (id : Bytes) : Prop :=
  ∃ clientId number, number < bound ∧ id = clientId ++ [45] ++ toStringBytes (number : Nat)

structure IssuingHolds (state : Issuing) : Prop where
  numbered : ∀ entry ∈ state.issued, Numbered state.coordinator.nextMemberId entry.1
  distinct : (state.issued.map (·.1)).Nodup
  owned : ∀ groupId group, state.coordinator.groups.find? groupId = some group →
    ∀ id member, group.members.find? id = some member → (id, groupId) ∈ state.issued

theorem numbered_unique {firstClient secondClient : Bytes} {first second : Nat}
    (same : firstClient ++ [45] ++ toStringBytes (first : Nat) =
      secondClient ++ [45] ++ toStringBytes (second : Nat)) : first = second := by
  apply to_string_bytes_injective
  apply List.reverse_injective
  rw [← take_while_number firstClient first, ← take_while_number secondClient second, same]

theorem join_member_id (group : Group) (id clientId : Bytes) (subscription protocols : List Bytes)
    (sessionTimeoutMs nowMs : Int) :
    (group.join id clientId subscription protocols sessionTimeoutMs nowMs).2.memberId = id := by
  unfold Group.join
  split
  · rfl
  · simp only
    split <;> rfl

theorem fresh_id_occupied (coordinator : GroupCoordinator) (clientId : Bytes) :
    coordinator.freshId clientId ≠ [] := by
  simp [GroupCoordinator.freshId]

/-- What a call gives out is the next id, and only a join without an id moves
the counter. -/
theorem issues_cases (coordinator : GroupCoordinator) (call : GroupCall) :
    (coordinator.issues call = [] ∧
        (coordinator.after call).nextMemberId = coordinator.nextMemberId) ∨
      ∃ groupId clientId subscription protocols sessionTimeoutMs nowMs, groupId ≠ [] ∧
        call = .join groupId [] clientId subscription protocols sessionTimeoutMs nowMs ∧
        coordinator.issues call = [(coordinator.freshId clientId, groupId)] ∧
        (coordinator.after call).nextMemberId = coordinator.nextMemberId + 1 := by
  cases call with
  | join groupId memberId clientId subscription protocols sessionTimeoutMs nowMs =>
      by_cases named : groupId = []
      · left
        simp [GroupCoordinator.issues, GroupCoordinator.after, GroupCoordinator.join, named]
      · by_cases fresh : memberId = []
        · subst fresh
          right
          refine ⟨groupId, clientId, subscription, protocols, sessionTimeoutMs, nowMs, named, rfl, ?_, ?_⟩
          · have answer : (coordinator.join groupId [] clientId subscription protocols sessionTimeoutMs
                nowMs).2.memberId = coordinator.freshId clientId := by
              simp only [GroupCoordinator.join, named, if_false, if_true]
              exact join_member_id _ _ _ _ _ _ _
            simp only [GroupCoordinator.issues, answer, ne_eq, fresh_id_occupied, not_false_eq_true,
              and_self, if_true]
          · simp only [GroupCoordinator.after, GroupCoordinator.join, named, if_false, if_true,
              GroupCoordinator.store]
        · left
          refine ⟨by simp [GroupCoordinator.issues, fresh], ?_⟩
          simp only [GroupCoordinator.after, GroupCoordinator.join, named, fresh, if_false]
          split <;> rfl
  | sync groupId memberId generation assignments nowMs =>
      refine .inl ⟨rfl, ?_⟩
      simp only [GroupCoordinator.after, GroupCoordinator.sync]
      repeat' split
      all_goals rfl
  | heartbeat groupId memberId generation nowMs =>
      refine .inl ⟨rfl, ?_⟩
      simp only [GroupCoordinator.after, GroupCoordinator.heartbeat]
      repeat' split
      all_goals rfl
  | leave groupId memberId =>
      refine .inl ⟨rfl, ?_⟩
      simp only [GroupCoordinator.after, GroupCoordinator.leave]
      repeat' split
      all_goals rfl
  | expire nowMs => exact .inl ⟨rfl, rfl⟩

/-- Whoever is in a group after a call was in it before, or is the one the id
was given to. -/
theorem members_after {coordinator : GroupCoordinator} {call : GroupCall} {groupId id : Bytes}
    {next : Group} {member : Member}
    (there : (coordinator.after call).groups.find? groupId = some next)
    (present : next.members.find? id = some member) :
    (∃ group old, coordinator.groups.find? groupId = some group ∧ group.members.find? id = some old) ∨
      (id, groupId) ∈ coordinator.issues call := by
  cases group_step coordinator call there with
  | kept same => exact .inl ⟨next, member, same, present⟩
  | created absent => cases present
  | @issued clientId subscription protocols sessionTimeoutMs nowMs named =>
      rcases join_members present with rfl | ⟨old, isOld⟩
      · right
        rcases issues_cases coordinator (.join groupId [] clientId subscription protocols
          sessionTimeoutMs nowMs) with ⟨nothing, counter⟩ | ⟨_, _, _, _, _, _, _, same, issues, _⟩
        · simp only [GroupCoordinator.after, GroupCoordinator.join, named, if_false, if_true,
            GroupCoordinator.store] at counter
          omega
        · cases same
          rw [issues]
          exact List.mem_singleton_self _
      · cases was : coordinator.groups.find? groupId with
        | none =>
            simp only [GroupCoordinator.groupFor, was, Option.getD_none] at isOld
            cases isOld
        | some group =>
            simp only [GroupCoordinator.groupFor, was, Option.getD_some] at isOld
            exact .inl ⟨group, old, rfl, isOld⟩
  | @joined group known _ _ _ _ _ _ was isMember =>
      rcases join_members present with rfl | ⟨old, isOld⟩
      · exact .inl ⟨group, known, was, isMember⟩
      · exact .inl ⟨group, old, was, isOld⟩
  | @synced group _ _ _ _ was =>
      rw [Group.touch, OrderedMap.find_map_values, Option.map_eq_some_iff] at present
      obtain ⟨old, isOld, _⟩ := present
      exact .inl ⟨group, old, was, isOld⟩
  | @assigned group _ _ _ was _ _ =>
      simp only [Group.assign, Group.touch, OrderedMap.find_map_values, Option.map_map,
        Option.map_eq_some_iff] at present
      obtain ⟨old, isOld, _⟩ := present
      exact .inl ⟨group, old, was, isOld⟩
  | @beat group _ _ _ was =>
      rw [Group.touch, OrderedMap.find_map_values, Option.map_eq_some_iff] at present
      obtain ⟨old, isOld, _⟩ := present
      exact .inl ⟨group, old, was, isOld⟩
  | @left group _ was =>
      rw [complete_join_members, begin_rebalance_find, Option.map_eq_some_iff] at present
      obtain ⟨old, found, _⟩ := present
      rw [OrderedMap.find_erase] at found
      split at found
      · cases found
      · exact .inl ⟨group, old, was, found⟩
  | @expired group _ was =>
      obtain ⟨old, isOld, _⟩ := expire_members present
      exact .inl ⟨group, old, was, isOld⟩

theorem Numbered.mono {bound wider : Nat} {id : Bytes} (numbered : Numbered bound id)
    (wide : bound ≤ wider) : Numbered wider id := by
  obtain ⟨clientId, number, below, same⟩ := numbered
  exact ⟨clientId, number, by omega, same⟩

theorem issuing_start_holds : IssuingHolds Issuing.start :=
  ⟨nofun, List.nodup_nil, nofun⟩

theorem issuing_step {state next : Issuing} {call : GroupCall} (holds : IssuingHolds state)
    (taken : Issuing.step call state = some next) : IssuingHolds next := by
  cases taken
  have owned : ∀ groupId group, (state.coordinator.after call).groups.find? groupId = some group →
      ∀ id member, group.members.find? id = some member →
        (id, groupId) ∈ state.issued ++ state.coordinator.issues call := by
    intro groupId group there id member present
    rcases members_after there present with ⟨before, old, was, isOld⟩ | issued
    · exact List.mem_append_left _ (holds.owned groupId before was id old isOld)
    · exact List.mem_append_right _ issued
  rcases issues_cases state.coordinator call with ⟨nothing, counter⟩ |
    ⟨groupId, clientId, _, _, _, _, _, _, issues, counter⟩
  · refine ⟨?_, ?_, owned⟩
    · simp only [nothing, List.append_nil, counter]
      exact holds.numbered
    · simp only [nothing, List.append_nil]
      exact holds.distinct
  · have below := holds.numbered
    refine ⟨?_, ?_, owned⟩
    · intro entry member
      simp only [issues, List.mem_append, List.mem_singleton] at member
      simp only [counter]
      rcases member with earlier | rfl
      · exact (below entry earlier).mono (Nat.le_succ _)
      · exact ⟨clientId, state.coordinator.nextMemberId, Nat.lt_succ_self _, rfl⟩
    · -- the counter is above every number used so far
      simp only [issues, List.map_append, List.map_cons, List.map_nil, List.nodup_append,
        List.nodup_singleton, List.mem_singleton, true_and]
      refine ⟨holds.distinct, ?_⟩
      rintro id member _ rfl same
      obtain ⟨entry, inside, isId⟩ := List.mem_map.mp member
      obtain ⟨otherClient, number, used, made⟩ := below entry inside
      have equal := numbered_unique ((made.symm.trans isId).trans same)
      omega

end DariyaKyu.Groups

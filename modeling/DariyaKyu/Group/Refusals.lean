import DariyaKyu.Group.Rebalance

/-!
Requests that are refused. A sync, a heartbeat and a leave look their group up,
and one that is refused has touched nothing. A join looks its group up or
creates it, before it looks for the member: a join under an id that nobody gave
out leaves an empty group behind if there was none.
-/

namespace DariyaKyu.Groups

set_option autoImplicit false

open Protocol

def GroupCoordinator.answer (coordinator : GroupCoordinator) : GroupCall → Option ErrorCode
  | .join groupId memberId clientId subscription protocols sessionTimeoutMs nowMs =>
      some (coordinator.join groupId memberId clientId subscription protocols sessionTimeoutMs nowMs).2.error
  | .sync groupId memberId generation assignments nowMs =>
      some (coordinator.sync groupId memberId generation assignments nowMs).2.error
  | .heartbeat groupId memberId generation nowMs =>
      some (coordinator.heartbeat groupId memberId generation nowMs).2
  | .leave groupId memberId => some (coordinator.leave groupId memberId).2
  | .expire _ => none

/-- A join that comes with a member id, of a group that is not there. -/
def GroupCoordinator.JoinsNowhere (coordinator : GroupCoordinator) : GroupCall → Prop
  | .join groupId memberId _ _ _ _ _ =>
      groupId ≠ [] ∧ memberId ≠ [] ∧ coordinator.groups.find? groupId = none
  | _ => False

section Requests

variable {coordinator : GroupCoordinator}

theorem store_same {groupId : Bytes} {group : Group}
    (present : coordinator.groups.find? groupId = some group) :
    coordinator.store groupId group = coordinator := by
  rw [GroupCoordinator.store, OrderedMap.insert_same present]

theorem join_not_refused (group : Group) (id clientId : Bytes) (subscription protocols : List Bytes)
    (sessionTimeoutMs nowMs : Int) :
    (group.join id clientId subscription protocols sessionTimeoutMs nowMs).2.error = .none ∨
      (group.join id clientId subscription protocols sessionTimeoutMs nowMs).2.error =
        .rebalanceInProgress := by
  unfold Group.join
  split
  · exact .inl rfl
  simp only
  split
  · exact .inr rfl
  · exact .inl rfl

theorem refused_join {groupId memberId clientId : Bytes} {subscription protocols : List Bytes}
    {sessionTimeoutMs nowMs : Int} {error : ErrorCode} (failure : error ≠ .none)
    (final : error ≠ .rebalanceInProgress)
    (refused : (coordinator.join groupId memberId clientId subscription protocols sessionTimeoutMs
      nowMs).2.error = error) :
    (coordinator.join groupId memberId clientId subscription protocols sessionTimeoutMs nowMs).1 =
        coordinator ↔
      ¬ (groupId ≠ [] ∧ memberId ≠ [] ∧ coordinator.groups.find? groupId = none) := by
  have answered : ∀ (group : Group) (id : Bytes), (group.join id clientId subscription protocols
      sessionTimeoutMs nowMs).2.error ≠ error := by
    intro group id same
    rcases join_not_refused group id clientId subscription protocols sessionTimeoutMs nowMs with
      fine | again
    · exact failure (same.symm.trans fine)
    · exact final (same.symm.trans again)
  unfold GroupCoordinator.join at refused ⊢
  by_cases unnamed : groupId = []
  · simp [unnamed]
  rw [if_neg unnamed] at refused ⊢
  simp only at refused ⊢
  by_cases fresh : memberId = []
  · rw [if_pos fresh] at refused
    exact absurd refused (answered _ _)
  rw [if_neg fresh] at refused ⊢
  by_cases unknown : ((coordinator.groupFor groupId).members.find? memberId).isNone = true
  · rw [if_pos unknown]
    cases present : coordinator.groups.find? groupId with
    | some group =>
        have same : coordinator.groupFor groupId = group := by
          rw [GroupCoordinator.groupFor, present, Option.getD_some]
        rw [same, store_same present]
        simp
    | none =>
        -- the group that was created on the way is the difference
        simp only [unnamed, fresh, ne_eq, not_false_eq_true, and_self, not_true_eq_false, iff_false]
        intro same
        have there : (coordinator.store groupId (coordinator.groupFor groupId)).groups.find? groupId =
            some (coordinator.groupFor groupId) := by
          rw [GroupCoordinator.store, OrderedMap.find_insert, if_pos rfl]
        rw [same, present] at there
        cases there
  · rw [if_neg unknown] at refused
    exact absurd refused (answered _ _)

theorem refused_sync {groupId memberId : Bytes} {generation nowMs : Int}
    {assignments : OrderedMap Bytes Bytes} {error : ErrorCode} (failure : error ≠ .none)
    (final : error ≠ .rebalanceInProgress)
    (refused : (coordinator.sync groupId memberId generation assignments nowMs).2.error = error) :
    (coordinator.sync groupId memberId generation assignments nowMs).1 = coordinator := by
  by_cases current : coordinator.Current groupId memberId generation
  · obtain ⟨group, member, present, known, rfl⟩ := current
    rw [sync_current coordinator present known] at refused ⊢
    split at refused
    · exact absurd refused.symm final
    split at refused
    · split at refused
      · exact absurd refused.symm failure
      · exact absurd refused.symm final
    · exact absurd refused.symm failure
  · obtain ⟨_, _, same⟩ := sync_refused current assignments nowMs
    rw [same]

theorem refused_heartbeat {groupId memberId : Bytes} {generation nowMs : Int} {error : ErrorCode}
    (failure : error ≠ .none)
    (refused : (coordinator.heartbeat groupId memberId generation nowMs).2 = error) :
    (coordinator.heartbeat groupId memberId generation nowMs).1 = coordinator := by
  unfold GroupCoordinator.heartbeat at refused ⊢
  split
  · rfl
  next group present =>
  rw [present] at refused
  simp only at refused ⊢
  split
  · rfl
  next known =>
  rw [if_neg known] at refused
  split
  · rfl
  next current =>
  rw [if_neg current] at refused
  split
  · rfl
  next settled =>
  rw [if_neg settled] at refused
  exact absurd refused.symm failure

theorem refused_leave {groupId memberId : Bytes} {error : ErrorCode} (failure : error ≠ .none)
    (refused : (coordinator.leave groupId memberId).2 = error) :
    (coordinator.leave groupId memberId).1 = coordinator := by
  unfold GroupCoordinator.leave at refused ⊢
  split
  · rfl
  next group present =>
  rw [present] at refused
  simp only at refused ⊢
  split
  · rfl
  next known =>
  rw [if_neg known] at refused
  split at refused
  · exact absurd refused.symm failure
  · exact absurd refused.symm failure

/-- A request that is refused for good changes nothing, unless it is a join of a
group that is not there. -/
theorem refused_changes_nothing (coordinator : GroupCoordinator) (call : GroupCall) (error : ErrorCode)
    (refused : coordinator.answer call = some error) (failure : error ≠ .none)
    (final : error ≠ .rebalanceInProgress) :
    coordinator.after call = coordinator ↔ ¬ coordinator.JoinsNowhere call := by
  cases call with
  | join => exact refused_join failure final (Option.some.inj refused)
  | sync =>
      have same := refused_sync failure final (Option.some.inj refused)
      exact iff_of_true same id
  | heartbeat =>
      have same := refused_heartbeat failure (Option.some.inj refused)
      exact iff_of_true same id
  | leave =>
      have same := refused_leave failure (Option.some.inj refused)
      exact iff_of_true same id
  | expire => cases refused

/-- A consumer alone, and a sync under an id that is not its own. -/
theorem refused_changes_nothing_unknown :
    let coordinator := (({} : GroupCoordinator).join [103] [] [97] [[116]] [[114]] 10000 0).1
    (coordinator.sync [103] [98, 45, 50] 1 OrderedMap.empty 0).2.error = .unknownMemberId ∧
      coordinator.after (.sync [103] [98, 45, 50] 1 OrderedMap.empty 0) = coordinator := by
  intro coordinator
  have refused : coordinator.answer (.sync [103] [98, 45, 50] 1 OrderedMap.empty 0) =
      some .unknownMemberId := by decide +kernel
  refine ⟨Option.some.inj refused, ?_⟩
  exact (refused_changes_nothing coordinator _ _ refused (by decide) (by decide)).mpr id

/-- A join under an id that was never given out, of a group that never was. -/
theorem refused_join_leaves_group :
    ¬ ∀ (coordinator : GroupCoordinator) (call : GroupCall) (error : ErrorCode),
      coordinator.answer call = some error → error ≠ .none → error ≠ .rebalanceInProgress →
        coordinator.after call = coordinator := by
  intro all
  have same := all {} (.join [103] [97, 45, 49] [97] [[116]] [[114]] 10000 0) .unknownMemberId
    (by decide +kernel) (by decide) (by decide)
  have groups : (({} : GroupCoordinator).after (.join [103] [97, 45, 49] [97] [[116]] [[114]] 10000
      0)).groups.isEmpty = false := by decide +kernel
  rw [same] at groups
  cases groups

end Requests

end DariyaKyu.Groups

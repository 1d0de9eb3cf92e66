import DariyaKyu.Group.Rebalance
import DariyaKyu.Server.Replies

/-!
Strings that a reply can carry. What comes in a request has a length of 16 bits;
the only string the coordinator makes itself is a fresh member id, the client's
id with a number behind it, and that may be longer. While every fresh id fits,
every string of every group does, and a join can always be answered.
-/

namespace DariyaKyu.Server

set_option autoImplicit false

open Protocol Groups

structure TellableMember (member : Member) : Prop where
  memberId : member.memberId.length < 2 ^ 15
  subscription : ∀ topic ∈ member.subscription, topic.length < 2 ^ 15
  protocols : ∀ strategy ∈ member.protocols, strategy.length < 2 ^ 15

structure TellableGroup (group : Group) : Prop where
  leaderId : group.leaderId.length < 2 ^ 15
  protocolName : group.protocolName.length < 2 ^ 15
  members : ∀ id member, group.members.find? id = some member →
    id.length < 2 ^ 15 ∧ TellableMember member

def TellableGroups (coordinator : GroupCoordinator) : Prop :=
  ∀ groupId group, coordinator.groups.find? groupId = some group → TellableGroup group

/-- The strings a join brings along are short, and so is the id it is given. -/
def TellableCall (coordinator : GroupCoordinator) : GroupCall → Prop
  | .join groupId memberId clientId subscription protocols _ _ =>
      (∀ topic ∈ subscription, topic.length < 2 ^ 15) ∧
        (∀ strategy ∈ protocols, strategy.length < 2 ^ 15) ∧
        (groupId ≠ [] → memberId = [] → (coordinator.freshId clientId).length < 2 ^ 15)
  | _ => True

section OneGroup

variable {group next : Group}

theorem empty_short : ([] : Bytes).length < 2 ^ 15 := by decide

theorem new_group_tellable (groupId : Bytes) : TellableGroup { id := groupId } :=
  ⟨empty_short, empty_short, fun _ _ found => by cases found⟩

structure ToldAlike (old member : Member) : Prop where
  memberId : member.memberId = old.memberId
  subscription : member.subscription = old.subscription
  protocols : member.protocols = old.protocols

theorem TellableMember.alike {old member : Member} (tellable : TellableMember old)
    (alike : ToldAlike old member) : TellableMember member := by
  constructor
  · rw [alike.memberId]
    exact tellable.memberId
  · rw [alike.subscription]
    exact tellable.subscription
  · rw [alike.protocols]
    exact tellable.protocols

theorem tellable_of_members (tellable : TellableGroup group) (leaderId : next.leaderId = group.leaderId)
    (protocolName : next.protocolName = group.protocolName)
    (each : ∀ id member, next.members.find? id = some member →
      ∃ old, group.members.find? id = some old ∧ ToldAlike old member) : TellableGroup next := by
  constructor
  · rw [leaderId]
    exact tellable.leaderId
  · rw [protocolName]
    exact tellable.protocolName
  · intro id member found
    obtain ⟨old, isOld, alike⟩ := each id member found
    obtain ⟨short, told⟩ := tellable.members id old isOld
    exact ⟨short, told.alike alike⟩

theorem mapped_alike {change : Bytes → Member → Member}
    (same : ∀ id member, ToldAlike member (change id member)) (id : Bytes) (member : Member)
    (found : (group.members.mapValues change).find? id = some member) :
    ∃ old, group.members.find? id = some old ∧ ToldAlike old member := by
  rw [OrderedMap.find_map_values, Option.map_eq_some_iff] at found
  obtain ⟨old, isOld, rfl⟩ := found
  exact ⟨old, isOld, same id old⟩

theorem touch_tellable (tellable : TellableGroup group) (id : Bytes) (nowMs : Int) :
    TellableGroup (group.touch id nowMs) := by
  refine tellable_of_members tellable rfl rfl ?_
  apply mapped_alike
  intro other member
  split <;> exact ⟨rfl, rfl, rfl⟩

theorem assign_tellable (tellable : TellableGroup group) (assignments : OrderedMap Bytes Bytes) :
    TellableGroup (group.assign assignments) := by
  refine tellable_of_members tellable rfl rfl ?_
  apply mapped_alike
  intro id member
  split <;> exact ⟨rfl, rfl, rfl⟩

theorem begin_rebalance_tellable (tellable : TellableGroup group) :
    TellableGroup group.beginRebalance := by
  refine tellable_of_members tellable rfl rfl ?_
  apply mapped_alike
  intro id member
  exact ⟨rfl, rfl, rfl⟩

theorem filter_tellable (tellable : TellableGroup group) (keep : Bytes → Member → Bool) :
    TellableGroup { group with members := group.members.filter keep } := by
  refine tellable_of_members tellable rfl rfl ?_
  intro id member found
  rw [OrderedMap.find_filter] at found
  exact ⟨member, (Option.filter_eq_some_iff.mp found).1, rfl, rfl, rfl⟩

/-- Who leads is a member, and the protocol is one that the leader offers. -/
theorem complete_join_tellable (tellable : TellableGroup group) :
    TellableGroup group.maybeCompleteJoin := by
  rcases complete_join_cases group with ⟨_, completed⟩ | ⟨_, _, _, _, completed⟩ |
    ⟨leaderId, leader, first, _, completed⟩
  · rw [completed]
    exact ⟨empty_short, tellable.protocolName, tellable.members⟩
  · rw [completed]
    exact tellable
  · obtain ⟨short, told⟩ := tellable.members leaderId leader (group.members.first_smallest first).1
    rw [completed]
    refine ⟨short, ?_, tellable.members⟩
    cases found : leader.protocols.find? group.everyone with
    | none => exact empty_short
    | some chosen => exact told.protocols chosen (List.mem_of_find?_eq_some found)

variable {id clientId : Bytes} {subscription protocols : List Bytes} {sessionTimeoutMs nowMs : Int}

theorem rejoining_tellable (tellable : TellableGroup group) (short : id.length < 2 ^ 15)
    (topics : ∀ topic ∈ subscription, topic.length < 2 ^ 15)
    (strategies : ∀ strategy ∈ protocols, strategy.length < 2 ^ 15) :
    TellableGroup (group.rejoining id clientId subscription protocols sessionTimeoutMs nowMs) := by
  have enrolled : ∀ {started : Group}, TellableGroup started →
      TellableGroup (started.enroll id clientId subscription protocols sessionTimeoutMs nowMs) := by
    intro started before
    refine ⟨before.leaderId, before.protocolName, ?_⟩
    intro other member found
    simp only [Group.enroll, OrderedMap.find_insert] at found
    split at found
    · next same =>
      cases found
      exact ⟨same ▸ short, short, topics, strategies⟩
    · exact before.members other member found
  unfold Group.rejoining
  apply enrolled
  split
  · exact tellable
  · exact begin_rebalance_tellable tellable

theorem join_tellable (tellable : TellableGroup group) (short : id.length < 2 ^ 15)
    (topics : ∀ topic ∈ subscription, topic.length < 2 ^ 15)
    (strategies : ∀ strategy ∈ protocols, strategy.length < 2 ^ 15) :
    TellableGroup (group.join id clientId subscription protocols sessionTimeoutMs nowMs).1 := by
  rcases join_cases group id clientId subscription protocols sessionTimeoutMs nowMs with
    ⟨_, joined⟩ | ⟨_, joined⟩
  · rw [joined]
    exact touch_tellable tellable id nowMs
  · rw [joined]
    exact complete_join_tellable (rejoining_tellable tellable short topics strategies)

theorem result_for_told (tellable : TellableGroup group) (short : id.length < 2 ^ 15) :
    JoinTold (group.resultFor id) := by
  refine ⟨tellable.protocolName, tellable.leaderId, short, ?_⟩
  intro member present
  simp only [Group.resultFor] at present
  split at present
  · obtain ⟨entry, isEntry, rfl⟩ := List.mem_map.mp present
    obtain ⟨_, told⟩ := tellable.members entry.1 entry.2 (group.members.mem_entries.mp isEntry)
    exact ⟨told.memberId, told.subscription⟩
  · cases present

theorem join_told (tellable : TellableGroup group) (short : id.length < 2 ^ 15)
    (topics : ∀ topic ∈ subscription, topic.length < 2 ^ 15)
    (strategies : ∀ strategy ∈ protocols, strategy.length < 2 ^ 15) :
    JoinTold (group.join id clientId subscription protocols sessionTimeoutMs nowMs).2 := by
  have waiting : JoinTold { error := .rebalanceInProgress, memberId := id } :=
    ⟨empty_short, empty_short, short, fun _ present => by cases present⟩
  unfold Group.join
  split
  · exact result_for_told (touch_tellable tellable id nowMs) short
  · simp only
    split
    · exact waiting
    · exact result_for_told (complete_join_tellable (rejoining_tellable tellable short topics strategies)) short

end OneGroup

section Calls

variable {coordinator : GroupCoordinator}

theorem group_for_tellable (tellable : TellableGroups coordinator) (groupId : Bytes) :
    TellableGroup (coordinator.groupFor groupId) := by
  unfold GroupCoordinator.groupFor
  cases present : coordinator.groups.find? groupId with
  | none => exact new_group_tellable groupId
  | some group => exact tellable groupId group present

theorem after_tellable (tellable : TellableGroups coordinator) {call : GroupCall}
    (short : TellableCall coordinator call) : TellableGroups (coordinator.after call) := by
  intro groupId group isAfter
  cases group_step coordinator call isAfter with
  | kept same => exact tellable groupId group same
  | created absent => exact new_group_tellable groupId
  | issued named =>
      obtain ⟨topics, strategies, fresh⟩ := short
      exact join_tellable (group_for_tellable tellable groupId) (fresh named rfl) topics strategies
  | joined there known =>
      obtain ⟨topics, strategies, _⟩ := short
      have before := tellable groupId _ there
      exact join_tellable before (before.members _ _ known).1 topics strategies
  | synced there => exact touch_tellable (tellable groupId _ there) _ _
  | assigned there known completing =>
      exact assign_tellable (touch_tellable (tellable groupId _ there) _ _) _
  | beat there => exact touch_tellable (tellable groupId _ there) _ _
  | left there =>
      apply complete_join_tellable
      apply begin_rebalance_tellable
      exact filter_tellable (tellable groupId _ there) _
  | expired there =>
      rcases expire_cases _ _ with rebalanced | same
      · rw [rebalanced]
        apply complete_join_tellable
        apply begin_rebalance_tellable
        exact filter_tellable (tellable groupId _ there) _
      · rw [same]
        exact tellable groupId _ there

theorem join_answer_told (tellable : TellableGroups coordinator) {groupId memberId clientId : Bytes}
    {subscription protocols : List Bytes} {sessionTimeoutMs nowMs : Int}
    (short : TellableCall coordinator
      (.join groupId memberId clientId subscription protocols sessionTimeoutMs nowMs))
    (named : memberId.length < 2 ^ 15) :
    JoinTold (coordinator.join groupId memberId clientId subscription protocols sessionTimeoutMs nowMs).2 := by
  obtain ⟨topics, strategies, fresh⟩ := short
  have refused : ∀ error, JoinTold { error := error } := fun error =>
    ⟨empty_short, empty_short, empty_short, fun _ present => by cases present⟩
  unfold GroupCoordinator.join
  split
  · exact refused _
  · next occupied =>
    simp only
    split
    · next isFresh =>
      exact join_told (group_for_tellable tellable groupId) (fresh occupied isFresh) topics strategies
    · split
      · exact refused _
      · exact join_told (group_for_tellable tellable groupId) named topics strategies

end Calls

end DariyaKyu.Server

import DariyaKyu.Group.MemberIds

/-!
What holds of every group of a coordinator at any time, said without the
functions that bring it about. The protocol is where the code and a literal
reading of "empty when the members share none" part: a member may offer an
empty name, and then an empty name is what the group has chosen.
-/

namespace DariyaKyu.Groups

set_option autoImplicit false

def Group.Supports (group : Group) (candidate : Bytes) : Prop :=
  ∀ id member, group.members.find? id = some member → candidate ∈ member.protocols

/-- The first of these strategies that every member supports, or nothing. -/
def Group.Chosen (group : Group) (protocols : List Bytes) : Prop :=
  (∃ before after, protocols = before ++ group.protocolName :: after ∧
      group.Supports group.protocolName ∧ ∀ candidate ∈ before, ¬ group.Supports candidate) ∨
    (group.protocolName = [] ∧ ∀ candidate ∈ protocols, ¬ group.Supports candidate)

structure Group.Consistent (group : Group) : Prop where
  empty : group.state = .empty ↔ ∀ id, group.members.find? id = none
  preparing : group.state = .preparingRebalance →
    ∃ id member, group.members.find? id = some member ∧ member.rejoined = false
  rejoined : group.state = .completingRebalance ∨ group.state = .stable →
    ∀ id member, group.members.find? id = some member → member.rejoined = true
  leads : group.state = .completingRebalance ∨ group.state = .stable →
    ∃ leader, group.members.find? group.leaderId = some leader ∧
      (∀ id member, group.members.find? id = some member → group.leaderId ≤ id) ∧
      group.Chosen leader.protocols
  generation : group.state = .completingRebalance ∨ group.state = .stable → 1 ≤ group.generation

theorem everyone_iff (group : Group) (candidate : Bytes) :
    group.everyone candidate = true ↔ group.Supports candidate := by
  unfold Group.everyone Group.Supports
  rw [group.members.all_iff fun _ member => member.protocols.contains candidate]
  simp only [List.contains_iff_mem]

theorem chosen_of_find {group : Group} {protocols : List Bytes}
    (named : group.protocolName = (protocols.find? group.everyone).getD []) :
    group.Chosen protocols := by
  cases found : protocols.find? group.everyone with
  | none =>
      right
      refine ⟨by rw [named, found]; rfl, ?_⟩
      intro candidate member
      rw [← everyone_iff]
      exact List.find?_eq_none.mp found candidate member
  | some chosen =>
      left
      have same : group.protocolName = chosen := by rw [named, found]; rfl
      obtain ⟨supported, before, after, split, earlier⟩ := List.find?_eq_some_iff_append.mp found
      refine ⟨before, after, same ▸ split, same ▸ (everyone_iff group chosen).mp supported, ?_⟩
      intro candidate member supports
      have passed := earlier candidate member
      rw [(everyone_iff group candidate).mpr supports] at passed
      cases passed

theorem GroupHolds.consistent {group : Group} (holds : GroupHolds group) : group.Consistent where
  empty := holds.empty.trans group.members.is_empty_iff
  preparing := holds.waiting
  rejoined := fun reached => (holds.settled reached).rejoined
  leads := by
    intro reached
    obtain ⟨leader, first, named⟩ := (holds.settled reached).leads
    obtain ⟨found, smallest⟩ := group.members.first_smallest first
    exact ⟨leader, found, smallest, chosen_of_find named⟩
  generation := fun reached => (holds.settled reached).generation

/-- Every group of every reachable coordinator is in order, and no member id is
given out twice. -/
theorem groups_stay_consistent {final : Issuing}
    (reached : GuardedRun.Reaches Issuing.step (fun _ _ => True) Issuing.start final) :
    (∀ groupId group, final.coordinator.groups.find? groupId = some group → group.Consistent) ∧
      (final.issued.map (·.1)).Nodup := by
  have kept := reached.invariant _ _ (fun state => state.coordinator.Holds ∧ IssuingHolds state)
    ⟨nofun, issuing_start_holds⟩ (by
      intro state call next both _ taken
      refine ⟨?_, issuing_step both.2 taken⟩
      cases taken
      exact after_holds both.1 call)
  refine ⟨?_, kept.2.distinct⟩
  intro groupId group there
  exact (kept.1 groupId group there).consistent

def soleMember : List GroupCall :=
  [.join [103] [] [97] [[116]] [[114, 114], [118]] 10000 0]

theorem groups_stay_consistent_sole :
    ∃ (final : Issuing) (group : Group), final.issued.length = 1 ∧ (final.issued.map (·.1)).Nodup ∧
      final.coordinator.groups.find? [103] = some group ∧ group.state = .completingRebalance ∧
      group.Consistent := by
  obtain ⟨final, reached, checked⟩ := GuardedRun.found_by_run Issuing.step (fun _ _ => True)
    Issuing.start
    (fun state => state.issued.length == 1 &&
      (state.coordinator.groups.find? [103]).any (·.state == .completingRebalance))
    soleMember (by decide +kernel)
  simp only [Bool.and_eq_true, beq_iff_eq, Option.any_eq_true] at checked
  obtain ⟨one, group, there, completing⟩ := checked
  obtain ⟨consistent, distinct⟩ := groups_stay_consistent reached
  exact ⟨final, group, one, distinct, there, completing, consistent _ _ there⟩

/-- A member that offers nothing but an empty name: the group has a protocol,
and its name is empty. -/
theorem empty_protocol_is_chosen :
    ¬ ∀ final : Issuing, GuardedRun.Reaches Issuing.step (fun _ _ => True) Issuing.start final →
      ∀ groupId group leader, final.coordinator.groups.find? groupId = some group →
        group.state = .completingRebalance ∨ group.state = .stable →
        group.members.find? group.leaderId = some leader →
        (group.protocolName = [] ↔ ¬ ∃ candidate ∈ leader.protocols, group.Supports candidate) := by
  intro all
  obtain ⟨final, reached, checked⟩ := GuardedRun.found_by_run Issuing.step (fun _ _ => True)
    Issuing.start
    (fun state => (state.coordinator.groups.find? [103]).any fun group =>
      group.state == .completingRebalance && group.protocolName == [] && group.everyone [] &&
        (group.members.find? group.leaderId).any (·.protocols.contains []))
    [.join [103] [] [97] [[116]] [[]] 10000 0] (by decide +kernel)
  simp only [Bool.and_eq_true, beq_iff_eq, Option.any_eq_true, List.contains_iff_mem] at checked
  obtain ⟨group, there, ⟨⟨completing, unnamed⟩, shared⟩, leader, leads, offered⟩ := checked
  have none := (all final reached _ _ _ there (.inl completing) leads).mp unnamed
  exact none ⟨[], offered, (everyone_iff group []).mp shared⟩

end DariyaKyu.Groups

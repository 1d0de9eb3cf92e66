import DariyaKyu.Group.JoinResults
import DariyaKyu.Group.Membership

/-!
The generation as a fencing token. A group counts its completed rebalances, and
what one generation announces is never announced under another membership, as
long as there is somebody in the group. The counter goes with the group: when
the last member leaves or expires the group is forgotten, and whoever joins
under its id counts from one again.
-/

namespace DariyaKyu.Groups

set_option autoImplicit false

open Protocol

def GroupCoordinator.empties (coordinator : GroupCoordinator) (groupId : Bytes) (call : GroupCall) : Bool :=
  (coordinator.groups.find? groupId).any fun group =>
    !group.members.isEmpty && group.members.entries.all fun entry =>
      coordinator.removes groupId entry.1 call

/-- A rebalance that has completed or a join that has been told its outcome,
with the generation and the members it stands for. -/
structure Announcement where
  completes : Bool
  generation : Int
  roster : Roster
  deriving DecidableEq

/-- A coordinator, and what has been announced of each group since the start. -/
structure Announcing where
  coordinator : GroupCoordinator
  announced : Bytes → List Announcement

namespace Announcing

def start : Announcing := ⟨{}, fun _ => []⟩

/-- What a join was told of its group, if it was not refused. -/
def answersOf (coordinator : GroupCoordinator) (groupId : Bytes) (next : Group) :
    GroupCall → List Announcement
  | .join target memberId clientId subscription protocols sessionTimeoutMs nowMs =>
      let result := (coordinator.join target memberId clientId subscription protocols sessionTimeoutMs
        nowMs).2
      if target = groupId ∧ result.error = .none then [⟨false, result.generation, next.roster⟩] else []
  | _ => []

def announces (coordinator : GroupCoordinator) (call : GroupCall) (groupId : Bytes) :
    List Announcement :=
  match (coordinator.after call).groups.find? groupId with
  | none => []
  | some next =>
      (if coordinator.completes groupId call then [⟨true, next.generation, next.roster⟩] else []) ++
        answersOf coordinator groupId next call

def step (call : GroupCall) (state : Announcing) : Option Announcing :=
  some ⟨state.coordinator.after call, fun groupId =>
    state.announced groupId ++ announces state.coordinator call groupId⟩

end Announcing

/-- What a fencing token has to do: never go down, go up with every rebalance,
and stand for one membership. -/
structure Announcement.Fences (earlier later : Announcement) : Prop where
  keeps : earlier.generation ≤ later.generation
  rises : later.completes = true → earlier.generation < later.generation
  identifies : earlier.generation = later.generation → earlier.roster = later.roster

section Groups

variable {coordinator : GroupCoordinator} {groupId : Bytes} {group next : Group} {call : GroupCall}

theorem group_stays (present : coordinator.groups.find? groupId = some group)
    (occupied : group.members.isEmpty = false) (kept : coordinator.empties groupId call = false) :
    ∃ next, (coordinator.after call).groups.find? groupId = some next ∧
      next.members.isEmpty = false := by
  simp only [GroupCoordinator.empties, present, Option.any_some, occupied, Bool.not_false, Bool.true_and,
    List.all_eq_false] at kept
  obtain ⟨⟨id, member⟩, inside, stays⟩ := kept
  have known := group.members.mem_entries.mp inside
  obtain ⟨next, still, there, isStill⟩ := has_member_iff.mp
    (stays_member (has_member_iff.mpr ⟨group, member, present, known⟩) (Bool.not_eq_true _ ▸ stays))
  refine ⟨next, there, ?_⟩
  rw [Bool.eq_false_iff]
  intro nobody
  rw [find_in_empty nobody] at isStill
  cases isStill

theorem join_occupied (group : Group) (id clientId : Bytes) (subscription protocols : List Bytes)
    (sessionTimeoutMs nowMs : Int) :
    (group.join id clientId subscription protocols sessionTimeoutMs nowMs).1.members.isEmpty = false := by
  rw [Bool.eq_false_iff]
  intro nobody
  have absent := find_in_empty nobody id
  rcases join_cases group id clientId subscription protocols sessionTimeoutMs nowMs with
    ⟨retry, joined⟩ | ⟨_, joined⟩
  · rw [joined, Group.touch, OrderedMap.find_map_values, Option.map_eq_none_iff] at absent
    simp [Group.isRetry, absent] at retry
  · rw [joined, complete_join_members] at absent
    simp [Group.rejoining, Group.enroll] at absent

theorem completes_occupied (completes : coordinator.completes groupId call = true)
    (there : (coordinator.after call).groups.find? groupId = some next) :
    next.members.isEmpty = false := by
  simp only [GroupCoordinator.completes, Option.any_eq_true] at completes
  obtain ⟨passed, isPassed, back⟩ := completes
  cases present : coordinator.groups.find? groupId with
  | some group =>
      rcases rebalances present there with ⟨other, isOther, _, rfl⟩ | ⟨nothing, _⟩
      · cases isPassed.symm.trans isOther
        rw [complete_join_members]
        simp only [Group.everyoneBack, Bool.and_eq_true, Bool.not_eq_eq_eq_not, Bool.not_true] at back
        exact back.1
      · rw [nothing] at isPassed
        cases isPassed
  | none =>
      -- only a join without an id completes the rebalance of a new group
      cases call with
      | join target memberId clientId subscription protocols sessionTimeoutMs nowMs =>
          simp only [GroupCoordinator.rebalanced, GroupCoordinator.groupFor, present, Option.getD_none,
            OrderedMap.find_empty, Option.isSome_none, Bool.false_eq_true, or_false, Option.ite_none_right_eq_some] at isPassed
          obtain ⟨⟨rfl, named, rfl, _⟩, _⟩ := isPassed
          simp only [GroupCoordinator.after, GroupCoordinator.join, named, if_false, if_true] at there
          rcases stored_find there with ⟨_, rfl⟩ | ⟨elsewhere, _⟩
          · exact join_occupied _ _ _ _ _ _ _
          · exact absurd rfl elsewhere
      | sync | heartbeat => cases isPassed
      | leave | expire =>
          simp only [GroupCoordinator.rebalanced, present] at isPassed
          cases isPassed

theorem answered_settled {answer : Announcement}
    (told : answer ∈ Announcing.answersOf coordinator groupId next call)
    (there : (coordinator.after call).groups.find? groupId = some next) :
    next.IsSettled ∧ answer = ⟨false, next.generation, next.roster⟩ := by
  cases call with
  | join target memberId clientId subscription protocols sessionTimeoutMs nowMs =>
      simp only [Announcing.answersOf] at told
      split at told
      · next both =>
        obtain ⟨rfl, fine⟩ := both
        rcases coordinator_join_answer coordinator target memberId clientId subscription protocols
          sessionTimeoutMs nowMs there with ⟨refused, _⟩ | ⟨settled, id, result⟩
        · exact absurd fine refused
        · rw [List.mem_singleton] at told
          refine ⟨settled, ?_⟩
          rw [told, result]
          rfl
      · cases told
  | sync | heartbeat | leave | expire => cases told

theorem announces_fence (there : (coordinator.after call).groups.find? groupId = some next) :
    (Announcing.announces coordinator call groupId).Pairwise Announcement.Fences := by
  simp only [Announcing.announces, there]
  apply List.pairwise_append.mpr
  refine ⟨?_, ?_, ?_⟩
  · split
    · exact List.pairwise_singleton _ _
    · exact .nil
  · cases call with
    | join =>
        simp only [Announcing.answersOf]
        split
        · exact List.pairwise_singleton _ _
        · exact .nil
    | sync | heartbeat | leave | expire => exact .nil
  · intro completed inside answer told
    rw [List.mem_ite_nil_right, List.mem_singleton] at inside
    obtain ⟨_, same⟩ := inside
    obtain ⟨_, isAnswer⟩ := answered_settled told there
    rw [same, isAnswer]
    exact ⟨le_refl _, fun ahead => absurd ahead (by simp), fun _ => rfl⟩

theorem settled_occupied (holds : GroupHolds next) (settled : next.IsSettled) :
    next.members.isEmpty = false := by
  rw [Bool.eq_false_iff]
  intro nobody
  have empty := holds.empty.mpr nobody
  rw [Group.IsSettled, empty] at settled
  simp at settled

end Groups

/-- What has been announced of a group is not ahead of it, and what was announced
of its generation is what the group has settled. -/
structure Announcing.Holds (groupId : Bytes) (state : Announcing) : Prop where
  groups : state.coordinator.Holds
  ordered : (state.announced groupId).Pairwise Announcement.Fences
  below : ∀ group, state.coordinator.groups.find? groupId = some group →
    ∀ told ∈ state.announced groupId, told.generation ≤ group.generation ∧
      (group.IsSettled → told.generation = group.generation → told.roster = group.roster)
  nobody : (∀ group, state.coordinator.groups.find? groupId = some group →
    group.members.isEmpty = true) → state.announced groupId = []

section Runs

variable {state : Announcing} {groupId : Bytes} {call : GroupCall}

theorem announced_stays_below (holds : state.Holds groupId) {next : Group}
    (there : (state.coordinator.after call).groups.find? groupId = some next) :
    ∀ told ∈ state.announced groupId, told.generation ≤ next.generation ∧
      (state.coordinator.completes groupId call = true → told.generation < next.generation) ∧
      (next.IsSettled → told.generation = next.generation → told.roster = next.roster) := by
  intro told inside
  cases present : state.coordinator.groups.find? groupId with
  | none =>
      rw [holds.nobody (by simp [present])] at inside
      cases inside
  | some group =>
      obtain ⟨below, same⟩ := holds.below group present told inside
      have generation := generation_after present there
      refine ⟨?_, ?_, ?_⟩
      · split at generation <;> omega
      · intro completes
        rw [if_pos completes] at generation
        omega
      · intro settled here
        cases outcome_shift present there with
        | kept wasSettled kept outcome =>
            rw [same wasSettled (here.trans kept)]
            exact (congrArg JoinOutcome.roster outcome).symm
        | unsettled open_ _ => exact absurd settled open_
        | renewed later => omega

theorem announcing_step (holds : state.Holds groupId)
    (kept : state.coordinator.empties groupId call = false) {next : Announcing}
    (taken : Announcing.step call state = some next) : next.Holds groupId := by
  cases taken
  have groups := after_holds holds.groups call
  cases there : (state.coordinator.after call).groups.find? groupId with
  | none =>
      have nothing : Announcing.announces state.coordinator call groupId = [] := by
        simp only [Announcing.announces, there]
      have before : state.announced groupId = [] := by
        apply holds.nobody
        intro group present
        by_contra occupied
        obtain ⟨next, stays, _⟩ := group_stays present (Bool.not_eq_true _ ▸ occupied) kept
        rw [there] at stays
        cases stays
      refine ⟨groups, ?_, ?_, ?_⟩
      all_goals simp only [nothing, before, List.append_nil]
      · exact .nil
      · exact fun _ _ => List.forall_mem_nil _
      · exact fun _ => trivial
  | some next =>
      have below := announced_stays_below holds there
      have announced : ∀ told ∈ Announcing.announces state.coordinator call groupId,
          next.members.isEmpty = false ∧ told.generation = next.generation ∧ told.roster = next.roster ∧
            ((told.completes = true ∧ state.coordinator.completes groupId call = true) ∨
              (told.completes = false ∧ next.IsSettled)) := by
        intro told inside
        simp only [Announcing.announces, there, List.mem_append, List.mem_ite_nil_right,
          List.mem_singleton] at inside
        rcases inside with ⟨completes, rfl⟩ | answered
        · exact ⟨completes_occupied completes there, rfl, rfl, .inl ⟨rfl, completes⟩⟩
        · obtain ⟨settled, rfl⟩ := answered_settled answered there
          exact ⟨settled_occupied (groups groupId next there) settled, rfl, rfl, .inr ⟨rfl, settled⟩⟩
      refine ⟨groups, ?_, ?_, ?_⟩
      · apply List.pairwise_append.mpr
        refine ⟨holds.ordered, ?_, ?_⟩
        · exact announces_fence there
        · intro told before later now
          obtain ⟨behind, rises, same⟩ := below told before
          obtain ⟨_, generation, roster, what⟩ := announced later now
          refine ⟨generation ▸ behind, ?_, ?_⟩
          · intro completes
            rcases what with ⟨_, completed⟩ | ⟨answers, _⟩
            · rw [generation]
              exact rises completed
            · rw [answers] at completes
              cases completes
          · intro equal
            rw [roster]
            rcases what with ⟨_, completed⟩ | ⟨_, settled⟩
            · have less := rises completed
              omega
            · exact same settled (equal.trans generation)
      · intro group isGroup told inside
        cases there.symm.trans isGroup
        rcases List.mem_append.mp inside with before | now
        · exact ⟨(below told before).1, (below told before).2.2⟩
        · obtain ⟨_, generation, roster, _⟩ := announced told now
          exact ⟨generation.le, fun _ _ => roster⟩
      · intro nobody
        have empty := nobody next there
        apply List.append_eq_nil_iff.mpr
        constructor
        · apply holds.nobody
          intro group present
          by_contra occupied
          obtain ⟨other, stays, still⟩ := group_stays present (Bool.not_eq_true _ ▸ occupied) kept
          cases there.symm.trans stays
          rw [empty] at still
          cases still
        · apply List.eq_nil_iff_forall_not_mem.mpr
          intro told inside
          have occupied := (announced told inside).1
          rw [empty] at occupied
          cases occupied

/-- In a run that never empties the group, its generations fence. -/
theorem generations_fence {final : Announcing} (groupId : Bytes)
    (reached : GuardedRun.Reaches Announcing.step
      (fun state call => state.coordinator.empties groupId call = false) Announcing.start final) :
    (final.announced groupId).Pairwise Announcement.Fences := by
  have holds := reached.invariant _ _ (Announcing.Holds groupId)
    ⟨nofun, .nil, nofun, fun _ => rfl⟩ fun state call next before kept taken =>
      announcing_step before kept taken
  exact holds.ordered

end Runs

def comeAndGo : List GroupCall :=
  [.join [103] [] [97] [[116]] [[114]] 10000 0, .join [103] [] [98] [[116]] [[114]] 10000 0,
    .join [103] [97, 45, 49] [97] [[116]] [[114]] 10000 0, .leave [103] [97, 45, 49],
    .join [103] [98, 45, 50] [98] [[116]] [[114]] 10000 0]

theorem generations_fence_come_and_go : ∃ final : Announcing,
    (final.announced [103]).map (·.generation) = [1, 1, 2, 2, 3, 3] ∧
      (final.announced [103]).Pairwise Announcement.Fences := by
  obtain ⟨final, reached, checked⟩ := GuardedRun.found_by_run Announcing.step
    (fun state call => state.coordinator.empties [103] call = false) Announcing.start
    (fun state => (state.announced [103]).map (·.generation) == [1, 1, 2, 2, 3, 3])
    comeAndGo (by decide +kernel)
  exact ⟨final, eq_of_beq checked, generations_fence [103] reached⟩

/-- The only consumer leaves, another one comes: both are told generation one. -/
theorem generations_start_again :
    ¬ ∀ (groupId : Bytes) (final : Announcing),
      GuardedRun.Reaches Announcing.step (fun _ _ => True) Announcing.start final →
        (final.announced groupId).Pairwise Announcement.Fences := by
  intro all
  obtain ⟨final, reached, checked⟩ := GuardedRun.found_by_run Announcing.step (fun _ _ => True)
    Announcing.start
    (fun state => state.announced [103] == [⟨true, 1, [([97, 45, 49], [[116]])]⟩,
      ⟨false, 1, [([97, 45, 49], [[116]])]⟩, ⟨true, 1, [([98, 45, 50], [[116]])]⟩,
      ⟨false, 1, [([98, 45, 50], [[116]])]⟩])
    [.join [103] [] [97] [[116]] [[114]] 10000 0, .leave [103] [97, 45, 49],
      .join [103] [] [98] [[116]] [[114]] 10000 0] (by decide +kernel)
  have ordered := all [103] final reached
  rw [eq_of_beq checked] at ordered
  have fences := (List.pairwise_cons.mp ordered).1 ⟨true, 1, [([98, 45, 50], [[116]])]⟩ (by simp)
  exact absurd (fences.identifies rfl) (by decide)

end DariyaKyu.Groups

import DariyaKyu.Group.Fencing
import DariyaKyu.Library.GuardedRun
import DariyaKyu.Server.OffsetCommit

/-!
Who may commit. A pair of a member id and a generation that is not the current
one of its group is refused by every request that carries it, and a pair that a
completed rebalance has left behind is not accepted again, whatever becomes of
the group. A commit is checked once and then writes partition by partition, so
between the check and a write the group may have moved on.
-/

namespace DariyaKyu.Server

set_option autoImplicit false

open Storage Protocol Groups

def handsOut (coordinator : GroupCoordinator) : GroupCall → List Pass
  | .join groupId memberId clientId subscription protocols sessionTimeoutMs nowMs =>
      let answer :=
        (coordinator.join groupId memberId clientId subscription protocols sessionTimeoutMs nowMs).2
      [⟨groupId, answer.memberId, answer.generation⟩]
  | _ => []

/-- A coordinator, what it has handed out, and which of it was handed out before
a rebalance of its group that has completed. -/
structure Fenced where
  issuing : Issuing
  handed : List Pass
  retired : List Pass

def Fenced.coordinator (state : Fenced) : GroupCoordinator := state.issuing.coordinator

def Fenced.step (call : GroupCall) (state : Fenced) : Option Fenced :=
  (Issuing.step call state.issuing).map fun issuing =>
    { issuing
      handed := state.handed ++ handsOut state.coordinator call
      retired := state.retired ++
        state.handed.filter fun pass => state.coordinator.completes pass.groupId call }

def Fenced.start : Fenced := ⟨Issuing.start, [], []⟩

/-- Every request that carries this pair gets an error and changes nothing. -/
structure Refused (coordinator : GroupCoordinator) (groupId memberId : Bytes) (generation : Int) :
    Prop where
  sync : ∀ assignments nowMs, ∃ failure, failure ≠ .none ∧
    coordinator.sync groupId memberId generation assignments nowMs = (coordinator, { error := failure })
  heartbeat : ∀ nowMs, ∃ failure, failure ≠ .none ∧
    coordinator.heartbeat groupId memberId generation nowMs = (coordinator, failure)
  offsetCommit : memberId ≠ [] ∨ 0 ≤ generation → ∀ (broker : Broker) hash topics nowMs io,
    broker.groups = coordinator → ∃ failure, failure ≠ .none ∧
      broker.handleOffsetCommit hash ⟨groupId, generation, memberId, topics⟩ nowMs io =
        some (OffsetCommitRequest.refusal ⟨groupId, generation, memberId, topics⟩ failure, broker)

theorem refused_of_stale {coordinator : GroupCoordinator} {groupId memberId : Bytes}
    {generation : Int} (stale : ¬ coordinator.Current groupId memberId generation) :
    Refused coordinator groupId memberId generation where
  sync := sync_refused stale
  heartbeat := heartbeat_refused stale
  offsetCommit := by
    intro carries broker hash topics nowMs io same
    apply offset_commit_refused _ (same ▸ stale)
    rcases carries with named | counted
    · simp [OffsetCommitRequest.claimsMembership, named]
    · simp [OffsetCommitRequest.claimsMembership, counted]

structure Fenced.Holds (state : Fenced) : Prop where
  groups : state.coordinator.Holds
  issuing : IssuingHolds state.issuing
  handed : ∀ pass ∈ state.handed, state.issuing.Knows pass ∧ state.issuing.Reached pass
  retired : ∀ pass ∈ state.retired, state.issuing.Knows pass ∧ state.issuing.Passed pass

theorem join_generation (group : Group) (id clientId : Bytes) (subscription protocols : List Bytes)
    (sessionTimeoutMs nowMs : Int) :
    (group.join id clientId subscription protocols sessionTimeoutMs nowMs).2.generation =
        (group.join id clientId subscription protocols sessionTimeoutMs nowMs).1.generation ∨
      (group.join id clientId subscription protocols sessionTimeoutMs nowMs).2.generation = -1 := by
  unfold Group.join
  split
  · exact .inl rfl
  · simp only
    split
    · exact .inr rfl
    · exact .inl rfl

section Handed

variable {coordinator : GroupCoordinator} {groupId memberId clientId : Bytes}
  {subscription protocols : List Bytes} {sessionTimeoutMs nowMs : Int}

theorem answer_generation {answer : JoinResult} {after : GroupCoordinator}
    (joins : coordinator.join groupId memberId clientId subscription protocols sessionTimeoutMs nowMs =
      (after, answer)) :
    answer.generation = -1 ∨ ∃ group, after.groups.find? groupId = some group ∧
      answer.generation = group.generation := by
  have stored : ∀ (base : GroupCoordinator) (group : Group) (id : Bytes),
      (base.store groupId (group.join id clientId subscription protocols sessionTimeoutMs nowMs).1,
          (group.join id clientId subscription protocols sessionTimeoutMs nowMs).2) = (after, answer) →
        answer.generation = -1 ∨ ∃ group, after.groups.find? groupId = some group ∧
          answer.generation = group.generation := by
    intro base group id same
    obtain ⟨rfl, rfl⟩ := Prod.mk.inj same
    rcases join_generation group id clientId subscription protocols sessionTimeoutMs nowMs with
      equal | outside
    · exact .inr ⟨_, by simp [GroupCoordinator.store, OrderedMap.find_insert], equal⟩
    · exact .inl outside
  unfold GroupCoordinator.join at joins
  split at joins
  · obtain ⟨_, rfl⟩ := Prod.mk.inj joins
    exact .inl rfl
  simp only at joins
  split at joins
  · exact stored _ _ _ joins
  split at joins
  · obtain ⟨_, rfl⟩ := Prod.mk.inj joins
    exact .inl rfl
  · exact stored _ _ _ joins

/-- The id in an answer is the next one to be given out, or it was in the group. -/
theorem answer_member {answer : JoinResult} {after : GroupCoordinator}
    (joins : coordinator.join groupId memberId clientId subscription protocols sessionTimeoutMs nowMs =
      (after, answer)) :
    answer.memberId = [] ∨ memberId = [] ∨
      ∃ group member, coordinator.groups.find? groupId = some group ∧
        group.members.find? answer.memberId = some member := by
  unfold GroupCoordinator.join at joins
  split at joins
  · obtain ⟨_, rfl⟩ := Prod.mk.inj joins
    exact .inl rfl
  simp only at joins
  split at joins
  · next fresh => exact .inr (.inl fresh)
  split at joins
  · obtain ⟨_, rfl⟩ := Prod.mk.inj joins
    exact .inl rfl
  · next known =>
    obtain ⟨_, rfl⟩ := Prod.mk.inj joins
    rw [join_member_id]
    simp only [GroupCoordinator.groupFor] at known
    cases present : coordinator.groups.find? groupId with
    | none => simp [present, OrderedMap.find_empty] at known
    | some group =>
        cases found : group.members.find? memberId with
        | none => simp [present, found] at known
        | some member => exact .inr (.inr ⟨group, member, rfl, found⟩)

end Handed

/-- What a join hands out names a member of the group, or nobody, and the group
is not behind it. -/
theorem handed_out {state next : Issuing} {call : GroupCall} (holds : state.coordinator.Holds)
    (issuing : IssuingHolds state) (taken : Issuing.step call state = some next) {pass : Pass}
    (new : pass ∈ handsOut state.coordinator call) : next.Knows pass ∧ next.Reached pass := by
  have ordered := after_holds holds call
  cases taken
  cases call with
  | join groupId memberId clientId subscription protocols sessionTimeoutMs nowMs =>
      cases joins : state.coordinator.join groupId memberId clientId subscription protocols
          sessionTimeoutMs nowMs with
      | mk after answer =>
          have isAfter : state.coordinator.after (.join groupId memberId clientId subscription protocols
              sessionTimeoutMs nowMs) = after := by
            rw [GroupCoordinator.after, joins]
          simp only [handsOut, joins, List.mem_singleton] at new
          subst new
          constructor
          · by_cases anonymous : answer.memberId = []
            · exact .inl anonymous
            · right
              rcases answer_member joins with none | fresh | ⟨group, member, there, found⟩
              · exact absurd none anonymous
              · apply List.mem_append_right
                subst fresh
                simp [GroupCoordinator.issues, joins, anonymous]
              · exact List.mem_append_left _ (issuing.owned _ _ there _ _ found)
          · intro group member there _
            rw [isAfter] at there ordered
            rcases answer_generation joins with outside | ⟨joined, isJoined, same⟩
            · have counted := (ordered _ _ there).counted
              simp only [outside]
              omega
            · cases isJoined.symm.trans there
              exact le_of_eq same
  | sync | heartbeat | leave | expire => simp [handsOut] at new

theorem fenced_step {state next : Fenced} {call : GroupCall} (holds : state.Holds)
    (taken : Fenced.step call state = some next) : next.Holds := by
  obtain ⟨issuing, moved, rfl⟩ := Option.map_eq_some_iff.mp taken
  have isAfter : issuing.coordinator = state.coordinator.after call := by
    cases moved
    rfl
  refine ⟨?_, issuing_step holds.issuing moved, ?_, ?_⟩
  · show issuing.coordinator.Holds
    rw [isAfter]
    exact after_holds holds.groups call
  · intro pass member
    rcases List.mem_append.mp member with old | new
    · obtain ⟨knows, reached⟩ := holds.handed pass old
      exact ⟨knows.step moved, reached.step holds.issuing knows moved⟩
    · exact handed_out holds.groups holds.issuing moved new
  · intro pass member
    rcases List.mem_append.mp member with old | new
    · obtain ⟨knows, passed⟩ := holds.retired pass old
      exact ⟨knows.step moved, passed.step holds.issuing knows moved⟩
    · obtain ⟨old, completes⟩ := List.mem_filter.mp new
      obtain ⟨knows, reached⟩ := holds.handed pass old
      exact ⟨knows.step moved, reached.passes holds.issuing knows moved completes⟩

theorem fenced_holds {final : Fenced}
    (reached : GuardedRun.Reaches Fenced.step (fun _ _ => True) Fenced.start final) : final.Holds :=
  reached.invariant _ _ Fenced.Holds
    ⟨by simp [GroupCoordinator.Holds, Fenced.coordinator, Fenced.start, Issuing.start, OrderedMap.find_empty],
      issuing_start_holds, by simp [Fenced.start], by simp [Fenced.start]⟩
    fun _ _ _ holds _ taken => fenced_step holds taken

/-- In every state of every run, a pair that is not current is refused, and so is
every pair that was handed out before a rebalance of its group completed. -/
theorem stale_pairs_are_refused {final : Fenced}
    (reached : GuardedRun.Reaches Fenced.step (fun _ _ => True) Fenced.start final) :
    (∀ groupId memberId generation, ¬ final.coordinator.Current groupId memberId generation →
        Refused final.coordinator groupId memberId generation) ∧
      ∀ pass ∈ final.retired, ∀ groupId,
        Refused final.coordinator groupId pass.memberId pass.generation := by
  have holds := fenced_holds reached
  refine ⟨fun groupId memberId generation stale => refused_of_stale stale, ?_⟩
  intro pass member groupId
  obtain ⟨knows, passed⟩ := holds.retired pass member
  exact refused_of_stale (passed.stale holds.issuing knows groupId)

/-- `a` is alone, `b` joins, and with `a` joining again they are a generation on. -/
def joinedByAnother : List GroupCall :=
  [.join [103] [] [97] [[116]] [[114]] 10000 0, .join [103] [] [98] [[116]] [[114]] 10000 0,
    .join [103] [97, 45, 49] [97] [[116]] [[114]] 10000 0]

theorem stale_pairs_are_refused_first_generation :
    ∃ final, GuardedRun.Reaches Fenced.step (fun _ _ => True) Fenced.start final ∧
      ⟨[103], [97, 45, 49], 1⟩ ∈ final.retired ∧ Refused final.coordinator [103] [97, 45, 49] 1 ∧
      Refused final.coordinator [103] [97, 45, 49] 3 := by
  obtain ⟨final, reached, checked⟩ := GuardedRun.found_by_run Fenced.step (fun _ _ => True) Fenced.start
    (fun state => state.retired.contains ⟨[103], [97, 45, 49], 1⟩ &&
      (state.coordinator.groups.find? [103]).any (·.generation == 2))
    joinedByAnother (by decide +kernel)
  simp only [Bool.and_eq_true, List.contains_iff_mem, Option.any_eq_true, beq_iff_eq] at checked
  obtain ⟨retired, group, there, second⟩ := checked
  obtain ⟨stale, passed⟩ := stale_pairs_are_refused reached
  refine ⟨final, reached, retired, passed _ retired [103], stale _ _ _ ?_⟩
  rintro ⟨other, member, isGroup, _, same⟩
  cases there.symm.trans isGroup
  omega

end DariyaKyu.Server

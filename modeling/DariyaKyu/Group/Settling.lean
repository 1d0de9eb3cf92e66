import DariyaKyu.Group.JoinResults
import DariyaKyu.Group.Membership

/-!
A rebalance that is left alone ends. While nobody comes or goes, the members of
a preparing group only have to ask again: the group waits until each of them has
joined once, the last of those joins completes the rebalance, and from then on
every join is a retry, on either side of the leader's sync, so that nobody
starts the next rebalance.
-/

namespace DariyaKyu.Groups

set_option autoImplicit false

open Protocol

abbrev Asks := Bytes → List Bytes × List Bytes

def GroupCall.FromMember (groupId : Bytes) (group : Group) (asks : Asks) : GroupCall → Prop
  | .join target memberId _ subscription protocols _ _ =>
      target = groupId ∧ (∃ member, group.members.find? memberId = some member) ∧
        asks memberId = (subscription, protocols)
  | .sync target memberId _ _ _ | .heartbeat target memberId _ _ =>
      target = groupId ∧ ∃ member, group.members.find? memberId = some member
  | _ => False

def GroupCall.joinsAs : GroupCall → Option Bytes
  | .join _ memberId _ _ _ _ _ => some memberId
  | _ => none

/-- The member has rejoined already, or does so in these calls. -/
def Group.Back (group : Group) (calls : List GroupCall) (id : Bytes) : Prop :=
  (∃ member, group.members.find? id = some member ∧ member.rejoined = true) ∨
    ∃ call ∈ calls, call.joinsAs = some id

def Group.AllBack (group : Group) (calls : List GroupCall) : Prop :=
  ∀ id member, group.members.find? id = some member → group.Back calls id

/-- What a member of the group stores is what it asks for, once it has rejoined. -/
def Group.Steady (group : Group) (asks : Asks) : Prop :=
  ∀ id member, group.members.find? id = some member → member.rejoined = true →
    (member.subscription, member.protocols) = asks id

def Group.SameMembers (group next : Group) : Prop :=
  ∀ id, (next.members.find? id).isSome = (group.members.find? id).isSome

structure Group.Awaits (group next : Group) (asks : Asks) (calls : List GroupCall) : Prop where
  preparing : next.state = .preparingRebalance
  generation : next.generation = group.generation
  members : group.SameMembers next
  returned : ∀ id member, next.members.find? id = some member →
    (member.rejoined = true ↔ group.Back calls id)
  steady : next.Steady asks

/-- The rebalance has completed, and nobody has reason to start another one. -/
structure Group.Completed (group next : Group) (asks : Asks) (leaderId : Bytes) : Prop where
  settled : next.IsSettled
  generation : next.generation = group.generation + 1
  leader : next.leaderId = leaderId
  members : group.SameMembers next
  rejoined : ∀ id member, next.members.find? id = some member → member.rejoined = true
  steady : next.Steady asks

section OneGroup

variable {group next : Group} {asks : Asks} {calls : List GroupCall} {leaderId : Bytes}

/-- A change of the members that neither phase looks at. -/
def Unnoticed (change : Bytes → Member → Member) : Prop :=
  ∀ id member, (change id member).rejoined = member.rejoined ∧
    (change id member).subscription = member.subscription ∧
    (change id member).protocols = member.protocols

theorem remapped_same_members {change : Bytes → Member → Member} {state : GroupState}
    (same : group.SameMembers next) :
    group.SameMembers { next with members := next.members.mapValues change, state := state } := by
  intro id
  simp only [OrderedMap.find_map_values, Option.isSome_map]
  exact same id

theorem remapped_steady {change : Bytes → Member → Member} {state : GroupState}
    (unnoticed : Unnoticed change) (steady : next.Steady asks) :
    Group.Steady { next with members := next.members.mapValues change, state := state } asks := by
  intro id member found returned
  simp only [OrderedMap.find_map_values, Option.map_eq_some_iff] at found
  obtain ⟨old, isOld, rfl⟩ := found
  obtain ⟨rejoined, subscription, protocols⟩ := unnoticed id old
  rw [subscription, protocols]
  exact steady id old isOld (rejoined ▸ returned)

theorem touch_unnoticed (memberId : Bytes) (nowMs : Int) :
    Unnoticed fun id member => if id = memberId then { member with lastHeartbeatMs := nowMs } else member := by
  intro id member
  simp only
  split <;> exact ⟨rfl, rfl, rfl⟩

theorem assign_unnoticed (assignments : OrderedMap Bytes Bytes) :
    Unnoticed fun id member =>
      match assignments.find? id with
      | none => member
      | some bytes => { member with assignment := bytes } := by
  intro id member
  simp only
  split <;> exact ⟨rfl, rfl, rfl⟩

theorem Group.Awaits.touch (awaits : group.Awaits next asks calls) (id : Bytes) (nowMs : Int) :
    group.Awaits (next.touch id nowMs) asks calls := by
  have unnoticed := touch_unnoticed id nowMs
  refine ⟨awaits.preparing, awaits.generation, remapped_same_members awaits.members, ?_,
    remapped_steady unnoticed awaits.steady⟩
  intro other member found
  rw [Group.touch, OrderedMap.find_map_values, Option.map_eq_some_iff] at found
  obtain ⟨old, isOld, rfl⟩ := found
  rw [(unnoticed other old).1]
  exact awaits.returned other old isOld

theorem Group.Completed.remap (completed : group.Completed next asks leaderId)
    {change : Bytes → Member → Member} (unnoticed : Unnoticed change) {state : GroupState}
    (settled : state = .completingRebalance ∨ state = .stable) :
    group.Completed { next with members := next.members.mapValues change, state := state } asks
      leaderId := by
  refine ⟨settled, completed.generation, completed.leader, remapped_same_members completed.members, ?_,
    remapped_steady unnoticed completed.steady⟩
  intro id member found
  simp only [OrderedMap.find_map_values, Option.map_eq_some_iff] at found
  obtain ⟨old, isOld, rfl⟩ := found
  rw [(unnoticed id old).1]
  exact completed.rejoined id old isOld

theorem Group.Completed.touch (completed : group.Completed next asks leaderId) (id : Bytes)
    (nowMs : Int) : group.Completed (next.touch id nowMs) asks leaderId :=
  completed.remap (touch_unnoticed id nowMs) completed.settled

theorem Group.Completed.assign (completed : group.Completed next asks leaderId)
    (assignments : OrderedMap Bytes Bytes) : group.Completed (next.assign assignments) asks leaderId :=
  completed.remap (assign_unnoticed assignments) (.inr rfl)

theorem Group.Completed.join (completed : group.Completed next asks leaderId) {id : Bytes}
    {member : Member} (known : next.members.find? id = some member) (clientId : Bytes)
    {subscription protocols : List Bytes} (asked : asks id = (subscription, protocols))
    (sessionTimeoutMs nowMs : Int) :
    next.join id clientId subscription protocols sessionTimeoutMs nowMs =
      (next.touch id nowMs, (next.touch id nowMs).resultFor id) := by
  have rejoined := completed.rejoined id member known
  have same := (completed.steady id member known rejoined).trans asked
  have stored := Prod.mk.inj same
  have retry : next.isRetry id subscription protocols = true := by
    simp only [Group.isRetry, known, Bool.and_eq_true, Bool.or_eq_true, beq_iff_eq]
    exact ⟨⟨completed.settled, stored⟩, rejoined⟩
  rw [Group.join, if_pos retry]

def Group.First (group : Group) (leaderId : Bytes) : Prop :=
  (∃ leader, group.members.find? leaderId = some leader) ∧
    ∀ id member, group.members.find? id = some member → leaderId ≤ id

theorem known_after (same : group.SameMembers next) {id : Bytes} {member : Member}
    (known : group.members.find? id = some member) : ∃ later, next.members.find? id = some later := by
  rw [← Option.isSome_iff_exists, same id, known]
  rfl

theorem known_before (same : group.SameMembers next) {id : Bytes} {member : Member}
    (known : next.members.find? id = some member) : ∃ earlier, group.members.find? id = some earlier := by
  rw [← Option.isSome_iff_exists, ← same id, known]
  rfl

theorem first_same (same : group.SameMembers next) {nextLeader : Bytes} {leader : Member}
    (first : group.First leaderId) (isFirst : next.members.first? = some (nextLeader, leader)) :
    nextLeader = leaderId := by
  obtain ⟨found, smallest⟩ := next.members.first_smallest isFirst
  obtain ⟨⟨old, isOld⟩, lowest⟩ := first
  obtain ⟨here, isHere⟩ := known_before same found
  obtain ⟨there, isThere⟩ := known_after same isOld
  exact Std.le_antisymm (smallest leaderId there isThere) (lowest nextLeader here isHere)

theorem back_append (calls : List GroupCall) (call : GroupCall) (id : Bytes) :
    group.Back (calls ++ [call]) id ↔ group.Back calls id ∨ call.joinsAs = some id := by
  simp only [Group.Back, List.mem_append, List.mem_singleton, or_and_right, exists_or, exists_eq_left,
    or_assoc]

/-- The member is entered as having rejoined; nobody else is touched. -/
theorem Group.Awaits.enroll (awaits : group.Awaits next asks calls) {id : Bytes} {member : Member}
    (known : next.members.find? id = some member) {call : GroupCall} (joins : call.joinsAs = some id)
    (clientId : Bytes) {subscription protocols : List Bytes}
    (asked : asks id = (subscription, protocols)) (sessionTimeoutMs nowMs : Int) :
    group.Awaits (next.enroll id clientId subscription protocols sessionTimeoutMs nowMs) asks
      (calls ++ [call]) := by
  refine ⟨awaits.preparing, awaits.generation, ?_, ?_, ?_⟩
  · intro other
    rw [← awaits.members other]
    simp only [Group.enroll, OrderedMap.find_insert]
    split
    · next same =>
      rw [same, known]
      rfl
    · rfl
  · intro other found isFound
    rw [back_append, joins, Option.some.injEq]
    simp only [Group.enroll, OrderedMap.find_insert] at isFound
    split at isFound
    · next same =>
      cases isFound
      simp [same]
    · next different =>
      have before := awaits.returned other found isFound
      simp [before, Ne.symm different]
  · intro other found isFound returned
    simp only [Group.enroll, OrderedMap.find_insert] at isFound
    split at isFound
    · next same =>
      cases isFound
      rw [same, asked]
    · exact awaits.steady other found isFound returned

/-- A join while the group waits: it goes on waiting if someone is still
missing, and it has its outcome if this was the last one. -/
theorem Group.Awaits.join (awaits : group.Awaits next asks calls) (first : group.First leaderId)
    {id : Bytes} {member : Member} (known : next.members.find? id = some member) {call : GroupCall}
    (joins : call.joinsAs = some id) (clientId : Bytes) {subscription protocols : List Bytes}
    (asked : asks id = (subscription, protocols)) (sessionTimeoutMs nowMs : Int) :
    (¬ group.AllBack (calls ++ [call]) ∧ group.Awaits
        (next.join id clientId subscription protocols sessionTimeoutMs nowMs).1 asks
        (calls ++ [call])) ∨
      (group.AllBack (calls ++ [call]) ∧
        group.Completed (next.join id clientId subscription protocols sessionTimeoutMs nowMs).1 asks
          leaderId ∧
        (next.join id clientId subscription protocols sessionTimeoutMs nowMs).2 =
          (next.join id clientId subscription protocols sessionTimeoutMs nowMs).1.resultFor id) := by
  have anew : next.isRetry id subscription protocols = false := by
    simp [Group.isRetry, known, awaits.preparing]
  have enrolled := awaits.enroll known joins clientId asked sessionTimeoutMs nowMs
  have started : next.rejoining id clientId subscription protocols sessionTimeoutMs nowMs =
      next.enroll id clientId subscription protocols sessionTimeoutMs nowMs := by
    rw [Group.rejoining, if_pos awaits.preparing]
  simp only [Group.join, anew, Bool.false_eq_true, if_false, started]
  generalize next.enroll id clientId subscription protocols sessionTimeoutMs nowMs = entered at enrolled
  rcases complete_join_cases entered with ⟨nobody, _⟩ | ⟨other, waiting, found, waits, completed⟩ |
    ⟨nextLeader, leader, isFirst, rejoined, completed⟩
  · -- the group has its members still
    obtain ⟨leader, isLeader⟩ := first.1
    obtain ⟨there, isThere⟩ := known_after enrolled.members isLeader
    rw [find_in_empty nobody] at isThere
    cases isThere
  · left
    rw [completed, if_pos enrolled.preparing]
    refine ⟨?_, enrolled⟩
    intro all
    obtain ⟨old, isOld⟩ := known_before enrolled.members found
    have back := (enrolled.returned other waiting found).mpr (all other old isOld)
    rw [waits] at back
    cases back
  · right
    have leads := first_same enrolled.members first isFirst
    rw [completed, if_neg (by simp)]
    refine ⟨?_, ⟨.inl rfl, ?_, leads, enrolled.members, rejoined, enrolled.steady⟩, rfl⟩
    · intro other old isOld
      obtain ⟨here, isHere⟩ := known_after enrolled.members isOld
      exact (enrolled.returned other here isHere).mp (rejoined other here isHere)
    · simp only [enrolled.generation]

end OneGroup

def GroupCoordinator.afterAll (coordinator : GroupCoordinator) (calls : List GroupCall) :
    GroupCoordinator :=
  calls.foldl GroupCoordinator.after coordinator

section Run

variable {coordinator : GroupCoordinator} {groupId : Bytes} {group next : Group} {asks : Asks}
  {calls : List GroupCall} {leaderId : Bytes}

theorem join_known (there : coordinator.groups.find? groupId = some next) (named : groupId ≠ [])
    {id : Bytes} (occupied : id ≠ []) {member : Member}
    (known : next.members.find? id = some member) (clientId : Bytes)
    (subscription protocols : List Bytes) (sessionTimeoutMs nowMs : Int) :
    coordinator.join groupId id clientId subscription protocols sessionTimeoutMs nowMs =
      (coordinator.store groupId
        (next.join id clientId subscription protocols sessionTimeoutMs nowMs).1,
        (next.join id clientId subscription protocols sessionTimeoutMs nowMs).2) := by
  simp [GroupCoordinator.join, named, occupied, GroupCoordinator.groupFor, there, known]

/-- Where the group is after some of the requests. -/
inductive Group.Progress (group : Group) (asks : Asks) (leaderId : Bytes) (calls : List GroupCall)
    (next : Group) : Prop where
  | awaits (missing : ¬ group.AllBack calls) (awaits : group.Awaits next asks calls)
  | completed (all : group.AllBack calls) (completed : group.Completed next asks leaderId)

theorem Group.Progress.members (progress : group.Progress asks leaderId calls next) :
    group.SameMembers next := by
  cases progress with
  | awaits _ awaits => exact awaits.members
  | completed _ completed => exact completed.members

def Group.ToldOutcome (group : Group) (leaderId : Bytes) (result : JoinResult) : Prop :=
  result.error = .none ∧ result.generation = group.generation + 1 ∧ result.leaderId = leaderId

theorem progress_join (progress : group.Progress asks leaderId calls next)
    (first : group.First leaderId) {call : GroupCall} {id : Bytes} {member : Member}
    (known : next.members.find? id = some member) (joins : call.joinsAs = some id) (clientId : Bytes)
    {subscription protocols : List Bytes} (asked : asks id = (subscription, protocols))
    (sessionTimeoutMs nowMs : Int) :
    group.Progress asks leaderId (calls ++ [call])
        (next.join id clientId subscription protocols sessionTimeoutMs nowMs).1 ∧
      (group.AllBack (calls ++ [call]) → group.ToldOutcome leaderId
        (next.join id clientId subscription protocols sessionTimeoutMs nowMs).2) := by
  cases progress with
  | awaits missing awaits =>
      rcases awaits.join first known joins clientId asked sessionTimeoutMs nowMs with
        ⟨still, waiting⟩ | ⟨all, completed, told⟩
      · exact ⟨.awaits still waiting, fun all => absurd all still⟩
      · refine ⟨.completed all completed, fun _ => ?_⟩
        rw [told]
        exact ⟨rfl, completed.generation, completed.leader⟩
  | completed all completed =>
      have later : group.AllBack (calls ++ [call]) := by
        intro other old isOld
        exact (back_append calls call other).mpr (.inl (all other old isOld))
      rw [completed.join known clientId asked sessionTimeoutMs nowMs]
      exact ⟨.completed later (completed.touch id nowMs), fun _ =>
        ⟨rfl, completed.generation, completed.leader⟩⟩

theorem back_other {call : GroupCall} (other : call.joinsAs = none) (id : Bytes) :
    group.Back (calls ++ [call]) id ↔ group.Back calls id := by
  rw [back_append, other]
  simp

theorem progress_other (progress : group.Progress asks leaderId calls next) {call : GroupCall}
    (other : call.joinsAs = none) {later : Group}
    (awaiting : group.Awaits next asks calls → group.Awaits later asks calls)
    (completing : group.Completed next asks leaderId → group.Completed later asks leaderId) :
    group.Progress asks leaderId (calls ++ [call]) later := by
  cases progress with
  | awaits missing awaits =>
      have waiting := awaiting awaits
      refine .awaits ?_ ⟨waiting.preparing, waiting.generation, waiting.members, ?_, waiting.steady⟩
      · intro all
        exact missing fun id member known => (back_other other id).mp (all id member known)
      · intro id member found
        rw [back_other other]
        exact waiting.returned id member found
  | completed all completed =>
      refine .completed ?_ (completing completed)
      intro id member known
      exact (back_other other id).mpr (all id member known)

def GroupCoordinator.joinAnswer (coordinator : GroupCoordinator) : GroupCall → Option JoinResult
  | .join groupId memberId clientId subscription protocols sessionTimeoutMs nowMs =>
      some (coordinator.join groupId memberId clientId subscription protocols sessionTimeoutMs nowMs).2
  | _ => none

theorem progress_sync_beat (there : coordinator.groups.find? groupId = some next)
    (progress : group.Progress asks leaderId calls next) {call : GroupCall} {later : Group}
    (other : call.IsSync ∨ ∃ memberId generation nowMs,
      call = .heartbeat groupId memberId generation nowMs)
    (after : (coordinator.after call).groups.find? groupId = some later) :
    group.Progress asks leaderId (calls ++ [call]) later := by
  have isOther : call.joinsAs = none := by
    rcases other with sync | ⟨_, _, _, rfl⟩
    · cases call with
      | sync => rfl
      | join | heartbeat | leave | expire => cases sync
    · rfl
  cases group_step coordinator call after with
  | kept same =>
      cases there.symm.trans same
      exact progress_other progress isOther id id
  | synced was | beat was =>
      cases there.symm.trans was
      exact progress_other progress isOther (·.touch _ _) (·.touch _ _)
  | assigned was known completing =>
      cases there.symm.trans was
      refine progress_other progress isOther ?_ (fun completed => (completed.touch _ _).assign _)
      intro awaits
      rw [awaits.preparing] at completing
      cases completing
  | created | issued | joined => cases isOther
  | left | expired =>
      rcases other with sync | ⟨_, _, _, same⟩
      · cases sync
      · cases same

theorem progress_step (there : coordinator.groups.find? groupId = some next)
    (progress : group.Progress asks leaderId calls next) (first : group.First leaderId)
    (named : groupId ≠ []) (occupied : ∀ id member, group.members.find? id = some member → id ≠ [])
    {call : GroupCall} (fromMember : call.FromMember groupId group asks) :
    ∃ later, (coordinator.after call).groups.find? groupId = some later ∧
      group.Progress asks leaderId (calls ++ [call]) later ∧
      (group.AllBack (calls ++ [call]) → ∀ result, coordinator.joinAnswer call = some result →
        group.ToldOutcome leaderId result) := by
  cases call with
  | join target memberId clientId subscription protocols sessionTimeoutMs nowMs =>
      obtain ⟨rfl, ⟨old, isOld⟩, asked⟩ := fromMember
      obtain ⟨member, known⟩ := known_after progress.members isOld
      have joined := join_known there named (occupied memberId old isOld) known clientId subscription
        protocols sessionTimeoutMs nowMs
      have joins : (GroupCall.join target memberId clientId subscription protocols sessionTimeoutMs
        nowMs).joinsAs = some memberId := rfl
      obtain ⟨later, told⟩ :=
        progress_join progress first known joins clientId asked sessionTimeoutMs nowMs
      refine ⟨_, ?_, later, ?_⟩
      · simp [GroupCoordinator.after, joined, GroupCoordinator.store]
      · intro all result answer
        cases answer
        rw [joined]
        exact told all
  | sync target memberId generation assignments nowMs =>
      obtain ⟨rfl, old, isOld⟩ := fromMember
      obtain ⟨member, known⟩ := known_after progress.members isOld
      have stays := sync_stays (has_member_iff.mpr ⟨next, member, there, known⟩) target memberId
        generation assignments nowMs
      obtain ⟨later, _, after, _⟩ := has_member_iff.mp stays
      refine ⟨later, after, progress_sync_beat there progress (.inl trivial) after, ?_⟩
      intro _ result answer
      cases answer
  | heartbeat target memberId generation nowMs =>
      obtain ⟨rfl, old, isOld⟩ := fromMember
      obtain ⟨member, known⟩ := known_after progress.members isOld
      have stays := heartbeat_stays (has_member_iff.mpr ⟨next, member, there, known⟩) target memberId
        generation nowMs
      obtain ⟨later, _, after, _⟩ := has_member_iff.mp stays
      refine ⟨later, after, progress_sync_beat there progress (.inr ⟨_, _, _, rfl⟩) after, ?_⟩
      intro _ result answer
      cases answer
  | leave | expire => exact fromMember.elim

/-- Where the group is after any number of such requests. -/
theorem progress_run (there : coordinator.groups.find? groupId = some group)
    (start : group.Progress asks leaderId [] group) (first : group.First leaderId)
    (named : groupId ≠ []) (occupied : ∀ id member, group.members.find? id = some member → id ≠ [])
    (fromMembers : ∀ call ∈ calls, call.FromMember groupId group asks) :
    ∃ later, (coordinator.afterAll calls).groups.find? groupId = some later ∧
      group.Progress asks leaderId calls later := by
  induction calls using List.reverseRecOn with
  | nil => exact ⟨group, there, start⟩
  | append_singleton calls call ih =>
      obtain ⟨middle, isMiddle, progress⟩ := ih fun earlier member =>
        fromMembers earlier (List.mem_append_left _ member)
      obtain ⟨later, isLater, progressed, _⟩ := progress_step isMiddle progress first named occupied
        (fromMembers call (List.mem_append_right _ (List.mem_singleton_self call)))
      refine ⟨later, ?_, progressed⟩
      rw [GroupCoordinator.afterAll, List.foldl_append]
      exact isLater

end Run

theorem issued_for_named {final : Issuing}
    (reached : GuardedRun.Reaches Issuing.step (fun _ _ => True) Issuing.start final) :
    ∀ entry ∈ final.issued, entry.2 ≠ [] := by
  refine reached.invariant _ _ (fun state => ∀ entry ∈ state.issued, entry.2 ≠ []) nofun ?_
  intro state call next holds _ taken
  cases taken
  intro entry member
  rcases List.mem_append.mp member with earlier | issued
  · exact holds entry earlier
  · rcases issues_cases state.coordinator call with ⟨nothing, _⟩ |
      ⟨groupId, _, _, _, _, _, named, _, issues, _⟩
    · rw [nothing] at issued
      cases issued
    · rw [issues, List.mem_singleton] at issued
      rw [issued]
      exact named

/-- Requests of its members settle a preparing group: its generation is the next
one as soon as each of them has come back, and not before; and every join from
the one that completes it is told that generation and the same leader. -/
theorem rebalance_settles {state : Issuing}
    (reached : GuardedRun.Reaches Issuing.step (fun _ _ => True) Issuing.start state)
    {groupId : Bytes} {group : Group} (present : state.coordinator.groups.find? groupId = some group)
    (preparing : group.state = .preparingRebalance) {asks : Asks} (steady : group.Steady asks) :
    ∃ leaderId, ∀ calls, (∀ call ∈ calls, call.FromMember groupId group asks) →
      (∃ later, (state.coordinator.afterAll calls).groups.find? groupId = some later ∧
        (group.AllBack calls → later.generation = group.generation + 1) ∧
        (¬ group.AllBack calls → later.generation = group.generation)) ∧
      ∀ call, call.FromMember groupId group asks → group.AllBack (calls ++ [call]) →
        ∀ result, (state.coordinator.afterAll calls).joinAnswer call = some result →
          result.error = .none ∧ result.generation = group.generation + 1 ∧
            result.leaderId = leaderId := by
  have kept := reached.invariant _ _ (fun state => state.coordinator.Holds ∧ IssuingHolds state)
    ⟨nofun, issuing_start_holds⟩ (by
      intro state call next both _ taken
      refine ⟨?_, issuing_step both.2 taken⟩
      cases taken
      exact after_holds both.1 call)
  have occupied : ∀ id member, group.members.find? id = some member → id ≠ [] := by
    intro id member known
    exact numbered_occupied (kept.2.numbered _ (kept.2.owned groupId group present id member known))
  obtain ⟨waiting, member, known, waits⟩ := (kept.1 groupId group present).waiting preparing
  have named : groupId ≠ [] :=
    issued_for_named reached _ (kept.2.owned groupId group present waiting member known)
  obtain ⟨leaderId, first⟩ : ∃ leaderId, group.First leaderId := by
    cases isFirst : group.members.first? with
    | none =>
        have nobody : group.members.isEmpty = true :=
          List.isEmpty_iff.mpr (List.head?_eq_none_iff.mp isFirst)
        rw [find_in_empty nobody] at known
        cases known
    | some entry =>
        obtain ⟨found, smallest⟩ := group.members.first_smallest isFirst
        exact ⟨entry.1, ⟨entry.2, found⟩, smallest⟩
  have start : group.Progress asks leaderId [] group := by
    have returned : ∀ id member, group.members.find? id = some member →
        (member.rejoined = true ↔ group.Back [] id) := by
      intro id member known
      simp [Group.Back, known]
    refine .awaits ?_ ⟨preparing, rfl, fun _ => rfl, returned, steady⟩
    intro all
    have back := (returned waiting member known).mpr (all waiting member known)
    rw [waits] at back
    cases back
  refine ⟨leaderId, ?_⟩
  intro calls fromMembers
  obtain ⟨later, isLater, progress⟩ := progress_run present start first named occupied fromMembers
  refine ⟨⟨later, isLater, ?_, ?_⟩, ?_⟩
  · intro all
    cases progress with
    | awaits missing _ => exact absurd all missing
    | completed _ completed => exact completed.generation
  · intro missing
    cases progress with
    | awaits _ awaits => exact awaits.generation
    | completed all _ => exact absurd all missing
  · intro call fromMember all
    obtain ⟨_, _, _, told⟩ := progress_step isLater progress first named occupied fromMember
    exact told all

def secondComes : List GroupCall :=
  [.join [103] [] [97] [[116]] [[114]] 10000 0, .join [103] [] [98] [[117]] [[114]] 10000 0]

def theirAsks : Asks := fun id => ([if id = [97, 45, 49] then [116] else [117]], [[114]])

/-- The second asks early, the first comes back, beats and supplies nothing. -/
def theyReturn : List GroupCall :=
  [.join [103] [98, 45, 50] [98] [[117]] [[114]] 10000 0,
    .join [103] [97, 45, 49] [97] [[116]] [[114]] 10000 0, .heartbeat [103] [97, 45, 49] 2 0,
    .sync [103] [97, 45, 49] 2 OrderedMap.empty 0]

theorem rebalance_settles_both :
    ∃ (state : Issuing) (group later : Group) (leaderId : Bytes),
      state.coordinator.groups.find? [103] = some group ∧ group.state = .preparingRebalance ∧
      (state.coordinator.afterAll theyReturn).groups.find? [103] = some later ∧
      later.generation = group.generation + 1 ∧
      ∀ result, (state.coordinator.afterAll theyReturn).joinAnswer
          (.join [103] [98, 45, 50] [98] [[117]] [[114]] 10000 0) = some result →
        result.error = .none ∧ result.leaderId = leaderId := by
  obtain ⟨state, reached, checked⟩ := GuardedRun.found_by_run Issuing.step (fun _ _ => True)
    Issuing.start
    (fun state => (state.coordinator.groups.find? [103]).any fun group =>
      group.state == .preparingRebalance && (group.members.find? [97, 45, 49]).isSome &&
        (group.members.find? [98, 45, 50]).isSome &&
        group.members.entries.all fun entry => (entry.1 == [97, 45, 49] || entry.1 == [98, 45, 50]) &&
          (entry.2.subscription, entry.2.protocols) == theirAsks entry.1)
    secondComes (by decide +kernel)
  simp only [Option.any_eq_true, Bool.and_eq_true, beq_iff_eq, Option.isSome_iff_exists] at checked
  obtain ⟨group, present, ⟨⟨preparing, first⟩, second⟩, entries⟩ := checked
  have stored : ∀ id member, group.members.find? id = some member →
      (id = [97, 45, 49] ∨ id = [98, 45, 50]) ∧ (member.subscription, member.protocols) = theirAsks id := by
    intro id member known
    have each := (group.members.all_iff fun id member =>
      (id == [97, 45, 49] || id == [98, 45, 50]) &&
        (member.subscription, member.protocols) == theirAsks id).mp entries id member known
    simpa only [Bool.and_eq_true, Bool.or_eq_true, beq_iff_eq] using each
  have steady : group.Steady theirAsks := fun id member known _ => (stored id member known).2
  obtain ⟨leaderId, settles⟩ := rebalance_settles reached present preparing steady
  have back : ∀ calls, group.AllBack (theyReturn ++ calls) := by
    intro calls id member known
    right
    rcases (stored id member known).1 with rfl | rfl
    · exact ⟨.join [103] [97, 45, 49] [97] [[116]] [[114]] 10000 0, by simp [theyReturn], rfl⟩
    · exact ⟨.join [103] [98, 45, 50] [98] [[117]] [[114]] 10000 0, by simp [theyReturn], rfl⟩
  have fromMembers : ∀ call ∈ theyReturn, call.FromMember [103] group theirAsks := by
    intro call member
    simp only [theyReturn, List.mem_cons, List.not_mem_nil, or_false] at member
    rcases member with rfl | rfl | rfl | rfl
    · exact ⟨rfl, second, rfl⟩
    · exact ⟨rfl, first, rfl⟩
    · exact ⟨rfl, first⟩
    · exact ⟨rfl, first⟩
  obtain ⟨⟨later, isLater, generation, _⟩, told⟩ := settles theyReturn fromMembers
  refine ⟨state, group, later, leaderId, present, preparing, isLater, ?_, ?_⟩
  · have all := back []
    rw [List.append_nil] at all
    exact generation all
  · intro result answer
    have fromMember : (GroupCall.join [103] [98, 45, 50] [98] [[117]] [[114]] 10000 0).FromMember [103]
        group theirAsks := ⟨rfl, second, rfl⟩
    obtain ⟨fine, _, leads⟩ := told _ fromMember (back _) result answer
    exact ⟨fine, leads⟩

end DariyaKyu.Groups

import DariyaKyu.Group.GroupInvariants

/-!
Which assignment a member collects. The leader of a generation supplies the
assignments with its first sync, and everybody's sync is answered from what is
stored with the member. That record outlives the generation: a member that the
leader does not name keeps the assignment of an earlier one.
-/

namespace DariyaKyu.Groups

set_option autoImplicit false

/-- A coordinator and, for each group, what the leader supplied with its first
successful sync of the group's generation. -/
structure Supplying where
  coordinator : GroupCoordinator
  supplied : Bytes → Option (OrderedMap Bytes Bytes)

namespace Supplying

def start : Supplying := ⟨{}, fun _ => none⟩

/-- A new generation starts without assignments, and the first sync of its
leader that is not refused supplies them. -/
def suppliedAfter (state : Supplying) (call : GroupCall) (groupId : Bytes) :
    Option (OrderedMap Bytes Bytes) :=
  match state.coordinator.groups.find? groupId,
      (state.coordinator.after call).groups.find? groupId with
  | some before, some after =>
      if after.generation ≠ before.generation then none
      else
        match call with
        | .sync target memberId generation assignments nowMs =>
            if target = groupId ∧ memberId = before.leaderId ∧ state.supplied groupId = none ∧
                (state.coordinator.sync target memberId generation assignments nowMs).2.error = .none
            then some assignments
            else state.supplied groupId
        | _ => state.supplied groupId
  | _, _ => none

def step (call : GroupCall) (state : Supplying) : Option Supplying :=
  some ⟨state.coordinator.after call, state.suppliedAfter call⟩

end Supplying

/-- If the call is the one with which the leader supplies the assignments,
everybody it does not name has an empty one. -/
def GroupCoordinator.namesAssigned (coordinator : GroupCoordinator) : GroupCall → Bool
  | .sync groupId memberId generation assignments _ =>
      (coordinator.groups.find? groupId).all fun group =>
        !(group.state == .completingRebalance && memberId == group.leaderId &&
            generation == group.generation) ||
          group.members.entries.all fun entry =>
            (assignments.find? entry.1).isSome || entry.2.assignment == []
  | _ => true

/-- A group that has not been supplied yet, or whose members have what was. -/
structure Supplying.GroupMatches (state : Supplying) (groupId : Bytes) (group : Group) : Prop where
  waiting : group.state = .completingRebalance → state.supplied groupId = none
  served : group.state = .stable → ∃ supplied, state.supplied groupId = some supplied ∧
    ∀ id member, group.members.find? id = some member →
      member.assignment = (supplied.find? id).getD []

structure Supplying.Holds (state : Supplying) : Prop where
  groups : state.coordinator.Holds
  matched : ∀ groupId group, state.coordinator.groups.find? groupId = some group →
    state.GroupMatches groupId group

theorem names_assigned_at {coordinator : GroupCoordinator} {groupId : Bytes} {group : Group}
    {assignments : OrderedMap Bytes Bytes} {nowMs : Int}
    (names : coordinator.namesAssigned
      (.sync groupId group.leaderId group.generation assignments nowMs) = true)
    (present : coordinator.groups.find? groupId = some group)
    (completing : group.state = .completingRebalance) {id : Bytes} {member : Member}
    (known : group.members.find? id = some member) :
    (assignments.find? id).getD member.assignment = (assignments.find? id).getD [] := by
  simp only [GroupCoordinator.namesAssigned, present, Option.all_some, completing, beq_self_eq_true,
    Bool.and_self, Bool.not_true, Bool.false_or] at names
  have all := (group.members.all_iff fun id member =>
    (assignments.find? id).isSome || member.assignment == []).mp names id member known
  cases named : assignments.find? id with
  | none =>
      rw [named] at all
      simpa using all
  | some bytes => rfl

theorem group_shift_new {coordinator : GroupCoordinator} {call : GroupCall} {groupId : Bytes}
    {next : Group} (absent : coordinator.groups.find? groupId = none)
    (there : (coordinator.after call).groups.find? groupId = some next) :
    GroupShift { id := groupId } next := by
  cases group_step coordinator call there with
  | kept same =>
      rw [absent] at same
      cases same
  | created _ => exact .quiet rfl rfl rfl fun id member found => ⟨member, found, rfl⟩
  | issued named =>
      simp only [GroupCoordinator.groupFor, absent, Option.getD_none]
      exact join_shift _ _ _ _ _ _ _
  | joined was | synced was | beat was | left was | expired was =>
      rw [absent] at was
      cases was
  | assigned was known completing =>
      rw [absent] at was
      cases was

/-- The ledger of a group that a call leaves in its generation is what it was,
unless the call is a sync. -/
theorem supplied_after_other {state : Supplying} {call : GroupCall} (other : ¬ call.IsSync)
    {groupId : Bytes} {group next : Group}
    (present : state.coordinator.groups.find? groupId = some group)
    (there : (state.coordinator.after call).groups.find? groupId = some next) :
    state.suppliedAfter call groupId =
      if next.generation ≠ group.generation then none else state.supplied groupId := by
  unfold Supplying.suppliedAfter
  simp only [present, there]
  cases call with
  | sync => exact (other trivial).elim
  | join | heartbeat | leave | expire => rfl

/-- A group that was not there before a call has not been supplied. -/
theorem matches_new {state : Supplying} {call : GroupCall} {groupId : Bytes} {next : Group}
    (absent : state.coordinator.groups.find? groupId = none)
    (there : (state.coordinator.after call).groups.find? groupId = some next) :
    Supplying.GroupMatches ⟨state.coordinator.after call, state.suppliedAfter call⟩ groupId next := by
  have nothing : state.suppliedAfter call groupId = none := by
    unfold Supplying.suppliedAfter
    simp only [absent]
  refine ⟨fun _ => nothing, ?_⟩
  intro stable
  cases group_shift_new absent there with
  | quiet same => simp [stable] at same
  | restarted restarted => simp [stable] at restarted
  | completed completing => simp [stable] at completing

theorem matches_other {state : Supplying} {call : GroupCall} (other : ¬ call.IsSync)
    (holds : state.Holds) {groupId : Bytes} {next : Group}
    (there : (state.coordinator.after call).groups.find? groupId = some next) :
    Supplying.GroupMatches ⟨state.coordinator.after call, state.suppliedAfter call⟩ groupId next := by
  cases present : state.coordinator.groups.find? groupId with
  | none => exact matches_new present there
  | some group =>
      have before := holds.matched groupId group present
      have ledger := supplied_after_other other present there
      cases group_shift other present there with
      | quiet same generation leaderId members =>
          have kept : state.suppliedAfter call groupId = state.supplied groupId := by
            rw [ledger, if_neg (not_not.mpr generation)]
          constructor
          · intro completing
            exact kept.trans (before.waiting (same ▸ completing))
          · intro stable
            obtain ⟨supplied, isSupplied, each⟩ := before.served (same ▸ stable)
            refine ⟨supplied, kept.trans isSupplied, ?_⟩
            intro id member found
            obtain ⟨old, isOld, unchanged⟩ := members id member found
            rw [unchanged]
            exact each id old isOld
      | restarted restarted => exact ⟨fun completing => by simp [completing] at restarted,
          fun stable => by simp [stable] at restarted⟩
      | completed completing generation =>
          have cleared : state.suppliedAfter call groupId = none := by
            rw [ledger, if_pos (by omega)]
          exact ⟨fun _ => cleared, fun stable => by simp [stable] at completing⟩

theorem supplied_after_sync {state : Supplying} {target memberId : Bytes} {generation nowMs : Int}
    {assignments : OrderedMap Bytes Bytes} {groupId : Bytes} {group next : Group}
    (present : state.coordinator.groups.find? groupId = some group)
    (there : (state.coordinator.sync target memberId generation assignments nowMs).1.groups.find?
      groupId = some next)
    (same : next.generation = group.generation) :
    state.suppliedAfter (.sync target memberId generation assignments nowMs) groupId =
      if target = groupId ∧ memberId = group.leaderId ∧ state.supplied groupId = none ∧
          (state.coordinator.sync target memberId generation assignments nowMs).2.error = .none
      then some assignments else state.supplied groupId := by
  unfold Supplying.suppliedAfter
  simp only [present, GroupCoordinator.after, there, same, ne_eq, not_true_eq_false, if_false]

/-- A group a sync does not change has the ledger it had. -/
theorem matches_unchanged {state : Supplying} {target memberId : Bytes} {generation nowMs : Int}
    {assignments : OrderedMap Bytes Bytes} (holds : state.Holds) {groupId : Bytes} {group next : Group}
    (present : state.coordinator.groups.find? groupId = some group)
    (there : (state.coordinator.sync target memberId generation assignments nowMs).1.groups.find?
      groupId = some next)
    (shift : next.state = group.state ∧ next.generation = group.generation ∧
      ∀ id found, next.members.find? id = some found →
        ∃ member, group.members.find? id = some member ∧ found.assignment = member.assignment)
    (idle : target = groupId → memberId = group.leaderId → state.supplied groupId = none →
      (state.coordinator.sync target memberId generation assignments nowMs).2.error ≠ .none) :
    Supplying.GroupMatches ⟨state.coordinator.after (.sync target memberId generation assignments nowMs),
      state.suppliedAfter (.sync target memberId generation assignments nowMs)⟩ groupId next := by
  obtain ⟨sameState, sameGeneration, members⟩ := shift
  have before := holds.matched groupId group present
  have kept : state.suppliedAfter (.sync target memberId generation assignments nowMs) groupId =
      state.supplied groupId := by
    rw [supplied_after_sync present there sameGeneration, if_neg]
    rintro ⟨here, leads, unsupplied, accepted⟩
    exact idle here leads unsupplied accepted
  constructor
  · intro completing
    exact kept.trans (before.waiting (sameState ▸ completing))
  · intro stable
    obtain ⟨supplied, isSupplied, each⟩ := before.served (sameState ▸ stable)
    refine ⟨supplied, kept.trans isSupplied, ?_⟩
    intro id found isFound
    obtain ⟨member, isMember, unchanged⟩ := members id found isFound
    rw [unchanged]
    exact each id member isMember

theorem stable_of_known {group : Group} (holds : GroupHolds group) {id : Bytes} {member : Member}
    (known : group.members.find? id = some member) (notPreparing : group.state ≠ .preparingRebalance)
    (notCompleting : group.state ≠ .completingRebalance) : group.state = .stable := by
  cases at_ : group.state with
  | empty =>
      have nobody := holds.empty.mp at_
      rw [OrderedMap.is_empty_iff] at nobody
      rw [nobody id] at known
      cases known
  | preparingRebalance => exact absurd at_ notPreparing
  | completingRebalance => exact absurd at_ notCompleting
  | stable => rfl

theorem touch_members {group : Group} {memberId id : Bytes} {nowMs : Int} {found : Member}
    (isFound : (group.touch memberId nowMs).members.find? id = some found) :
    ∃ member, group.members.find? id = some member ∧ found.assignment = member.assignment := by
  rw [Group.touch, OrderedMap.find_map_values, Option.map_eq_some_iff] at isFound
  obtain ⟨member, isMember, rfl⟩ := isFound
  refine ⟨member, isMember, ?_⟩
  split <;> rfl

theorem matches_supplied {state : Supplying} {groupId : Bytes} {group : Group} {leader : Member}
    {assignments : OrderedMap Bytes Bytes} {nowMs : Int} (holds : state.Holds)
    (present : state.coordinator.groups.find? groupId = some group)
    (known : group.members.find? group.leaderId = some leader)
    (completing : group.state = .completingRebalance)
    (names : state.coordinator.namesAssigned
      (.sync groupId group.leaderId group.generation assignments nowMs) = true) :
    state.suppliedAfter (.sync groupId group.leaderId group.generation assignments nowMs) groupId =
        some assignments ∧
      ∀ id found, ((group.touch group.leaderId nowMs).assign assignments).members.find? id =
          some found → found.assignment = (assignments.find? id).getD [] := by
  have synced := sync_current state.coordinator present known assignments nowMs
  have notPreparing : group.state ≠ .preparingRebalance := by simp [completing]
  rw [if_neg notPreparing, if_pos completing, if_pos rfl] at synced
  constructor
  · have there : (state.coordinator.sync groupId group.leaderId group.generation assignments
        nowMs).1.groups.find? groupId = some ((group.touch group.leaderId nowMs).assign assignments) := by
      simp [synced, GroupCoordinator.store]
    have unsupplied := (holds.matched groupId group present).waiting completing
    rw [supplied_after_sync present there rfl, if_pos]
    exact ⟨rfl, rfl, unsupplied, by rw [synced]⟩
  · intro id found isFound
    simp only [Group.assign, OrderedMap.find_map_values, Option.map_eq_some_iff] at isFound
    obtain ⟨touched, isTouched, rfl⟩ := isFound
    obtain ⟨member, isMember, unchanged⟩ := touch_members isTouched
    have named := names_assigned_at names present completing isMember
    cases entry : assignments.find? id with
    | none =>
        rw [entry] at named
        exact unchanged.trans named
    | some bytes => rfl

theorem matches_sync {state : Supplying} {target memberId : Bytes} {generation nowMs : Int}
    {assignments : OrderedMap Bytes Bytes} (holds : state.Holds)
    (names : state.coordinator.namesAssigned
      (.sync target memberId generation assignments nowMs) = true) {groupId : Bytes} {next : Group}
    (there : (state.coordinator.after (.sync target memberId generation assignments
      nowMs)).groups.find? groupId = some next) :
    Supplying.GroupMatches ⟨state.coordinator.after (.sync target memberId generation assignments nowMs),
      state.suppliedAfter (.sync target memberId generation assignments nowMs)⟩ groupId next := by
  cases present : state.coordinator.groups.find? groupId with
  | none => exact matches_new present there
  | some group =>
      have same : ∀ id found, group.members.find? id = some found →
          ∃ member, group.members.find? id = some member ∧ found.assignment = member.assignment :=
        fun id found isFound => ⟨found, isFound, rfl⟩
      by_cases current : state.coordinator.Current target memberId generation
      · obtain ⟨owner, member, ownerPresent, known, rfl⟩ := current
        have synced := sync_current state.coordinator ownerPresent known assignments nowMs
        have stored : ∀ changed : Group, (state.coordinator.sync target memberId owner.generation
              assignments nowMs).1 = state.coordinator.store target changed →
            (groupId = target ∧ next = changed ∧ owner = group) ∨ (groupId ≠ target ∧ next = group) := by
          intro changed store
          rw [GroupCoordinator.after, store] at there
          rcases stored_find there with ⟨here, isNext⟩ | ⟨elsewhere, unchanged⟩
          · subst here
            exact .inl ⟨rfl, isNext, Option.some.inj (ownerPresent.symm.trans present)⟩
          · exact .inr ⟨elsewhere, Option.some.inj (unchanged.symm.trans present)⟩
        by_cases preparing : owner.state = .preparingRebalance
        · rw [if_pos preparing] at synced
          have isNext : next = group := by
            rw [GroupCoordinator.after, synced, present] at there
            exact (Option.some.inj there).symm
          subst isNext
          apply matches_unchanged holds present there ⟨rfl, rfl, same⟩
          intro _ _ _
          rw [synced]
          simp
        rw [if_neg preparing] at synced
        by_cases completing : owner.state = .completingRebalance
        · rw [if_pos completing] at synced
          by_cases leads : memberId = owner.leaderId
          · rw [if_pos leads] at synced
            subst leads
            rcases stored _ (by rw [synced]) with ⟨rfl, rfl, rfl⟩ | ⟨elsewhere, rfl⟩
            · obtain ⟨ledger, each⟩ := matches_supplied holds present known completing names
              exact ⟨by simp [Group.assign], fun _ => ⟨assignments, ledger, each⟩⟩
            · apply matches_unchanged holds present there ⟨rfl, rfl, same⟩
              exact fun here => absurd here.symm elsewhere
          · rw [if_neg leads] at synced
            have refused : target = groupId → memberId = group.leaderId →
                state.supplied groupId = none → (state.coordinator.sync target memberId
                  owner.generation assignments nowMs).2.error ≠ .none := by
              intro _ _ _
              rw [synced]
              simp
            rcases stored _ (by rw [synced]) with ⟨rfl, rfl, rfl⟩ | ⟨_, rfl⟩
            · exact matches_unchanged holds present there ⟨rfl, rfl, fun _ _ => touch_members⟩ refused
            · exact matches_unchanged holds present there ⟨rfl, rfl, same⟩ refused
        · rw [if_neg completing] at synced
          -- a group with a member that neither prepares nor completes is stable, so it is supplied
          have supplied : ∃ supplied, state.supplied target = some supplied := by
            have stable := stable_of_known (holds.groups target owner ownerPresent) known preparing
              completing
            obtain ⟨supplied, isSupplied, _⟩ := (holds.matched target owner ownerPresent).served stable
            exact ⟨supplied, isSupplied⟩
          have refused : target = groupId → memberId = group.leaderId →
              state.supplied groupId = none → (state.coordinator.sync target memberId
                owner.generation assignments nowMs).2.error ≠ .none := by
            intro here _ unsupplied
            subst here
            obtain ⟨found, isFound⟩ := supplied
            rw [unsupplied] at isFound
            cases isFound
          rcases stored _ (by rw [synced]) with ⟨rfl, rfl, rfl⟩ | ⟨_, rfl⟩
          · exact matches_unchanged holds present there ⟨rfl, rfl, fun _ _ => touch_members⟩ refused
          · exact matches_unchanged holds present there ⟨rfl, rfl, same⟩ refused
      · obtain ⟨failure, failed, refused⟩ := sync_refused current assignments nowMs
        have isNext : next = group := by
          rw [GroupCoordinator.after, refused, present] at there
          exact (Option.some.inj there).symm
        subst isNext
        apply matches_unchanged holds present there ⟨rfl, rfl, same⟩
        intro _ _ _
        rw [refused]
        exact failed

theorem supplying_step {state next : Supplying} {call : GroupCall} (holds : state.Holds)
    (names : state.coordinator.namesAssigned call = true)
    (taken : Supplying.step call state = some next) : next.Holds := by
  cases taken
  refine ⟨after_holds holds.groups call, ?_⟩
  intro groupId group there
  cases call with
  | sync => exact matches_sync holds names there
  | join | heartbeat | leave | expire => exact matches_other id holds there

/-- As long as every leader names, in the sync that supplies the assignments,
everybody who still has an earlier one, a sync hands out what was supplied. -/
theorem sync_hands_out_supplied {final : Supplying}
    (reached : GuardedRun.Reaches Supplying.step
      (fun state call => state.coordinator.namesAssigned call = true) Supplying.start final)
    {groupId memberId : Bytes} {generation nowMs : Int} {assignments : OrderedMap Bytes Bytes}
    (names : final.coordinator.namesAssigned
      (.sync groupId memberId generation assignments nowMs) = true)
    (accepted : (final.coordinator.sync groupId memberId generation assignments nowMs).2.error = .none) :
    ∃ supplied,
      final.suppliedAfter (.sync groupId memberId generation assignments nowMs) groupId = some supplied ∧
        (final.coordinator.sync groupId memberId generation assignments nowMs).2.assignment =
          (supplied.find? memberId).getD [] := by
  have holds := reached.invariant _ _ Supplying.Holds ⟨nofun, nofun⟩
    fun state call next before named taken => supplying_step before named taken
  by_cases current : final.coordinator.Current groupId memberId generation
  · obtain ⟨group, member, present, known, rfl⟩ := current
    have synced := sync_current final.coordinator present known assignments nowMs
    by_cases preparing : group.state = .preparingRebalance
    · rw [if_pos preparing] at synced
      rw [synced] at accepted
      cases accepted
    rw [if_neg preparing] at synced
    by_cases completing : group.state = .completingRebalance
    · rw [if_pos completing] at synced
      by_cases leads : memberId = group.leaderId
      · rw [if_pos leads] at synced
        subst leads
        obtain ⟨ledger, _⟩ := matches_supplied holds present known completing names
        refine ⟨assignments, ledger, ?_⟩
        rw [synced]
        exact names_assigned_at names present completing known
      · rw [if_neg leads] at synced
        rw [synced] at accepted
        cases accepted
    · rw [if_neg completing] at synced
      have there : (final.coordinator.after (.sync groupId memberId group.generation assignments
          nowMs)).groups.find? groupId = some (group.touch memberId nowMs) := by
        simp [GroupCoordinator.after, synced, GroupCoordinator.store]
      have stable := stable_of_known (holds.groups groupId group present) known preparing completing
      obtain ⟨supplied, isSupplied, each⟩ := (matches_sync holds names there).served stable
      refine ⟨supplied, isSupplied, ?_⟩
      have touched := each memberId { member with lastHeartbeatMs := nowMs }
        (by simp [Group.touch, known])
      rw [synced]
      exact touched
  · obtain ⟨failure, failed, refused⟩ := sync_refused current assignments nowMs
    rw [refused] at accepted
    exact absurd accepted failed

def namesBoth : List GroupCall :=
  [.join [103] [] [97] [[116]] [[114]] 10000 0, .join [103] [] [98] [[116]] [[114]] 10000 0,
    .join [103] [97, 45, 49] [97] [[116]] [[114]] 10000 0,
    .sync [103] [97, 45, 49] 2
      ((OrderedMap.empty.insert [97, 45, 49] [1]).insert [98, 45, 50] [2]) 0]

theorem sync_hands_out_supplied_both :
    ∃ (final : Supplying) (supplied : OrderedMap Bytes Bytes),
      final.suppliedAfter (.sync [103] [98, 45, 50] 2 OrderedMap.empty 0) [103] = some supplied ∧
        (final.coordinator.sync [103] [98, 45, 50] 2 OrderedMap.empty 0).2.assignment =
          (supplied.find? [98, 45, 50]).getD [] ∧
        (final.coordinator.sync [103] [98, 45, 50] 2 OrderedMap.empty 0).2.assignment = [2] := by
  obtain ⟨final, reached, checked⟩ := GuardedRun.found_by_run Supplying.step
    (fun state call => state.coordinator.namesAssigned call = true) Supplying.start
    (fun state => state.coordinator.namesAssigned (.sync [103] [98, 45, 50] 2 OrderedMap.empty 0) &&
      (state.coordinator.sync [103] [98, 45, 50] 2 OrderedMap.empty 0).2 == ⟨.none, [2]⟩)
    namesBoth (by decide +kernel)
  simp only [Bool.and_eq_true, beq_iff_eq] at checked
  obtain ⟨names, result⟩ := checked
  obtain ⟨supplied, ledger, same⟩ := sync_hands_out_supplied reached names (by rw [result])
  exact ⟨final, supplied, ledger, same, by rw [result]⟩

/-- A consumer alone gets an assignment. A second one comes, and the leader of
the new generation names only that one: its own sync returns the old one. -/
def forgetsItself : List GroupCall :=
  [.join [103] [] [97] [[116]] [[114]] 10000 0,
    .sync [103] [97, 45, 49] 1 (OrderedMap.empty.insert [97, 45, 49] [1]) 0,
    .join [103] [] [98] [[116]] [[114]] 10000 0, .join [103] [97, 45, 49] [97] [[116]] [[114]] 10000 0]

theorem sync_hands_out_earlier :
    ¬ ∀ final : Supplying,
      GuardedRun.Reaches Supplying.step (fun _ _ => True) Supplying.start final →
      ∀ groupId memberId generation assignments nowMs,
        (final.coordinator.sync groupId memberId generation assignments nowMs).2.error = .none →
        ∃ supplied, final.suppliedAfter (.sync groupId memberId generation assignments nowMs) groupId =
            some supplied ∧
          (final.coordinator.sync groupId memberId generation assignments nowMs).2.assignment =
            (supplied.find? memberId).getD [] := by
  intro all
  let supplied : OrderedMap Bytes Bytes := OrderedMap.empty.insert [98, 45, 50] [2]
  obtain ⟨final, reached, checked⟩ := GuardedRun.found_by_run Supplying.step (fun _ _ => True)
    Supplying.start
    (fun state => (state.coordinator.sync [103] [97, 45, 49] 2 supplied 0).2 == ⟨.none, [1]⟩ &&
      ((state.suppliedAfter (.sync [103] [97, 45, 49] 2 supplied 0) [103]).map (·.entries)) ==
        some [([98, 45, 50], [2])])
    forgetsItself (by decide +kernel)
  simp only [Bool.and_eq_true, beq_iff_eq, Option.map_eq_some_iff] at checked
  obtain ⟨result, ledger, isLedger, entries⟩ := checked
  obtain ⟨found, isFound, same⟩ := all final reached [103] [97, 45, 49] 2 supplied 0 (by rw [result])
  cases isLedger.symm.trans isFound
  rw [result, OrderedMap.find?, entries] at same
  exact absurd same (by decide)

end DariyaKyu.Groups

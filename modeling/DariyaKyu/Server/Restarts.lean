import DariyaKyu.Server.CommitFencing

/-!
Fencing across restarts. A restart takes the coordinator with it: the counter
behind the member ids and the generations of every group start again, while the
positions that they fence are in the logs. So a consumer that has survived a
restart is kept out by its member id alone, and only as long as no other join
of its group is given the same id.
-/

namespace DariyaKyu.Server

set_option autoImplicit false

open Storage Protocol Groups

/-- A broker over its lives: the coordinator of this life with the ids it has
given out, the pairs it has handed out, and both of all earlier lives. -/
structure Lives where
  issuing : Issuing
  handed : List Pass
  earlier : List (Bytes × Bytes)
  survived : List Pass

inductive LifeAction where
  | call (call : GroupCall)
  | restart

namespace Lives

def start : Lives := ⟨Issuing.start, [], [], []⟩

def coordinator (state : Lives) : GroupCoordinator := state.issuing.coordinator

def step : LifeAction → Lives → Option Lives
  | .call call, state =>
      (Issuing.step call state.issuing).map fun issuing =>
        { state with issuing := issuing, handed := state.handed ++ handsOut state.coordinator call }
  | .restart, state =>
      some ⟨Issuing.start, [], state.earlier ++ state.issuing.issued, state.survived ++ state.handed⟩

/-- A join that comes without an id is not given one that an earlier life has
given out for the same group. -/
def Unused (state : Lives) : LifeAction → Prop
  | .call (.join groupId memberId clientId _ _ _ _) =>
      memberId = [] → (state.coordinator.freshId clientId, groupId) ∉ state.earlier
  | _ => True

end Lives

/-- What survives a restart names an id of an earlier life, or nobody; and no life
gives out what another one has. -/
structure Lives.Holds (state : Lives) : Prop where
  groups : state.coordinator.Holds
  issuing : IssuingHolds state.issuing
  distinct : (state.earlier ++ state.issuing.issued).Nodup
  handed : ∀ pass ∈ state.handed, state.issuing.Knows pass
  survived : ∀ pass ∈ state.survived, pass.memberId = [] ∨ (pass.memberId, pass.groupId) ∈ state.earlier

section Runs

variable {state next : Lives}

theorem lives_call {call : GroupCall} (holds : state.Holds) (unused : state.Unused (.call call))
    (taken : Lives.step (.call call) state = some next) : next.Holds := by
  simp only [Lives.step] at taken
  obtain ⟨issuing, moved, rfl⟩ := Option.map_eq_some_iff.mp taken
  have after := issuing_step holds.issuing moved
  have isAfter : issuing = ⟨state.coordinator.after call, state.issuing.issued ++ state.coordinator.issues call⟩ :=
    (Option.some.inj moved).symm
  refine ⟨?_, after, ?_, ?_, holds.survived⟩
  · show issuing.coordinator.Holds
    rw [isAfter]
    exact after_holds holds.groups call
  · have disjoint : ∀ entry ∈ state.earlier, entry ∉ state.coordinator.issues call := by
      intro entry old new
      rcases issues_cases state.coordinator call with ⟨nothing, _⟩ |
        ⟨groupId, clientId, _, _, _, _, _, rfl, issues, _⟩
      · rw [nothing] at new
        cases new
      · rw [issues, List.mem_singleton] at new
        exact unused rfl (new ▸ old)
    have inLife : (state.issuing.issued ++ state.coordinator.issues call).Nodup := by
      have ids := after.distinct
      rw [isAfter] at ids
      exact ids.of_map _
    obtain ⟨before, _, apart⟩ := List.nodup_append.mp holds.distinct
    simp only [isAfter]
    refine List.nodup_append.mpr ⟨before, inLife, ?_⟩
    intro old isOld new isNew same
    subst same
    rcases List.mem_append.mp isNew with issued | given
    · exact apart old isOld old issued rfl
    · exact disjoint old isOld given
  · intro pass member
    rcases List.mem_append.mp member with old | new
    · exact (holds.handed pass old).step moved
    · exact (handed_out holds.groups holds.issuing moved new).1

theorem lives_restart (holds : state.Holds) (taken : Lives.step .restart state = some next) :
    next.Holds := by
  cases taken
  refine ⟨nofun, issuing_start_holds, ?_, nofun, ?_⟩
  · simpa [Issuing.start] using holds.distinct
  · intro pass member
    rcases List.mem_append.mp member with old | handed
    · exact (holds.survived pass old).imp_right (List.mem_append_left _)
    · exact (holds.handed pass handed).imp_right (List.mem_append_right _)

theorem lives_step {action : LifeAction} (holds : state.Holds) (unused : state.Unused action)
    (taken : Lives.step action state = some next) : next.Holds := by
  cases action with
  | call call => exact lives_call holds unused taken
  | restart => exact lives_restart holds taken

end Runs

/-- If no join is given an id that an earlier life has given out for its group,
then no id is given out twice for a group, and every pair that was handed out
before a restart is refused by every request that carries it. -/
theorem survivors_are_refused {final : Lives}
    (reached : GuardedRun.Reaches Lives.step Lives.Unused Lives.start final) :
    (final.earlier ++ final.issuing.issued).Nodup ∧
      ∀ pass ∈ final.survived, Refused final.coordinator pass.groupId pass.memberId pass.generation := by
  have holds := reached.invariant _ _ Lives.Holds
    ⟨nofun, issuing_start_holds, List.nodup_nil, nofun, nofun⟩
    fun state action next before unused taken => lives_step before unused taken
  refine ⟨holds.distinct, ?_⟩
  intro pass member
  apply refused_of_stale
  rintro ⟨group, owner, there, known, _⟩
  have issued := holds.issuing.owned pass.groupId group there pass.memberId owner known
  rcases holds.survived pass member with anonymous | given
  · exact numbered_occupied (holds.issuing.numbered _ issued) anonymous
  · exact (List.nodup_append.mp holds.distinct).2.2 _ given _ issued rfl

instance (state : Lives) (action : LifeAction) : Decidable (state.Unused action) :=
  match action with
  | .call (.join groupId memberId clientId _ _ _ _) => inferInstanceAs
      (Decidable (memberId = [] → (state.coordinator.freshId clientId, groupId) ∉ state.earlier))
  | .call (.sync ..) | .call (.heartbeat ..) | .call (.leave ..) | .call (.expire _) | .restart =>
      .isTrue trivial

/-- Another client is the first to join after the restart. -/
theorem survivors_are_refused_other : ∃ final : Lives,
    ⟨[103], [97, 45, 49], 1⟩ ∈ final.survived ∧ Refused final.coordinator [103] [97, 45, 49] 1 := by
  obtain ⟨final, reached, checked⟩ := GuardedRun.found_by_run Lives.step Lives.Unused Lives.start
    (fun state => state.survived.contains ⟨[103], [97, 45, 49], 1⟩)
    [.call (.join [103] [] [97] [[116]] [[114]] 10000 0), .restart,
      .call (.join [103] [] [98] [[116]] [[114]] 10000 0)] (by decide +kernel)
  have member := List.contains_iff_mem.mp checked
  exact ⟨final, member, (survivors_are_refused reached).2 _ member⟩

/-- A second consumer of the same client is the first to join after the restart:
the one that survived beats for it, and would commit for it. -/
theorem survivor_is_accepted :
    ¬ ∀ final : Lives, GuardedRun.Reaches Lives.step (fun _ _ => True) Lives.start final →
      (final.earlier ++ final.issuing.issued).Nodup ∧
        ∀ pass ∈ final.survived,
          Refused final.coordinator pass.groupId pass.memberId pass.generation := by
  intro all
  obtain ⟨final, reached, checked⟩ := GuardedRun.found_by_run Lives.step (fun _ _ => True) Lives.start
    (fun state => state.survived.contains ⟨[103], [97, 45, 49], 1⟩ &&
      (state.coordinator.heartbeat [103] [97, 45, 49] 1 0).2 == .none)
    [.call (.join [103] [] [97] [[116]] [[114]] 10000 0), .restart,
      .call (.join [103] [] [97] [[116]] [[114]] 10000 0)] (by decide +kernel)
  simp only [Bool.and_eq_true, List.contains_iff_mem, beq_iff_eq] at checked
  obtain ⟨survived, accepted⟩ := checked
  obtain ⟨failure, refused, answer⟩ := ((all final reached).2 _ survived).heartbeat 0
  rw [answer] at accepted
  exact refused accepted

end DariyaKyu.Server

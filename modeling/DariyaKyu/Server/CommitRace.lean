import DariyaKyu.Group.Membership
import DariyaKyu.Server.OffsetCommit
import DariyaKyu.Storage.LogRuns

/-!
`handleOffsetCommit` between other requests. The check and each of the appends
take their locks one after the other, so any call on the groups may come between
them. The check is made once, and what happens to the group afterwards does not
stop the request: a member that has left, or that the group has gone on without,
still appends.
-/

namespace DariyaKyu.Server

set_option autoImplicit false

open Storage Protocol Groups

/-- A request that has passed the check, and what it has still to commit. -/
structure Flight where
  request : OffsetCommitRequest
  work : List (Bytes × AskedPartition)
  overtaken : Bool := false

/-- A record that a request has appended, and the groups at that moment. -/
structure Written where
  request : OffsetCommitRequest
  key : CommitKey
  groups : GroupCoordinator
  overtaken : Bool

/-- A broker, the member ids it has given out, the requests that are under way
and the records they have appended. -/
structure Serving where
  broker : Broker
  issued : List (Bytes × Bytes) := []
  flights : List Flight := []
  written : List Written := []

inductive ServingAction where
  | call (call : GroupCall)
  | check (request : OffsetCommitRequest) (nowMs : Int)
  | commit (place : Nat) (io : CommitIo)

def OffsetCommitRequest.pass (request : OffsetCommitRequest) : Pass :=
  ⟨request.groupId, request.memberId, request.generation⟩

/-- The partitions of a request in the order in which they are committed. -/
def OffsetCommitRequest.work (request : OffsetCommitRequest) : List (Bytes × AskedPartition) :=
  request.topics.flatMap fun topic => topic.partitions.map (topic.name, ·)

namespace Serving

def issuing (state : Serving) : Issuing := ⟨state.broker.groups, state.issued⟩

/-- A call on the groups; every request under way learns what it did to its pair. -/
def withCall (state : Serving) (call : GroupCall) : Serving :=
  { state with
    broker := { state.broker with groups := state.broker.groups.after call }
    issued := state.issued ++ state.broker.groups.issues call
    flights := state.flights.map fun flight =>
      { flight with overtaken := flight.overtaken ||
          state.broker.groups.overtakes flight.request.pass call } }

def commitNext (state : Serving) (hash : Bytes → Nat) (place : Nat) (flight : Flight) (io : CommitIo) :
    Option Serving :=
  match flight.work with
  | [] => none
  | (name, asked) :: rest => do
      let (error, broker) ← state.broker.commitPartition hash flight.request.groupId name asked io
      let written : Written :=
        ⟨flight.request, ⟨flight.request.groupId, name, asked.partition⟩, state.broker.groups,
          flight.overtaken⟩
      return { state with
        broker := broker
        flights := state.flights.set place { flight with work := rest }
        written := state.written ++ if error = .none then [written] else [] }

def step (hash : Bytes → Nat) : ServingAction → Serving → Option Serving
  | .call call, state => some (state.withCall call)
  | .check request nowMs, state =>
      let (broker, membership) := state.broker.checkMembership request nowMs
      if membership = .none then
        some { state with broker := broker, flights := state.flights ++ [⟨request, request.work, false⟩] }
      else some { state with broker := broker }
  | .commit place io, state =>
      match state.flights[place]? with
      | none => none
      | some flight => state.commitNext hash place flight io

def start (logs : LogManager) (offsets : OffsetStore) : Serving := ⟨⟨logs, {}, offsets⟩, [], [], []⟩

/-- A commit of a request that claims a membership comes before any call takes
the member out of the group, or the group to its next generation. -/
def Timely (state : Serving) : ServingAction → Prop
  | .commit place _ => ∀ flight, state.flights[place]? = some flight →
      flight.request.claimsMembership = true → flight.overtaken = false
  | _ => True

end Serving

/-- Whoever claimed a membership for this record was a member, in the generation
of the group, when the record was appended. -/
def Written.FromMember (written : Written) : Prop :=
  written.request.claimsMembership = true →
    written.groups.Current written.request.groupId written.request.memberId written.request.generation

/-- What is known of a request that has passed the check of its membership. -/
structure Flight.Fits (flight : Flight) (issuing : Issuing) : Prop where
  knows : issuing.Knows flight.request.pass
  inTime : flight.overtaken = false →
    issuing.coordinator.Current flight.request.groupId flight.request.memberId flight.request.generation
  late : flight.overtaken = true → issuing.Passed flight.request.pass

structure Serving.Holds (state : Serving) : Prop where
  issuing : IssuingHolds state.issuing
  flights : ∀ flight ∈ state.flights, flight.request.claimsMembership = true →
    flight.Fits state.issuing
  written : ∀ written ∈ state.written, written.request.claimsMembership = true →
    (written.groups.Current written.request.groupId written.request.memberId
      written.request.generation ↔ written.overtaken = false)

section Steps

variable {state next : Serving}

theorem Flight.Fits.current_iff {flight : Flight} {issuing : Issuing} (holds : IssuingHolds issuing)
    (fits : flight.Fits issuing) :
    issuing.coordinator.Current flight.request.groupId flight.request.memberId
      flight.request.generation ↔ flight.overtaken = false := by
  cases overtaken : flight.overtaken with
  | false => exact ⟨fun _ => rfl, fun _ => fits.inTime overtaken⟩
  | true =>
      have stale := (fits.late overtaken).stale holds fits.knows flight.request.groupId
      exact ⟨fun current => (stale current).elim, by simp⟩

theorem Flight.Fits.step {flight : Flight} {issuing later : Issuing} {call : GroupCall}
    (holds : IssuingHolds issuing) (fits : flight.Fits issuing)
    (taken : Issuing.step call issuing = some later) :
    Flight.Fits { flight with overtaken := flight.overtaken ||
      issuing.coordinator.overtakes flight.request.pass call } later where
  knows := fits.knows.step taken
  inTime := by
    intro early
    simp only [Bool.or_eq_false_iff] at early
    cases taken
    have current : issuing.coordinator.Current flight.request.pass.groupId
        flight.request.pass.memberId flight.request.pass.generation := fits.inTime early.1
    exact current_stays current early.2
  late := by
    intro late
    cases overtaken : flight.overtaken with
    | true => exact (fits.late overtaken).step holds fits.knows taken
    | false =>
        simp only [overtaken, Bool.false_or] at late
        exact overtaken_is_passed holds fits.knows (fits.inTime overtaken) taken late

theorem with_call_holds (holds : state.Holds) (call : GroupCall) : (state.withCall call).Holds where
  issuing := issuing_step holds.issuing rfl
  flights := by
    intro flight member claims
    obtain ⟨old, isOld, rfl⟩ := List.mem_map.mp member
    exact (holds.flights old isOld claims).step holds.issuing rfl
  written := holds.written

theorem fits_after_heartbeat {flight : Flight} {issuing : Issuing} (holds : IssuingHolds issuing)
    (fits : flight.Fits issuing) (groupId memberId : Bytes) (generation nowMs : Int) :
    flight.Fits ⟨(issuing.coordinator.heartbeat groupId memberId generation nowMs).1, issuing.issued⟩ := by
  have taken : Issuing.step (.heartbeat groupId memberId generation nowMs) issuing = some _ := rfl
  have moved := fits.step holds taken
  have quiet : issuing.coordinator.overtakes flight.request.pass
      (.heartbeat groupId memberId generation nowMs) = false := rfl
  simpa only [quiet, Bool.or_false, GroupCoordinator.issues, List.append_nil,
    GroupCoordinator.after] using moved

theorem issuing_after_heartbeat {issuing : Issuing} (holds : IssuingHolds issuing)
    (groupId memberId : Bytes) (generation nowMs : Int) :
    IssuingHolds
      ⟨(issuing.coordinator.heartbeat groupId memberId generation nowMs).1, issuing.issued⟩ := by
  have taken : Issuing.step (.heartbeat groupId memberId generation nowMs) issuing = some _ := rfl
  have moved := issuing_step holds taken
  simpa only [GroupCoordinator.issues, List.append_nil, GroupCoordinator.after] using moved

theorem heartbeat_current {coordinator : GroupCoordinator} {groupId memberId : Bytes}
    {generation nowMs : Int}
    (accepted : (coordinator.heartbeat groupId memberId generation nowMs).2 = .none) :
    coordinator.Current groupId memberId generation := by
  by_contra stale
  obtain ⟨failure, refused, answered⟩ := heartbeat_refused stale nowMs
  rw [answered] at accepted
  exact refused accepted

theorem check_holds (holds : state.Holds) {hash : Bytes → Nat} {request : OffsetCommitRequest}
    {nowMs : Int} (taken : Serving.step hash (.check request nowMs) state = some next) : next.Holds := by
  simp only [Serving.step, Broker.checkMembership] at taken
  cases claims : request.claimsMembership with
  | false =>
      simp only [claims, Bool.false_eq_true, if_false, if_true, Option.some.injEq] at taken
      subst taken
      refine ⟨holds.issuing, ?_, holds.written⟩
      intro flight member claimed
      rcases List.mem_append.mp member with old | new
      · exact holds.flights flight old claimed
      · rw [List.mem_singleton.mp new, claims] at claimed
        cases claimed
  | true =>
      have issuing := issuing_after_heartbeat holds.issuing request.groupId request.memberId
        request.generation nowMs
      have old : ∀ flight ∈ state.flights, flight.request.claimsMembership = true →
          flight.Fits ⟨(state.broker.groups.heartbeat request.groupId request.memberId
            request.generation nowMs).1, state.issued⟩ :=
        fun flight member claimed =>
          fits_after_heartbeat holds.issuing (holds.flights flight member claimed) _ _ _ _
      simp only [claims, if_true] at taken
      split at taken
      · next accepted =>
        cases taken
        refine ⟨issuing, ?_, holds.written⟩
        intro flight member claimed
        rcases List.mem_append.mp member with known | new
        · exact old flight known claimed
        · rw [List.mem_singleton.mp new]
          have current := heartbeat_current accepted
          have inGroup : (state.issuing.Knows request.pass) := by
            obtain ⟨group, found, there, isMember, _⟩ := current
            exact .inr (holds.issuing.owned _ _ there _ _ isMember)
          have fits : Flight.Fits ⟨request, request.work, false⟩ state.issuing :=
            ⟨inGroup, fun _ => current, by simp⟩
          exact fits_after_heartbeat holds.issuing fits _ _ _ _
      · cases taken
        exact ⟨issuing, old, holds.written⟩

theorem commit_holds (holds : state.Holds) {hash : Bytes → Nat} {place : Nat} {io : CommitIo}
    (taken : Serving.step hash (.commit place io) state = some next) : next.Holds := by
  simp only [Serving.step] at taken
  cases asks : state.flights[place]? with
  | none => simp [asks] at taken
  | some flight =>
      have member := List.mem_of_getElem? asks
      simp only [asks, Serving.commitNext] at taken
      split at taken
      · cases taken
      next name asked rest _ =>
      obtain ⟨⟨error, broker⟩, committed, moved⟩ := Option.bind_eq_some_iff.mp taken
      cases moved
      have groups : broker.groups = state.broker.groups := commit_partition_groups committed
      refine ⟨?_, ?_, ?_⟩
      · have issuing := holds.issuing
        simp only [Serving.issuing, groups] at issuing ⊢
        exact issuing
      · intro other inside claims
        simp only [Serving.issuing, groups]
        rcases List.mem_or_eq_of_mem_set inside with old | rfl
        · exact holds.flights other old claims
        · exact ⟨(holds.flights flight member claims).knows, (holds.flights flight member claims).inTime,
            (holds.flights flight member claims).late⟩
      · intro written inside claims
        rcases List.mem_append.mp inside with old | new
        · exact holds.written written old claims
        · split at new
          · rw [List.mem_singleton.mp new] at claims ⊢
            exact (holds.flights flight member claims).current_iff holds.issuing
          · cases new

theorem serving_step (holds : state.Holds) {hash : Bytes → Nat} {action : ServingAction}
    (taken : Serving.step hash action state = some next) : next.Holds := by
  cases action with
  | call call =>
      cases taken
      exact with_call_holds holds call
  | check => exact check_holds holds taken
  | commit => exact commit_holds holds taken

end Steps

theorem serving_start_holds (logs : LogManager) (offsets : OffsetStore) :
    (Serving.start logs offsets).Holds :=
  ⟨issuing_start_holds, by simp [Serving.start], by simp [Serving.start]⟩

/-- Whatever comes in between, a record comes from a current member exactly when
its request had not been overtaken. -/
theorem written_current_iff {hash : Bytes → Nat} {logs : LogManager} {offsets : OffsetStore}
    {final : Serving} (reached : GuardedRun.Reaches (Serving.step hash) (fun _ _ => True)
      (Serving.start logs offsets) final) {written : Written} (member : written ∈ final.written)
    (claims : written.request.claimsMembership = true) :
    written.groups.Current written.request.groupId written.request.memberId written.request.generation ↔
      written.overtaken = false :=
  (reached.invariant _ _ Serving.Holds (serving_start_holds logs offsets)
    fun _ _ _ holds _ taken => serving_step holds taken).written written member claims

theorem timely_written {hash : Bytes → Nat} {state next : Serving} {action : ServingAction}
    (early : ∀ written ∈ state.written, written.request.claimsMembership = true → written.overtaken = false)
    (timely : state.Timely action) (taken : Serving.step hash action state = some next) :
    ∀ written ∈ next.written, written.request.claimsMembership = true → written.overtaken = false := by
  cases action with
  | call call =>
      cases taken
      exact early
  | check request nowMs =>
      simp only [Serving.step] at taken
      split at taken <;> cases taken <;> exact early
  | commit place io =>
      simp only [Serving.step] at taken
      cases asks : state.flights[place]? with
      | none => simp [asks] at taken
      | some flight =>
          simp only [asks, Serving.commitNext] at taken
          split at taken
          · cases taken
          obtain ⟨⟨error, broker⟩, _, moved⟩ := Option.bind_eq_some_iff.mp taken
          cases moved
          intro written inside claims
          rcases List.mem_append.mp inside with old | new
          · exact early written old claims
          · split at new
            · rw [List.mem_singleton.mp new] at claims ⊢
              exact timely flight asks claims
            · cases new

/-- In a run whose commits are all timely, every record of a request that claims
a membership comes from a current member. -/
theorem commits_come_from_members {hash : Bytes → Nat} {logs : LogManager} {offsets : OffsetStore}
    {final : Serving} (reached : GuardedRun.Reaches (Serving.step hash) Serving.Timely
      (Serving.start logs offsets) final) :
    ∀ written ∈ final.written, written.FromMember := by
  intro written member claims
  have early := reached.invariant _ _
    (fun state => ∀ written ∈ state.written,
      written.request.claimsMembership = true → written.overtaken = false)
    (by simp [Serving.start])
    (fun _ _ _ early timely taken => timely_written early timely taken)
  rw [written_current_iff (reached.mono _ _ (fun _ _ _ => trivial)) member claims]
  exact early written member claims

instance timelyDecidable (state : Serving) (action : ServingAction) : Decidable (state.Timely action) :=
  match action with
  | .call _ => .isTrue trivial
  | .check _ _ => .isTrue trivial
  | .commit place _ =>
      match asks : state.flights[place]? with
      | none => .isTrue (by simp [Serving.Timely, asks])
      | some flight =>
          decidable_of_iff (flight.request.claimsMembership = true → flight.overtaken = false)
            (by simp [Serving.Timely, asks])

/-- A commit of one position in partition 0 of topic `t` for group `g`. -/
def commitOf (memberId : Bytes) (generation nextOffset : Int) : OffsetCommitRequest where
  groupId := [103]
  generation := generation
  memberId := memberId
  topics := [⟨[116], [⟨0, nextOffset, []⟩]⟩]

def ordinaryIo : CommitIo := { rollMs := 0, clockMs := 0, nowMs := 0 }

/-- A broker that hosts the one partition of `__offsets` there is. -/
def servingOf (log : Log) : Serving :=
  .start ⟨"data", {}, [(⟨kOffsetsTopic, 0⟩, log)], []⟩ { partitions := 1 }

def commitsAlone : List ServingAction :=
  [.call (.join [103] [] [97] [[116]] [[114]] 10000 0), .check (commitOf [97, 45, 49] 1 5) 0,
    .commit 0 ordinaryIo]

theorem commits_come_from_members_alone :
    ∃ logs offsets final, ∃ written ∈ final.written, written.request.claimsMembership = true ∧
      GuardedRun.Reaches (Serving.step fun _ => 0) Serving.Timely (.start logs offsets) final ∧
      written.FromMember := by
  obtain ⟨log, final, _, reached, checked⟩ := found_from_creation (Serving.step fun _ => 0)
    Serving.Timely servingOf ⟨kOffsetsTopic, 0⟩ "data/__offsets-0" { cleanup := .compact }
    (fun state => state.written.any (·.request.claimsMembership)) commitsAlone (by decide +kernel)
  obtain ⟨written, member, claims⟩ := List.any_eq_true.mp checked
  exact ⟨_, _, final, written, member, claims, reached, commits_come_from_members reached written member⟩

/-- `a` has passed the check when it leaves; `b` takes over and commits 20, and
then `a` writes its 5 over it. -/
def commitsAfterLeaving : List ServingAction :=
  [.call (.join [103] [] [97] [[116]] [[114]] 10000 0), .check (commitOf [97, 45, 49] 1 5) 0,
    .call (.join [103] [] [98] [[116]] [[114]] 10000 0), .call (.leave [103] [97, 45, 49]),
    .call (.join [103] [98, 45, 50] [98] [[116]] [[114]] 10000 0),
    .check (commitOf [98, 45, 50] 2 20) 0, .commit 1 ordinaryIo, .commit 0 ordinaryIo]

theorem zombie_commits_over_owner :
    ¬ ∀ (hash : Bytes → Nat) (logs : LogManager) (offsets : OffsetStore) (final : Serving),
      GuardedRun.Reaches (Serving.step hash) (fun _ _ => True) (.start logs offsets) final →
      ∀ written ∈ final.written, written.FromMember := by
  intro all
  obtain ⟨log, final, _, reached, checked⟩ := found_from_creation (Serving.step fun _ => 0)
    (fun _ _ => True) servingOf ⟨kOffsetsTopic, 0⟩ "data/__offsets-0" { cleanup := .compact }
    (fun state => state.written.any fun written => written.request.claimsMembership && written.overtaken)
    commitsAfterLeaving (by decide +kernel)
  obtain ⟨written, member, late⟩ := List.any_eq_true.mp checked
  simp only [Bool.and_eq_true] at late
  have early := (written_current_iff reached member late.1).mp (all _ _ _ final reached written member late.1)
  rw [late.2] at early
  cases early

/-- The position of the new owner has gone back. -/
example : (((Log.create ⟨kOffsetsTopic, 0⟩ "data/__offsets-0" { cleanup := .compact }).toOption.map
    servingOf).bind (GuardedRun.runAll (Serving.step fun _ => 0) (fun _ _ => True)
      commitsAfterLeaving)).map (fun state =>
        ((state.broker.offsets.fetch ⟨[103], [116], 0⟩).map (·.nextOffset),
          (state.written.map (·.request.memberId)))) =
    some (some 5, [[98, 45, 50], [97, 45, 49]]) := by decide +kernel

end DariyaKyu.Server

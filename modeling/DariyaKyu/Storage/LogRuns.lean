import DariyaKyu.Library.GuardedRun
import DariyaKyu.Storage.LogSteps

/-!
Runs of one log: appends that may fail in the middle of the write, rolls,
retention, sweeps, cleaning passes and restarts. A call that throws leaves the
log it throws from; a roll that destroys the log and a startup that throws end
the run.
-/

namespace DariyaKyu.Storage

set_option autoImplicit false

inductive LogAction where
  | append (batchBytes : Bytes) (rollMs clockMs : Int) (fault : Option WriteFault)
  | maybeRoll (nowMs : Int)
  | applyRetention (nowMs : Int)
  | sweepGraveyard (nowMs : Int)
  | clean (maxKeyMapEntries : Nat) (firstDirtyOffset nowMs : Int)
  | reopen (fallback : LogConfig) (clockMs : Int)

def Outcome.log {α : Type} : Outcome α → Option Log
  | .returned _ log => some log
  | .threw _ log => some log
  | .ruined _ => none

def Log.step : LogAction → Log → Option Log
  | .append batchBytes rollMs clockMs fault, log => (log.append batchBytes rollMs clockMs fault).log
  | .maybeRoll nowMs, log => (log.maybeRoll nowMs).log
  | .applyRetention nowMs, log => some (log.applyRetention nowMs)
  | .sweepGraveyard nowMs, log => some (log.sweepGraveyard nowMs)
  | .clean maxKeyMapEntries firstDirtyOffset nowMs, log =>
      some (cleanLog log maxKeyMapEntries firstDirtyOffset nowMs).log
  | .reopen fallback clockMs, log =>
      match Log.open log.tp log.dir log.files fallback clockMs with
      | .error _ => none
      | .ok reopened => some reopened

/-- Appends of whole batches that do not fail, and no cleaning passes. -/
def LogAction.Plain : LogAction → Prop
  | .append batchBytes _ _ fault => IntactBatch batchBytes ∧ fault = none
  | .clean _ _ _ => False
  | _ => True

/-- Whether the action comes upon an active segment that is due to roll. -/
def Log.rollsOn (log : Log) : LogAction → Bool
  | .append _ rollMs _ _ => log.active.shouldRoll rollMs
  | .maybeRoll nowMs => log.active.shouldRoll nowMs
  | _ => false

/-- A roll at this time finds nothing that a failed append has left behind. -/
def Log.RollsClean (log : Log) (nowMs : Int) : Prop :=
  log.active.shouldRoll nowMs = true → log.active.undangling = true ∧ log.active.quietTail = true

/-- A startup finds nothing behind the last batch that continues the log. -/
def Log.EndsClean (log : Log) : Prop :=
  continuesLog log.active.log log.active.log.size log.active.nextOffset = false

instance (batchBytes : Bytes) : Decidable (IntactBatch batchBytes) :=
  decidable_of_iff (totalSizeOf batchBytes = .ok batchBytes.length ∧ verifyCrc batchBytes = .ok true ∧
      0 ≤ (headerOf batchBytes).lastOffsetDelta)
    ⟨fun ⟨sized, checked, spans⟩ => ⟨sized, checked, spans⟩,
      fun intact => ⟨intact.sized, intact.checked, intact.spans⟩⟩

instance (action : LogAction) : Decidable action.Plain :=
  match action with
  | .append batchBytes _ _ fault => inferInstanceAs (Decidable (IntactBatch batchBytes ∧ fault = none))
  | .clean _ _ _ => inferInstanceAs (Decidable False)
  | .maybeRoll _ | .applyRetention _ | .sweepGraveyard _ | .reopen _ _ =>
      inferInstanceAs (Decidable True)

instance (log : Log) (nowMs : Int) : Decidable (log.RollsClean nowMs) :=
  inferInstanceAs (Decidable (_ = true → _ ∧ _))

instance (log : Log) : Decidable log.EndsClean :=
  inferInstanceAs (Decidable (_ = false))

theorem LogSettled.rollsClean {log : Log} (settled : LogSettled log) (nowMs : Int) :
    log.RollsClean nowMs := by
  obtain ⟨undangling, quiet⟩ := settled_clear settled nowMs
  exact fun rolls => ⟨undangling rolls, quiet rolls⟩

theorem LogSettled.endsClean {log : Log} (settled : LogSettled log) : log.EndsClean :=
  settled_ends settled.settled _

/-- A log that deletes: every segment ends where the next one begins. -/
structure DeleteHolds (log : Log) : Prop extends LogHolds log where
  deletes : log.config.compacted = false
  joined : Linked (· = ·) log.active.baseOffset log.sealedMap

/-- What an action does to the sealed segments when no cleaning is involved. -/
inductive SealedMoves (log : Log) (action : LogAction) (next : Log) : Prop where
  | kept (same : next.sealedMap = log.sealedMap)
  | rolled (rolls : log.rollsOn action = true) (segment : SealedSegment) (active : ActiveSegment)
      (rolled : Rolled log segment active) (grown : next.sealedMap = log.sealedMap ++ [segment])
  | buried (count : Nat) (dropped : next.sealedMap = log.sealedMap.drop count)
  | reopened (same : List.Forall₂ SameSegment next.sealedMap log.sealedMap)

theorem sealed_moves_of_roll {log rolled : Log} (settled : LogSettled log) {nowMs : Int}
    (action : LogAction) (rolls : log.rollsOn action = log.active.shouldRoll nowMs)
    (moved : log.maybeRoll nowMs = .returned () rolled) : SealedMoves log action rolled := by
  obtain ⟨undangling, quiet⟩ := settled_clear settled nowMs
  rcases maybe_roll_cases settled.toLogHolds undangling quiet
    with ⟨_, stays⟩ | ⟨due, segment, active, made, moves⟩
  · rw [moved] at stays
    cases stays
    exact .kept rfl
  · rw [moved] at moves
    cases moves
    exact .rolled (rolls.trans due) segment active made rfl

/-- What every plain action keeps: the log in order, with nothing left over. -/
theorem settled_step {log next : Log} (settled : LogSettled log) {action : LogAction}
    (plain : action.Plain) (taken : Log.step action log = some next) :
    LogSettled next ∧ SealedMoves log action next ∧
      (next.config = log.config ∨ next.config = log.config.reloaded) := by
  cases action with
  | append batchBytes rollMs clockMs fault =>
      obtain ⟨intact, faultless⟩ := plain
      obtain ⟨undangling, quiet⟩ := settled_clear settled rollMs
      obtain ⟨rolled, moved, ends⟩ := append_spec settled.toLogHolds intact clockMs fault undangling
        quiet
      obtain ⟨_, again, rolledHolds, same, _, _, settles⟩ := maybe_roll_spec settled.toLogHolds undangling quiet
      rw [moved] at again
      cases again
      have rolledSettled := settles settled
      have moves := sealed_moves_of_roll settled (.append batchBytes rollMs clockMs fault) rfl moved
      have sealedMoves : ∀ other : Log, other.sealedMap = rolled.sealedMap →
          SealedMoves log (.append batchBytes rollMs clockMs fault) other := by
        intro other unmoved
        cases moves with
        | kept same => exact .kept (unmoved.trans same)
        | rolled due segment active made grown => exact .rolled due segment active made (unmoved.trans grown)
        | buried count dropped => exact .buried count (unmoved.trans dropped)
        | reopened same => exact .reopened (unmoved ▸ same)
      rcases ends with ⟨active, appended, _, _, holds, activeSettled, base, policy, _⟩ |
        ⟨failure, active, failed, _, unchanged, _⟩
      · simp only [Log.step, appended, Outcome.log, Option.some.injEq] at taken
        subst taken
        have still := activeSettled settled
        refine ⟨⟨with_active_holds _ rolledHolds holds base policy rfl, ?_⟩, sealedMoves _ rfl, .inl same.config⟩
        simp only [batches_in_active holds]
        exact still
      · simp only [Log.step, failed, Outcome.log, Option.some.injEq] at taken
        subst taken
        rw [unchanged faultless]
        exact ⟨rolledSettled, sealedMoves _ rfl, .inl same.config⟩
  | maybeRoll nowMs =>
      obtain ⟨undangling, quiet⟩ := settled_clear settled nowMs
      obtain ⟨rolled, moved, _, same, _, _, settles⟩ := maybe_roll_spec settled.toLogHolds undangling quiet
      simp only [Log.step, moved, Outcome.log, Option.some.injEq] at taken
      subst taken
      exact ⟨settles settled, sealed_moves_of_roll settled _ rfl moved, .inl same.config⟩
  | applyRetention nowMs =>
      obtain ⟨count, graveyard, buried⟩ := retention_buries log nowMs
      have holds := retention_holds settled.toLogHolds nowMs
      simp only [Log.step, Option.some.injEq] at taken
      subst taken
      refine ⟨⟨holds, ?_⟩, .buried count (by rw [buried]), .inl (by rw [buried])⟩
      rw [buried]
      exact settled.settled
  | sweepGraveyard nowMs =>
      simp only [Log.step, Option.some.injEq] at taken
      subst taken
      exact ⟨⟨sweep_holds settled.toLogHolds nowMs, settled.settled⟩, .kept rfl, .inl rfl⟩
  | clean maxKeyMapEntries firstDirtyOffset nowMs => exact plain.elim
  | reopen fallback clockMs =>
      obtain ⟨reopened, opened, reopenedSettled, _, _, _, _, _, config, _, same⟩ :=
        open_spec settled.toLogHolds settled.endsClean fallback clockMs
      simp only [Log.step, opened] at taken
      cases checked : checkContiguity log.dir log.config.reloaded log.active.baseOffset reopened.sealedMap with
      | error failure => simp [checked] at taken
      | ok done =>
          simp only [checked, except_ok_bind, Option.some.injEq] at taken
          exact taken ▸ ⟨reopenedSettled, .reopened same, .inr config⟩

theorem delete_roll {log : Log} (holds : DeleteHolds log) {nowMs : Int} (clean : log.RollsClean nowMs) :
    ∃ rolled, log.maybeRoll nowMs = .returned () rolled ∧ DeleteHolds rolled ∧
      SameIdentity log rolled ∧ rolled.batches = log.batches ∧
      rolled.logEndOffset = log.logEndOffset := by
  rcases maybe_roll_cases holds.toLogHolds (fun rolls => (clean rolls).1) (fun rolls => (clean rolls).2)
    with ⟨_, stays⟩ | ⟨rolls, segment, active, rolled, moves⟩
  · exact ⟨log, stays, holds, .refl log, rfl, rfl⟩
  · have settled := rolled_settled holds.toLogHolds rolled (should_roll_occupied rolls) (log.nextFd + 2)
    obtain ⟨sealedBatches, activeBatches⟩ := rolled_batches rolled
    refine ⟨_, moves, ⟨settled.toLogHolds, holds.deletes, ?_⟩, ⟨rfl, rfl, rfl, rfl⟩, ?_, rfl⟩
    · have below := settled.linked
      rw [linked_concat] at below ⊢
      exact ⟨rolled.base ▸ holds.joined, below.2.1, by rw [rolled.next, rolled.begins]⟩
    · simp [Log.batches, sealedBatches, activeBatches]

def twoBatchConfig : LogConfig where
  roll := { maxSegmentBytes := 100, indexIntervalBytes := 1 }
  retention := { retentionMs := 500 }

theorem storable_two_batch_config : twoBatchConfig.Storable :=
  ⟨by decide, by decide, by decide, by decide, by decide, by decide, by decide, by decide⟩

section FromCreation

variable {σ ι : Type} (step : ι → σ → Option σ) (allowed : σ → ι → Prop)
  [∀ state action, Decidable (allowed state action)] (initial : Log → σ)
  (tp : TopicPartition) (dir : String) (config : LogConfig)

/-- A run from a fresh log that ends where a check passes. -/
theorem found_from_creation (check : σ → Bool) (actions : List ι)
    (passes : (((Log.create tp dir config).toOption.map initial).bind
      (GuardedRun.runAll step allowed actions)).map check = some true) :
    ∃ created final, Log.create tp dir config = .ok created ∧
      GuardedRun.Reaches step allowed (initial created) final ∧ check final = true := by
  cases made : Log.create tp dir config with
  | error failure => simp [made, Except.toOption] at passes
  | ok created =>
      simp only [made, Except.toOption, Option.map_some, Option.bind_some] at passes
      obtain ⟨final, reached, checked⟩ := GuardedRun.found_by_run step allowed _ check actions passes
      exact ⟨created, final, rfl, reached, checked⟩

/-- A run from a fresh log that ends where a check fails. -/
theorem refuted_from_creation (holds : σ → Prop) (check : σ → Bool)
    (follows : ∀ state, holds state → check state = true) (actions : List ι)
    (fails : (((Log.create tp dir config).toOption.map initial).bind
      (GuardedRun.runAll step allowed actions)).map check = some false) :
    ¬ ∀ created final, Log.create tp dir config = .ok created →
      GuardedRun.Reaches step allowed (initial created) final → holds final := by
  intro all
  have failed : (((Log.create tp dir config).toOption.map initial).bind
      (GuardedRun.runAll step allowed actions)).map (fun state => !check state) = some true := by
    obtain ⟨final, ran, checked⟩ := Option.map_eq_some_iff.mp fails
    rw [ran, Option.map_some, checked]
    rfl
  obtain ⟨created, final, made, reached, violated⟩ :=
    found_from_creation step allowed initial tp dir config (fun state => !check state) actions failed
  have passed := follows final (all created final made reached)
  simp [passed] at violated

end FromCreation

end DariyaKyu.Storage

import DariyaKyu.Storage.LogManager
import DariyaKyu.Storage.LogView
import DariyaKyu.Storage.RetentionRule

/-!
What the maintenance sweep does to a compacted partition. It asks for no
policy: a segment that is old enough, or ahead of the byte limit, goes with
everything in it. So what the partition says of its keys stays exactly when the
newest record of every key lies in a segment that neither limit reaches, which
is a matter of timestamps and sizes.
-/

namespace DariyaKyu.Storage

set_option autoImplicit false

def Log.OwnActiveFile (log : Log) : Prop :=
  ∀ segment ∈ log.sealedMap, segment.baseOffset ≠ log.active.baseOffset

/-- The segments that retention chooses from: the active one is among them when
it is due to roll. -/
def Log.retirable (log : Log) (nowMs : Int) : List SealedSegment :=
  if log.active.shouldRoll nowMs then
    match log.active.sealSegment (log.nextFd + 1) with
    | .error _ => log.sealedMap
    | .ok segment => emplaceSegment segment log.sealedMap
  else log.sealedMap

/-- How many of the oldest of them the age pass and the byte pass take. -/
def Log.doomedCount (log : Log) (nowMs : Int) : Nat :=
  let segments := log.retirable nowMs
  let aged := (segments.takeWhile (Log.agedOut log.config.retention.retentionMs nowMs)).length
  match log.config.retention.retentionBytes with
  | none => aged
  | some limit =>
      let activeBytes := if log.active.shouldRoll nowMs then 0 else log.active.sizeBytes
      aged + Log.overLimit limit (activeBytes + ((segments.drop aged).map (·.sizeBytes)).sum)
        (segments.drop aged)

def Log.recordsSpared (log : Log) (nowMs : Int) : List LogRecord :=
  ((log.retirable nowMs).drop (log.doomedCount nowMs)).flatMap recordsIn ++
    (if log.active.shouldRoll nowMs then [] else recordsIn log.active.toSegmentBase)

def Log.AgeReaches (log : Log) (nowMs : Int) (place : Nat) : Prop :=
  ∀ segment ∈ (log.retirable nowMs).take (place + 1), log.DueByAge nowMs segment

/-- The byte limit reaches a segment when what lies from it on is more than that. -/
def Log.BytesReach (log : Log) (nowMs : Int) (place : Nat) : Prop :=
  ∃ limit ∈ log.config.retention.retentionBytes,
    limit < (if log.active.shouldRoll nowMs then 0 else log.active.sizeBytes) +
      (((log.retirable nowMs).drop place).map (·.sizeBytes)).sum

/-- Every record that is the newest of its key lies in a segment that neither
limit reaches, or in the active one before it is due to roll. -/
def Log.NewestOutOfReach (log : Log) (nowMs : Int) : Prop :=
  ∀ record ∈ log.records, ∀ key ∈ record.key, NewestFor log.records record key →
    (log.active.shouldRoll nowMs = false ∧ record ∈ recordsIn log.active.toSegmentBase) ∨
      ∃ held ∈ (log.retirable nowMs).zipIdx, record ∈ recordsIn held.1 ∧
        ¬ log.AgeReaches nowMs held.2 ∧ ¬ log.BytesReach nowMs held.2

instance (log : Log) : Decidable log.OwnActiveFile :=
  inferInstanceAs (Decidable (∀ segment ∈ _, _))

instance (log : Log) (nowMs : Int) (place : Nat) : Decidable (log.AgeReaches nowMs place) :=
  inferInstanceAs (Decidable (∀ segment ∈ _, _))

instance (log : Log) (nowMs : Int) (place : Nat) : Decidable (log.BytesReach nowMs place) :=
  inferInstanceAs (Decidable (∃ limit ∈ _, _))

instance (log : Log) (nowMs : Int) : Decidable (log.NewestOutOfReach nowMs) :=
  inferInstanceAs (Decidable (∀ record ∈ _, ∀ key ∈ _, _ → (_ ∧ _) ∨ ∃ held ∈ _, _ ∧ _ ∧ _))

def Log.RollsThrough (log : Log) (nowMs : Int) : Prop :=
  ∃ rolled, log.maybeRoll nowMs = .returned () rolled

def SameNewest (before after : Log) : Prop :=
  ∀ record key, NewestFor before.records record key ↔ NewestFor after.records record key

theorem mem_emplace {segment : SealedSegment} {segments : List SealedSegment}
    (own : ∀ other ∈ segments, other.baseOffset ≠ segment.baseOffset) (other : SealedSegment) :
    other ∈ emplaceSegment segment segments ↔ other = segment ∨ other ∈ segments := by
  induction segments with
  | nil => simp [emplaceSegment]
  | cons first rest ih =>
      have here := own first (by simp)
      have later := ih fun other member => own other (by simp [member])
      unfold emplaceSegment
      split
      · simp
      · rw [if_neg (Ne.symm here), List.mem_cons, later, List.mem_cons]
        tauto

theorem seal_records {active : ActiveSegment} {fd : Int} {segment : SealedSegment}
    (isSealed : active.sealSegment fd = .ok segment) :
    recordsIn segment = recordsIn active.toSegmentBase ∧ segment.baseOffset = active.baseOffset := by
  obtain ⟨_, _, derived⟩ := except_bind_ok isSealed
  obtain ⟨_, _, made⟩ := except_bind_ok derived
  cases Except.ok.inj made
  exact ⟨records_in_congr rfl, rfl⟩

theorem created_records {fd : Int} {dir : String} {base : Int} {policy : RollPolicy} {taken : Bool}
    {active : ActiveSegment} (created : ActiveSegment.create fd dir base policy taken = .ok active) :
    recordsIn active.toSegmentBase = [] ∧ active.sizeBytes = 0 := by
  unfold ActiveSegment.create at created
  split at created
  · cases created
  · obtain ⟨index, _, made⟩ := except_bind_ok created
    cases Except.ok.inj made
    exact ⟨rfl, rfl⟩

theorem roll_retirable {log rolled : Log} {nowMs : Int} (moved : log.maybeRoll nowMs = .returned () rolled) :
    rolled.sealedMap = log.retirable nowMs ∧ rolled.config = log.config ∧
      rolled.active.sizeBytes = (if log.active.shouldRoll nowMs then 0 else log.active.sizeBytes) ∧
      recordsIn rolled.active.toSegmentBase =
        (if log.active.shouldRoll nowMs then [] else recordsIn log.active.toSegmentBase) := by
  unfold Log.maybeRoll at moved
  unfold Log.retirable
  cases due : log.active.shouldRoll nowMs with
  | false =>
      simp only [due, if_true, Outcome.returned.injEq, true_and] at moved
      subst moved
      simp
  | true =>
      simp only [due, Bool.true_eq_false, if_false] at moved
      generalize log.active.sealSegment (log.nextFd + 1) = sealing at moved ⊢
      split at moved
      · cases moved
      · next next created =>
        obtain ⟨empty, size⟩ := created_records created
        cases sealing with
        | error failure => cases moved
        | ok segment =>
            cases moved
            simp [empty, size]

theorem retirable_records {log : Log} {nowMs : Int} (own : log.OwnActiveFile)
    (through : log.RollsThrough nowMs) (record : LogRecord) :
    record ∈ log.records ↔ record ∈ (log.retirable nowMs).flatMap recordsIn ++
      (if log.active.shouldRoll nowMs then [] else recordsIn log.active.toSegmentBase) := by
  obtain ⟨rolled, moved⟩ := through
  unfold Log.records Log.retirable
  cases due : log.active.shouldRoll nowMs with
  | false => simp
  | true =>
      simp only [Log.maybeRoll, due, Bool.true_eq_false, if_false] at moved
      generalize isSealed : log.active.sealSegment (log.nextFd + 1) = sealing at moved ⊢
      split at moved
      · cases moved
      · cases sealing with
        | error failure => cases moved
        | ok segment =>
            obtain ⟨same, base⟩ := seal_records isSealed
            have others : ∀ other ∈ log.sealedMap, other.baseOffset ≠ segment.baseOffset := by
              rw [base]
              exact own
            have members := mem_emplace others
            rw [if_pos rfl, if_pos rfl]
            simp only [List.append_nil, List.mem_append, List.mem_flatMap, members]
            constructor
            · rintro (⟨other, isOther, inside⟩ | inside)
              · exact ⟨other, .inr isOther, inside⟩
              · exact ⟨segment, .inl rfl, same ▸ inside⟩
            · rintro ⟨other, rfl | isOther, inside⟩
              · exact .inr (same ▸ inside)
              · exact .inl ⟨other, isOther, inside⟩

theorem retention_records {log rolled : Log} {nowMs : Int}
    (moved : log.maybeRoll nowMs = .returned () rolled) :
    ((rolled.applyRetention nowMs).sweepGraveyard nowMs).records = log.recordsSpared nowMs := by
  obtain ⟨segments, config, size, active⟩ := roll_retirable moved
  have taken : (rolled.applyRetention nowMs).sealedMap =
      (log.retirable nowMs).drop (log.doomedCount nowMs) := by
    unfold Log.applyRetention Log.doomedCount
    cases limit : log.config.retention.retentionBytes with
    | none => simp only [config, limit, Log.buryOldest, segments]
    | some limit =>
        simp only [config, limit, Log.buryOldest, Log.totalSizeBytes, segments, List.drop_drop, size]
  obtain ⟨_, _, buried⟩ := retention_buries rolled nowMs
  have sameActive : (rolled.applyRetention nowMs).active = rolled.active := by rw [buried]
  simp only [Log.records, Log.sweepGraveyard, taken, sameActive, active, Log.recordsSpared]

theorem taken_while_iff {α : Type} (test : α → Bool) (items : List α) (place : Nat) :
    place < (items.takeWhile test).length ↔
      place < items.length ∧ ∀ item ∈ items.take (place + 1), test item = true := by
  induction items generalizing place with
  | nil => simp
  | cons first rest ih =>
      cases passes : test first with
      | false => simp [passes]
      | true =>
          cases place with
          | zero => simp [passes]
          | succ place => simp [passes, ih place]

theorem over_limit_iff (limit rest : Nat) (segments : List SealedSegment) (place : Nat) :
    place < Log.overLimit limit (rest + (segments.map (·.sizeBytes)).sum) segments ↔
      place < segments.length ∧ limit < rest + ((segments.drop place).map (·.sizeBytes)).sum := by
  obtain ⟨inside, reached, before⟩ := over_limit_spec limit rest segments
  constructor
  · intro taken
    exact ⟨by omega, before place taken⟩
  · rintro ⟨within, above⟩
    by_contra kept
    rw [not_lt] at kept
    rcases reached with fits | all
    · have fewer : ((segments.drop place).map (·.sizeBytes)).sum ≤ ((segments.drop
          (Log.overLimit limit (rest + (segments.map (·.sizeBytes)).sum) segments)).map (·.sizeBytes)).sum := by
        rw [← Nat.add_sub_cancel' kept, ← List.drop_drop]
        exact ((List.drop_sublist _ _).map _).sum_le_sum (by simp)
      omega
    · omega

/-- The two passes take exactly the segments that a limit reaches. -/
theorem doomed_iff (log : Log) (nowMs : Int) (place : Nat) :
    place < log.doomedCount nowMs ∧ place < (log.retirable nowMs).length ↔
      place < (log.retirable nowMs).length ∧ (log.AgeReaches nowMs place ∨ log.BytesReach nowMs place) := by
  have aged : place < ((log.retirable nowMs).takeWhile
        (Log.agedOut log.config.retention.retentionMs nowMs)).length ↔
      place < (log.retirable nowMs).length ∧ log.AgeReaches nowMs place := by
    rw [taken_while_iff]
    simp only [Log.AgeReaches, aged_out_iff]
  unfold Log.doomedCount Log.BytesReach
  cases limited : log.config.retention.retentionBytes with
  | none =>
      simp only [Option.mem_def, reduceCtorEq, false_and, exists_false, or_false]
      tauto
  | some limit =>
      simp only [Option.mem_def, Option.some.injEq, exists_eq_left']
      by_cases taken : place < ((log.retirable nowMs).takeWhile
        (Log.agedOut log.config.retention.retentionMs nowMs)).length
      · have due := aged.mp taken
        simp only [due, true_or, and_true, iff_true]
        omega
      · have exceeds := over_limit_iff limit (if log.active.shouldRoll nowMs then 0 else log.active.sizeBytes)
          ((log.retirable nowMs).drop ((log.retirable nowMs).takeWhile
            (Log.agedOut log.config.retention.retentionMs nowMs)).length)
          (place - ((log.retirable nowMs).takeWhile
            (Log.agedOut log.config.retention.retentionMs nowMs)).length)
        rw [List.drop_drop, Nat.add_sub_cancel' (not_lt.mp taken), List.length_drop] at exceeds
        have notDue : place < (log.retirable nowMs).length → ¬ log.AgeReaches nowMs place :=
          fun inside due => taken (aged.mpr ⟨inside, due⟩)
        constructor
        · rintro ⟨doomed, inside⟩
          exact ⟨inside, .inr (exceeds.mp (by omega)).2⟩
        · rintro ⟨inside, due | above⟩
          · exact absurd due (notDue inside)
          · have within := exceeds.mpr ⟨by omega, above⟩
            exact ⟨by omega, inside⟩

theorem spared_iff (log : Log) (nowMs : Int) (record : LogRecord) :
    record ∈ log.recordsSpared nowMs ↔
      (log.active.shouldRoll nowMs = false ∧ record ∈ recordsIn log.active.toSegmentBase) ∨
        ∃ held ∈ (log.retirable nowMs).zipIdx, record ∈ recordsIn held.1 ∧
          ¬ log.AgeReaches nowMs held.2 ∧ ¬ log.BytesReach nowMs held.2 := by
  have inSegments : record ∈ ((log.retirable nowMs).drop (log.doomedCount nowMs)).flatMap recordsIn ↔
      ∃ held ∈ (log.retirable nowMs).zipIdx, record ∈ recordsIn held.1 ∧
        ¬ log.AgeReaches nowMs held.2 ∧ ¬ log.BytesReach nowMs held.2 := by
    rw [List.mem_flatMap]
    constructor
    · rintro ⟨segment, member, inside⟩
      obtain ⟨behind, isBehind⟩ := List.getElem?_of_mem member
      rw [List.getElem?_drop] at isBehind
      refine ⟨(segment, log.doomedCount nowMs + behind), List.mem_zipIdx_iff_getElem?.mpr isBehind, inside, ?_⟩
      have place := (List.getElem?_eq_some_iff.mp isBehind).1
      have out := (doomed_iff log nowMs (log.doomedCount nowMs + behind)).mpr.mt (by omega)
      tauto
    · rintro ⟨⟨segment, place⟩, member, inside, notDue, notOver⟩
      have isHeld := List.mem_zipIdx_iff_getElem?.mp member
      have within := (List.getElem?_eq_some_iff.mp isHeld).1
      have kept : log.doomedCount nowMs ≤ place := by
        by_contra doomed
        rcases ((doomed_iff log nowMs place).mp ⟨not_le.mp doomed, within⟩).2 with due | exceeds
        · exact notDue due
        · exact notOver exceeds
      refine ⟨segment, List.mem_of_getElem? (i := place - log.doomedCount nowMs) ?_, inside⟩
      rw [List.getElem?_drop, Nat.add_sub_cancel' kept]
      exact isHeld
  rw [Log.recordsSpared, List.mem_append, inSegments, or_comm]
  cases log.active.shouldRoll nowMs <;> simp

/-- Where the roll goes through, what the log says of its keys stays the same
exactly when neither limit reaches the newest record of a key. -/
theorem maintain_same_newest {log rolled : Log} {nowMs : Int} (own : log.OwnActiveFile)
    (moved : log.maybeRoll nowMs = .returned () rolled) :
    SameNewest log ((rolled.applyRetention nowMs).sweepGraveyard nowMs) ↔ log.NewestOutOfReach nowMs := by
  have spared : ∀ record ∈ log.recordsSpared nowMs, record ∈ log.records := by
    intro record inside
    rw [retirable_records own ⟨rolled, moved⟩]
    rcases List.mem_append.mp inside with inSegment | inActive
    · obtain ⟨segment, member, here⟩ := List.mem_flatMap.mp inSegment
      exact List.mem_append_left _ (List.mem_flatMap.mpr ⟨segment, List.mem_of_mem_drop member, here⟩)
    · exact List.mem_append_right _ inActive
  rw [SameNewest, retention_records moved]
  refine (KeyedHistory.newest_unchanged_iff _ _ spared).trans ?_
  constructor
  · intro keeps record _ key _ newest
    exact (spared_iff log nowMs record).mp (keeps record key newest)
  · intro outOfReach record key newest
    exact (spared_iff log nowMs record).mpr (outOfReach record newest.member key newest.keyed newest)

theorem maintain_cases (log : Log) (nowMs : Int) :
    (∃ rolled, log.maybeRoll nowMs = .returned () rolled ∧ log.maintain nowMs =
        .returned () ((rolled.applyRetention nowMs).sweepGraveyard nowMs)) ∨
      (¬ log.RollsThrough nowMs ∧ ∃ failure, log.maintain nowMs = .threw failure log ∨
        log.maintain nowMs = .ruined failure) := by
  unfold Log.RollsThrough Log.maintain
  cases moved : log.maybeRoll nowMs with
  | returned value rolled => exact .inl ⟨rolled, rfl, rfl⟩
  | ruined failure => exact .inr ⟨by simp, failure, .inr rfl⟩
  | threw failure left =>
      have same : left = log := by
        unfold Log.maybeRoll at moved
        split at moved
        · cases moved
        · simp only at moved
          split at moved
          · cases moved
            rfl
          · split at moved <;> cases moved
      exact .inr ⟨by simp, failure, .inl (by rw [same])⟩

/-- What the loop over the partitions has done to the one at a place, if there
still is a manager: it took its turn there, or it never came that far. -/
theorem maintain_logs_at {nowMs : Int} {tp : TopicPartition} {log : Log}
    {ahead behind logs : List (TopicPartition × Log)} {failure : Option Error}
    (swept : LogManager.maintainLogs nowMs (ahead ++ (tp, log) :: behind) = .ok (failure, logs)) :
    ∃ next, logs[ahead.length]? = some (tp, next) ∧
      ((∃ rolled, log.maybeRoll nowMs = .returned () rolled ∧
          next = (rolled.applyRetention nowMs).sweepGraveyard nowMs ∧
          ∀ hosted ∈ ahead, hosted.2.RollsThrough nowMs) ∨
        (next = log ∧ ¬ ((∀ hosted ∈ ahead, hosted.2.RollsThrough nowMs) ∧ log.RollsThrough nowMs))) := by
  induction ahead generalizing logs failure with
  | nil =>
      simp only [List.nil_append, LogManager.maintainLogs] at swept
      rcases maintain_cases log nowMs with ⟨rolled, moved, kept⟩ | ⟨stuck, why, threw | ruined⟩
      · rw [kept] at swept
        obtain ⟨⟨later, rest⟩, _, made⟩ := except_bind_ok swept
        cases Except.ok.inj made
        exact ⟨_, rfl, .inl ⟨rolled, moved, rfl, by simp⟩⟩
      · rw [threw] at swept
        cases Except.ok.inj swept
        exact ⟨log, rfl, .inr ⟨rfl, fun both => stuck both.2⟩⟩
      · rw [ruined] at swept
        cases swept
  | cons first ahead ih =>
      obtain ⟨firstTp, firstLog⟩ := first
      simp only [List.cons_append, LogManager.maintainLogs] at swept
      rcases maintain_cases firstLog nowMs with ⟨rolled, moved, kept⟩ | ⟨stuck, why, threw | ruined⟩
      · rw [kept] at swept
        obtain ⟨⟨later, rest⟩, sweptRest, made⟩ := except_bind_ok swept
        cases Except.ok.inj made
        obtain ⟨next, place, turn⟩ := ih sweptRest
        refine ⟨next, by simpa using place, ?_⟩
        have through : firstLog.RollsThrough nowMs := ⟨rolled, moved⟩
        simpa [List.forall_mem_cons, through] using turn
      · rw [threw] at swept
        cases Except.ok.inj swept
        exact ⟨log, by simp, .inr ⟨rfl, fun both => stuck (both.1 (firstTp, firstLog) (by simp))⟩⟩
      · rw [ruined] at swept
        cases swept

/-- A maintenance pass leaves what a partition says of its keys as it was
exactly when, if it gets to the partition, the newest record of every key lies
out of reach of its limits. -/
theorem maintenance_keeps_newest {manager after : LogManager} {nowMs : Int} {tp : TopicPartition}
    {log : Log} {ahead behind : List (TopicPartition × Log)}
    (hosted : manager.logs = ahead ++ (tp, log) :: behind) (own : log.OwnActiveFile)
    (left : (manager.runMaintenance nowMs).manager = some after) :
    ∃ next, after.logs[ahead.length]? = some (tp, next) ∧
      (SameNewest log next ↔
        ((∀ hosted ∈ ahead, hosted.2.RollsThrough nowMs) ∧ log.RollsThrough nowMs →
          log.NewestOutOfReach nowMs)) := by
  obtain ⟨failure, logs, swept, same⟩ : ∃ failure logs,
      LogManager.maintainLogs nowMs manager.logs = .ok (failure, logs) ∧ after.logs = logs := by
    unfold LogManager.runMaintenance at left
    split at left
    · cases left
    · next failure logs swept =>
      cases left
      exact ⟨_, _, swept, rfl⟩
    · next logs swept =>
      cases left
      exact ⟨_, _, swept, rfl⟩
  rw [hosted] at swept
  obtain ⟨next, place, turn⟩ := maintain_logs_at swept
  refine ⟨next, same ▸ place, ?_⟩
  rcases turn with ⟨rolled, moved, isNext, earlier⟩ | ⟨unchanged, notReached⟩
  · rw [isNext, maintain_same_newest own moved]
    exact ⟨fun takes _ => takes, fun takes => takes ⟨earlier, rolled, moved⟩⟩
  · subst unchanged
    exact ⟨fun _ reached => absurd reached notReached, fun _ _ _ => Iff.rfl⟩

def onlyPartition (log : Log) : LogManager where
  dataDir := "data"
  defaults := {}
  logs := [(log.tp, log)]

/-- The segment of an old value goes, and the new value of the key stays. -/
theorem maintenance_keeps_newest_replaced :
    ∃ (log next : Log) (after : LogManager), log.config.compacted = true ∧
      ((onlyPartition log).runMaintenance 1000).manager = some after ∧
      after.logs[0]? = some (log.tp, next) ∧ log.sealedMap.length = 1 ∧ next.sealedMap.length = 0 ∧
      SameNewest log next := by
  obtain ⟨created, log, made, reached, checked⟩ := found_from_creation Log.step (fun _ _ => True) id
    ⟨[116], 0⟩ "data/t-0" { twoBatchConfig with cleanup := .compact }
    (fun log => decide (log.config.compacted = true ∧ log.OwnActiveFile ∧ log.NewestOutOfReach 1000) &&
      (log.sealedMap.length == 1) && match (onlyPartition log).runMaintenance 1000 with
        | .completed after => after.logs.all (·.2.sealedMap.length == 0)
        | _ => false)
    [.append (recordBatchOf 10 (some [107]) (some [118])) 0 0 none,
      .append (recordBatchOf 20 (some [107]) (some [119])) 0 0 none, .maybeRoll 0,
      .append (recordBatchOf 900 (some [107]) (some [120])) 0 0 none]
    (by decide +kernel)
  simp only [Bool.and_eq_true, decide_eq_true_eq, beq_iff_eq] at checked
  obtain ⟨⟨⟨compacts, own, takes⟩, one⟩, swept⟩ := checked
  split at swept
  · next after completed =>
    have left : ((onlyPartition log).runMaintenance 1000).manager = some after := by
      rw [completed]
      rfl
    have hosted : (onlyPartition log).logs = [] ++ (log.tp, log) :: [] := rfl
    obtain ⟨next, place, same⟩ := maintenance_keeps_newest hosted own left
    refine ⟨log, next, after, compacts, left, place, one, ?_, same.mpr fun _ => takes⟩
    simp only [List.all_eq_true, beq_iff_eq] at swept
    exact swept _ (List.mem_of_getElem? place)
  · cases swept

/-- A topic created with nothing but the compaction flag loses its only value
once that is a week old. -/
theorem maintenance_drops_newest :
    ¬ ∀ (manager after : LogManager) (nowMs : Int) (tp : TopicPartition) (log : Log)
      (ahead behind : List (TopicPartition × Log)), manager.logs = ahead ++ (tp, log) :: behind →
      log.OwnActiveFile → log.config.compacted = true →
      (manager.runMaintenance nowMs).manager = some after →
      ∃ next, after.logs[ahead.length]? = some (tp, next) ∧ SameNewest log next := by
  intro all
  obtain ⟨created, log, made, reached, checked⟩ := found_from_creation Log.step (fun _ _ => True) id
    ⟨[116], 0⟩ "data/t-0" { cleanup := .compact }
    (fun log => decide (log.config.compacted = true ∧ log.OwnActiveFile) &&
      (log.records.map (·.key) == [some [107]]) &&
      match (onlyPartition log).runMaintenance 691200000 with
        | .completed after => after.logs.all (·.2.records.isEmpty)
        | _ => false)
    [.append (recordBatchOf 10 (some [107]) (some [118])) 0 0 none]
    (by decide +kernel)
  simp only [Bool.and_eq_true, decide_eq_true_eq, beq_iff_eq, List.map_eq_singleton_iff] at checked
  obtain ⟨⟨⟨compacts, own⟩, record, only, keyed⟩, swept⟩ := checked
  split at swept
  · next after completed =>
    have left : ((onlyPartition log).runMaintenance 691200000).manager = some after := by
      rw [completed]
      rfl
    obtain ⟨next, place, same⟩ := all (onlyPartition log) after 691200000 log.tp log [] [] rfl own
      compacts left
    have newest : NewestFor log.records record [107] := by
      refine ⟨by simp [only], keyed, ?_⟩
      intro other member _
      rw [only, List.mem_singleton] at member
      rw [member]
    have still := ((same record [107]).mp newest).member
    simp only [List.all_eq_true, List.isEmpty_iff] at swept
    rw [swept _ (List.mem_of_getElem? place)] at still
    cases still
  · cases swept

end DariyaKyu.Storage

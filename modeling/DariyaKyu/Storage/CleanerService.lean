import DariyaKyu.Storage.LogCleaner
import DariyaKyu.Storage.LogManager
import Mathlib.Order.Lattice

/-!
The class `LogCleaner` of `storage/log_cleaner.cpp`: it cleans one partition at a
time, the dirtiest first, and remembers how far each one has been cleaned. The
ratios are doubles in the source; here they are whatever linear order a quotient
of two byte counts is taken in. The thread and its counters are left out.
-/

namespace DariyaKyu.Storage

set_option autoImplicit false

structure Ratios (ρ : Type) where
  zero : ρ
  quotient : Nat → Nat → ρ

structure CleanerConfig (ρ : Type) where
  maxKeyMapEntries : Nat
  minCleanableDirtyRatio : ρ

structure LogCleaner (ρ : Type) where
  config : CleanerConfig ρ
  firstDirty : TopicPartition → Option Int := fun _ => none
  recordsDropped : Nat := 0

structure CleanerCall (ρ : Type) where
  logs : LogManager
  cleaner : LogCleaner ρ
  outcome : Except Error (Option CleanResult)

section Ratio

variable {ρ : Type} (ratios : Ratios ρ)

def dirtyRatio (log : Log) (firstDirtyOffset : Int) : ρ :=
  let total := (log.sealedSegments.map (·.sizeBytes)).sum
  let dirty := ((log.sealedSegments.filter fun info =>
    decide (firstDirtyOffset ≤ info.baseOffset)).map (·.sizeBytes)).sum
  if total = 0 then ratios.zero else ratios.quotient dirty total

end Ratio

namespace LogCleaner

variable {ρ : Type} [LinearOrder ρ] (ratios : Ratios ρ)

def firstDirtyOffset (cleaner : LogCleaner ρ) (tp : TopicPartition) : Int :=
  (cleaner.firstDirty tp).getD 0

/-- One turn of the loop of `pickDirtiest`: the choice so far and its ratio. -/
def dirtier (cleaner : LogCleaner ρ) (logs : LogManager) (choice : Option TopicPartition × ρ)
    (tp : TopicPartition) : Option TopicPartition × ρ :=
  match logs.get tp with
  | none => choice
  | some log =>
      if log.config.compacted = false then choice
      else
        let ratio := dirtyRatio ratios log (cleaner.firstDirtyOffset tp)
        if choice.2 < ratio then (some tp, ratio) else choice

def pickDirtiest (cleaner : LogCleaner ρ) (logs : LogManager) : Option TopicPartition :=
  ((logs.logs.map (·.1)).foldl (cleaner.dirtier ratios logs)
    (none, cleaner.config.minCleanableDirtyRatio)).1

def cleanOnce (cleaner : LogCleaner ρ) (logs : LogManager) (tp : TopicPartition) (nowMs : Int) :
    CleanerCall ρ :=
  match logs.get tp with
  | none => ⟨logs, cleaner, .ok none⟩
  | some log =>
      if log.config.compacted = false then ⟨logs, cleaner, .ok none⟩
      else if dirtyRatio ratios log (cleaner.firstDirtyOffset tp) ≤ cleaner.config.minCleanableDirtyRatio then
        ⟨logs, cleaner, .ok none⟩
      else
        let run := cleanLog log cleaner.config.maxKeyMapEntries (cleaner.firstDirtyOffset tp) nowMs
        match run.outcome with
        | .error failure => ⟨logs.put tp run.log, cleaner, .error failure⟩
        | .ok result =>
            ⟨logs.put tp run.log,
              { cleaner with
                firstDirty := fun other =>
                  if other = tp then some result.nextDirtyOffset else cleaner.firstDirty other
                recordsDropped := cleaner.recordsDropped + result.recordsDropped },
              .ok (some result)⟩

def runOnce (cleaner : LogCleaner ρ) (logs : LogManager) (nowMs : Int) : CleanerCall ρ :=
  match cleaner.pickDirtiest ratios logs with
  | none => ⟨logs, cleaner, .ok none⟩
  | some tp => cleaner.cleanOnce ratios logs tp nowMs

theorem pick_dirtiest_chosen (cleaner : LogCleaner ρ) (logs : LogManager) {tp : TopicPartition}
    (picked : cleaner.pickDirtiest ratios logs = some tp) :
    ∃ log, logs.get tp = some log ∧ log.config.compacted = true ∧
      cleaner.config.minCleanableDirtyRatio < dirtyRatio ratios log (cleaner.firstDirtyOffset tp) := by
  let Fair (choice : Option TopicPartition × ρ) : Prop :=
    cleaner.config.minCleanableDirtyRatio ≤ choice.2 ∧ ∀ tp, choice.1 = some tp →
      ∃ log, logs.get tp = some log ∧ log.config.compacted = true ∧
        cleaner.config.minCleanableDirtyRatio < dirtyRatio ratios log (cleaner.firstDirtyOffset tp)
  have turns : ∀ (tps : List TopicPartition) (choice : Option TopicPartition × ρ), Fair choice →
      Fair (tps.foldl (cleaner.dirtier ratios logs) choice) := by
    intro tps
    induction tps with
    | nil => exact fun choice fair => fair
    | cons tp tps ih =>
        intro choice fair
        rw [List.foldl_cons]
        apply ih
        unfold dirtier
        cases hosted : logs.get tp with
        | none => exact fair
        | some log =>
            simp only
            cases compacts : log.config.compacted with
            | false => exact fair
            | true =>
                simp only [Bool.true_eq_false, if_false]
                split
                · next higher =>
                  refine ⟨fair.1.trans higher.le, ?_⟩
                  intro other same
                  cases same
                  exact ⟨log, hosted, compacts, lt_of_le_of_lt fair.1 higher⟩
                · exact fair
  have start : Fair (none, cleaner.config.minCleanableDirtyRatio) := ⟨le_refl _, by simp⟩
  exact (turns _ _ start).2 tp picked

/-- What a call does with a compacted partition that is dirty enough: a pass,
which moves its mark unless it throws. -/
structure Passes (cleaner : LogCleaner ρ) (logs : LogManager) (tp : TopicPartition) (run : CleanRun)
    (call : CleanerCall ρ) : Prop where
  logs : call.logs = logs.put tp run.log
  ends : (∃ failure, run.outcome = .error failure ∧ call.outcome = .error failure ∧
      call.cleaner = cleaner) ∨
    ∃ result, run.outcome = .ok result ∧ call.outcome = .ok (some result) ∧
      call.cleaner.config = cleaner.config ∧
      ∀ other, call.cleaner.firstDirtyOffset other =
        if other = tp then result.nextDirtyOffset else cleaner.firstDirtyOffset other

theorem clean_once_passes (cleaner : LogCleaner ρ) {logs : LogManager} {tp : TopicPartition} {log : Log}
    (nowMs : Int) (hosted : logs.get tp = some log) (compacts : log.config.compacted = true)
    (dirty : cleaner.config.minCleanableDirtyRatio < dirtyRatio ratios log (cleaner.firstDirtyOffset tp)) :
    cleaner.Passes logs tp
      (cleanLog log cleaner.config.maxKeyMapEntries (cleaner.firstDirtyOffset tp) nowMs)
      (cleaner.cleanOnce ratios logs tp nowMs) := by
  unfold cleanOnce
  simp only [hosted, compacts, Bool.true_eq_false, if_false, not_le.mpr dirty]
  cases ended : (cleanLog log cleaner.config.maxKeyMapEntries (cleaner.firstDirtyOffset tp) nowMs).outcome with
  | error failure => exact ⟨rfl, .inl ⟨failure, ended, rfl, rfl⟩⟩
  | ok result =>
      refine ⟨rfl, .inr ⟨result, ended, rfl, rfl, ?_⟩⟩
      intro other
      simp only [firstDirtyOffset]
      split <;> rfl

theorem clean_once_cases (cleaner : LogCleaner ρ) (logs : LogManager) (tp : TopicPartition) (nowMs : Int) :
    cleaner.cleanOnce ratios logs tp nowMs = ⟨logs, cleaner, .ok none⟩ ∨
      ∃ log, logs.get tp = some log ∧ log.config.compacted = true ∧
        cleaner.config.minCleanableDirtyRatio < dirtyRatio ratios log (cleaner.firstDirtyOffset tp) ∧
        cleaner.Passes logs tp
          (cleanLog log cleaner.config.maxKeyMapEntries (cleaner.firstDirtyOffset tp) nowMs)
          (cleaner.cleanOnce ratios logs tp nowMs) := by
  cases hosted : logs.get tp with
  | none => exact .inl (by simp only [cleanOnce, hosted])
  | some log =>
      cases compacts : log.config.compacted with
      | false => exact .inl (by simp only [cleanOnce, hosted, compacts, if_true])
      | true =>
          by_cases clean : dirtyRatio ratios log (cleaner.firstDirtyOffset tp) ≤
              cleaner.config.minCleanableDirtyRatio
          · exact .inl (by simp only [cleanOnce, hosted, compacts, clean, Bool.true_eq_false, if_true, if_false])
          · exact .inr ⟨log, rfl, compacts, not_le.mp clean,
              cleaner.clean_once_passes ratios nowMs hosted compacts (not_le.mp clean)⟩

end LogCleaner

end DariyaKyu.Storage

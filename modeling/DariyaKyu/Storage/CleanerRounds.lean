import DariyaKyu.Storage.CleaningProgress
import DariyaKyu.Storage.PartitionLives
import Mathlib.Algebra.Order.BigOperators.Group.List

/-!
The loop of `LogCleaner::startCleaning` over all the partitions of a broker, while
nothing is appended: each turn passes over the dirtiest one, and what the pass throws
is counted and forgotten. A partition whose keys cannot be mapped is as dirty behind
its pass as in front of it.
-/

namespace DariyaKyu.Storage

set_option autoImplicit false

section Marked

variable {marked : Marked} {budget : Nat}

structure Marked.Passable (budget : Nat) (marked : Marked) : Prop where
  decodable : Decodable marked.log
  indexable : ∀ segment ∈ marked.log.sealedMap, segment.Indexable
  small : ∀ segment ∈ marked.dirty, segment.keys ≤ budget

def Marked.Blocked (budget : Nat) (marked : Marked) : Prop :=
  ∃ failure, marked.log.mapKeys budget marked.mark = .error failure

theorem passable_pass (passable : marked.Passable budget) (nowMs : Int) :
    (marked.pass budget nowMs).Passable budget ∧
      (marked.dirty ≠ [] → (marked.pass budget nowMs).dirty.length < marked.dirty.length) := by
  have fits : Marked.EachFits budget [nowMs] marked :=
    each_fits passable.decodable passable.indexable passable.small
  rcases pass_step passable.decodable fits.1 with ⟨decodable, fewer, less, indexable⟩
  refine ⟨⟨decodable, indexable passable.indexable, ?_⟩, less⟩
  exact fun segment member => passable.small segment (fewer.subset member)

theorem blocked_pass (blocked : marked.Blocked budget) (nowMs : Int) : marked.pass budget nowMs = marked := by
  rcases blocked with ⟨failure, failed⟩
  rcases clean_log_cases marked.log budget marked.mark nowMs with ⟨other, -, idle⟩ | ⟨dirty, result, mapped, -⟩
  · simp [Marked.pass, idle, Except.toOption]
  · cases failed.symm.trans mapped

theorem passable_not_blocked (passable : marked.Passable budget) : ¬marked.Blocked budget := by
  rintro ⟨failure, failed⟩
  rcases map_keys_returns passable.decodable.toCleanable passable.decodable.plain budget marked.mark with
    ⟨dirty, mapped⟩
  cases failed.symm.trans mapped

end Marked

section Partitions

variable {ρ : Type}

namespace Compaction

def marked (state : Compaction ρ) (tp : TopicPartition) : Option Marked :=
  (state.logs.get tp).map fun log => ⟨log, state.cleaner.firstDirtyOffset tp⟩

def partitions (state : Compaction ρ) : List TopicPartition := state.logs.logs.map (·.1)

def dirtyCount (state : Compaction ρ) (tp : TopicPartition) : Nat :=
  match state.marked tp with
  | none => 0
  | some marked => if marked.log.config.compacted then marked.dirty.length else 0

def backlog (state : Compaction ρ) : Nat := (state.partitions.map state.dirtyCount).sum

variable {state : Compaction ρ}

theorem marked_of {tp : TopicPartition} {log : Log} (hosted : state.logs.get tp = some log) :
    state.marked tp = some ⟨log, state.cleaner.firstDirtyOffset tp⟩ := by
  rw [marked, hosted, Option.map_some]

theorem listed {tp : TopicPartition} {marked : Marked} (isMarked : state.marked tp = some marked) :
    tp ∈ state.partitions := by
  rcases Option.map_eq_some_iff.mp isMarked with ⟨log, hosted, -⟩
  exact List.mem_map.mpr ⟨_, mem_of_get hosted, rfl⟩

/-- A partition whose sealed segments can all be read, indexed and mapped. -/
structure Readable (budget : Nat) (marked : Marked) : Prop where
  plain : marked.log.Uncompressed
  indexable : ∀ segment ∈ marked.log.sealedMap, segment.Indexable
  small : ∀ segment ∈ marked.dirty, segment.keys ≤ budget

theorem readable_passable (sound : state.Sound) {tp : TopicPartition} {marked : Marked} {budget : Nat}
    (isMarked : state.marked tp = some marked) (readable : Readable budget marked) : marked.Passable budget := by
  rcases Option.map_eq_some_iff.mp isMarked with ⟨log, hosted, rfl⟩
  have cleanable := (sound.hosts _ (mem_of_get hosted)).holds.cleanable
  exact ⟨⟨cleanable, readable.plain⟩, readable.indexable, readable.small⟩

end Compaction

end Partitions

section Turns

variable {ρ : Type} [LinearOrder ρ] (ratios : Ratios ρ)

/-- Of a partition without dirty bytes the ratio is never above the floor. -/
structure Ratios.Calm (floor : ρ) : Prop where
  zero : ratios.zero ≤ floor
  spent : ∀ total, ratios.quotient 0 total ≤ floor

def Marked.Overdue (floor : ρ) (marked : Marked) : Prop :=
  marked.log.config.compacted = true ∧ floor < dirtyRatio ratios marked.log marked.mark

variable {ratios} in
theorem overdue_dirty {floor : ρ} (calm : ratios.Calm floor) {marked : Marked} (cleanable : Cleanable marked.log)
    (overdue : marked.Overdue ratios floor) : marked.dirty ≠ [] := by
  intro clean
  have behind : ∀ segment ∈ marked.log.sealedMap, segment.nextOffset ≤ marked.mark := by
    intro segment member
    have ends := List.filter_eq_nil_iff.mp clean segment member
    simpa using ends
  have none_past : (marked.log.sealedSegments.filter fun info => decide (marked.mark ≤ info.baseOffset)) = [] := by
    apply List.filter_eq_nil_iff.mpr
    intro info member
    rcases List.mem_map.mp member with ⟨segment, inside, rfl⟩
    have spans := (linked_below cleanable.linked inside).1
    have ends := behind segment inside
    simp only [decide_eq_true_eq, not_le]
    omega
  apply not_le.mpr overdue.2
  unfold dirtyRatio
  simp only [none_past, List.map_nil, List.sum_nil]
  split
  · exact calm.zero
  · exact calm.spent _

namespace Compaction

def Overdue (state : Compaction ρ) (tp : TopicPartition) : Prop :=
  ∃ marked, state.marked tp = some marked ∧ marked.Overdue ratios state.cleaner.config.minCleanableDirtyRatio

def turn (state : Compaction ρ) (nowMs : Int) : Compaction ρ :=
  let call := state.cleaner.runOnce ratios state.logs nowMs
  ⟨call.logs, call.cleaner⟩

def turns (state : Compaction ρ) (times : List Int) : Compaction ρ := times.foldl (turn ratios) state

def picked (state : Compaction ρ) : Option TopicPartition := state.cleaner.pickDirtiest ratios state.logs

variable {ratios} {state : Compaction ρ}

theorem picked_overdue {tp : TopicPartition} (isPicked : state.picked ratios = some tp) : state.Overdue ratios tp := by
  rcases state.cleaner.pick_dirtiest_chosen ratios state.logs isPicked with ⟨log, hosted, compacts, dirty⟩
  exact ⟨_, marked_of hosted, compacts, dirty⟩

theorem choice_stays (cleaner : LogCleaner ρ) (logs : LogManager) (tps : List TopicPartition) (tp : TopicPartition)
    (ratio : ρ) : (tps.foldl (cleaner.dirtier ratios logs) (some tp, ratio)).1 ≠ none := by
  induction tps generalizing tp ratio with
  | nil => simp
  | cons other tps ih =>
      rw [List.foldl_cons]
      unfold LogCleaner.dirtier
      cases logs.get other with
      | none => exact ih tp ratio
      | some log =>
          simp only
          split
          · exact ih tp ratio
          · split
            · exact ih other _
            · exact ih tp ratio

/-- Where nothing is picked, nothing is over the ratio the choice began with. -/
theorem choice_none {cleaner : LogCleaner ρ} {logs : LogManager} {tps : List TopicPartition} {floor : ρ}
    (nothing : (tps.foldl (cleaner.dirtier ratios logs) (none, floor)).1 = none) :
    ∀ tp ∈ tps, ∀ log, logs.get tp = some log → log.config.compacted = true →
      dirtyRatio ratios log (cleaner.firstDirtyOffset tp) ≤ floor := by
  induction tps with
  | nil => simp
  | cons first tps ih =>
      rw [List.foldl_cons] at nothing
      have still : cleaner.dirtier ratios logs (none, floor) first = (none, floor) := by
        unfold LogCleaner.dirtier at nothing ⊢
        cases hosted : logs.get first with
        | none => rfl
        | some log =>
            simp only [hosted] at nothing ⊢
            split
            · rfl
            · next compacts =>
              rw [if_neg compacts] at nothing
              split
              · next above =>
                rw [if_pos above] at nothing
                exact absurd nothing (choice_stays cleaner logs tps first _)
              · rfl
      rw [still] at nothing
      intro tp member log hosted compacts
      rcases List.mem_cons.mp member with rfl | later
      · unfold LogCleaner.dirtier at still
        simp only [hosted, compacts, Bool.true_eq_false, if_false] at still
        by_contra above
        rw [if_pos (not_le.mp above)] at still
        cases still
      · exact ih nothing tp later log hosted compacts

theorem picked_none_iff : state.picked ratios = none ↔ ∀ tp, ¬state.Overdue ratios tp := by
  constructor
  · rintro nothing tp ⟨marked, isMarked, compacts, above⟩
    have inside := listed isMarked
    rcases Option.map_eq_some_iff.mp isMarked with ⟨log, hosted, rfl⟩
    exact absurd above (not_lt.mpr (choice_none nothing tp inside log hosted compacts))
  · intro none_over
    cases isPicked : state.picked ratios with
    | none => rfl
    | some tp => exact absurd (picked_overdue isPicked) (none_over tp)

theorem turn_idle (nothing : state.picked ratios = none) (nowMs : Int) : state.turn ratios nowMs = state := by
  unfold picked at nothing
  simp [turn, LogCleaner.runOnce, nothing]

structure Turned (state next : Compaction ρ) (tp : TopicPartition) (marked : Marked) (nowMs : Int) : Prop where
  config : next.cleaner.config = state.cleaner.config
  partitions : next.partitions = state.partitions
  own : next.marked tp = some (marked.pass state.cleaner.config.maxKeyMapEntries nowMs)
  others : ∀ other ≠ tp, next.marked other = state.marked other

theorem turn_picked {tp : TopicPartition} (isPicked : state.picked ratios = some tp) (nowMs : Int) :
    ∃ marked, state.marked tp = some marked ∧
      marked.Overdue ratios state.cleaner.config.minCleanableDirtyRatio ∧
      Turned state (state.turn ratios nowMs) tp marked nowMs := by
  rcases state.cleaner.pick_dirtiest_chosen ratios state.logs isPicked with ⟨log, hosted, compacts, dirty⟩
  have passes := state.cleaner.clean_once_passes ratios nowMs hosted compacts dirty
  have isTurn : state.turn ratios nowMs =
      ⟨(state.cleaner.cleanOnce ratios state.logs tp nowMs).logs,
        (state.cleaner.cleanOnce ratios state.logs tp nowMs).cleaner⟩ := by
    unfold picked at isPicked
    simp only [turn, LogCleaner.runOnce, isPicked]
  refine ⟨_, marked_of hosted, ⟨compacts, dirty⟩, ?_⟩
  rw [isTurn]
  rcases passes with ⟨logs, ends⟩
  have names : (state.logs.put tp (cleanLog log state.cleaner.config.maxKeyMapEntries
      (state.cleaner.firstDirtyOffset tp) nowMs).log).logs.map (·.1) = state.logs.logs.map (·.1) := by
    rw [LogManager.put, List.map_map]
    apply List.map_congr_left
    intro other _
    simp only [Function.comp]
    split
    · next same => exact same.symm
    · rfl
  rcases ends with ⟨failure, failed, -, same⟩ | ⟨result, returned, -, config, marks⟩
  · refine ⟨by rw [same], by simp only [partitions, logs, names], ?_, ?_⟩
    · simp only [marked, logs, LogManager.get_put, hosted, same, Marked.pass, failed, if_true, Option.map_some]
      rfl
    · intro other different
      simp only [marked, logs, LogManager.get_put, different, same, if_false]
  · refine ⟨config, by simp only [partitions, logs, names], ?_, ?_⟩
    · simp only [marked, logs, LogManager.get_put, hosted, marks, Marked.pass, returned, if_true, Option.map_some]
      rfl
    · intro other different
      simp only [marked, logs, LogManager.get_put, different, marks, if_false]

variable (ratios) in
theorem picked_congr {next : Compaction ρ} (config : next.cleaner.config = state.cleaner.config)
    (partitions : next.partitions = state.partitions) (same : ∀ tp, next.marked tp = state.marked tp) :
    next.picked ratios = state.picked ratios := by
  have turns : next.cleaner.dirtier ratios next.logs = state.cleaner.dirtier ratios state.logs := by
    funext choice tp
    have marks := same tp
    unfold marked at marks
    unfold LogCleaner.dirtier
    cases hosted : state.logs.get tp with
    | none =>
        rw [hosted, Option.map_none, Option.map_eq_none_iff] at marks
        rw [marks]
    | some log =>
        rw [hosted, Option.map_some, Option.map_eq_some_iff] at marks
        rcases marks with ⟨other, isOther, equal⟩
        have sameLog : other = log := congrArg Marked.log equal
        have sameMark : next.cleaner.firstDirtyOffset tp = state.cleaner.firstDirtyOffset tp :=
          congrArg Marked.mark equal
        simp only [isOther, sameLog, sameMark]
  unfold picked LogCleaner.pickDirtiest
  have names : next.logs.logs.map (·.1) = state.logs.logs.map (·.1) := partitions
  rw [config, names, turns]

theorem overdue_congr {next : Compaction ρ} (config : next.cleaner.config = state.cleaner.config)
    {tp : TopicPartition} (same : next.marked tp = state.marked tp) :
    next.Overdue ratios tp ↔ state.Overdue ratios tp := by
  unfold Overdue
  rw [config, same]

/-- Every compacted partition either lets each pass get on or refuses them all. -/
def Sorted (state : Compaction ρ) : Prop :=
  ∀ tp marked, state.marked tp = some marked → marked.log.config.compacted = true →
    marked.Passable state.cleaner.config.maxKeyMapEntries ∨ marked.Blocked state.cleaner.config.maxKeyMapEntries

/-- What the next turn would pass over, if anything, is blocked. -/
def Resting (ratios : Ratios ρ) (state : Compaction ρ) : Prop :=
  ∀ tp, state.picked ratios = some tp →
    ∃ marked, state.marked tp = some marked ∧ marked.Blocked state.cleaner.config.maxKeyMapEntries

variable (ratios) in
/-- What a turn does to the partitions: nothing, or it passes over one that is overdue. -/
theorem turn_cases (state : Compaction ρ) (nowMs : Int) :
    (state.picked ratios = none ∧ state.turn ratios nowMs = state) ∨
      ∃ tp marked, state.picked ratios = some tp ∧ state.marked tp = some marked ∧
        marked.Overdue ratios state.cleaner.config.minCleanableDirtyRatio ∧
        Turned state (state.turn ratios nowMs) tp marked nowMs := by
  cases isPicked : state.picked ratios with
  | none => exact .inl ⟨rfl, turn_idle isPicked nowMs⟩
  | some tp =>
      rcases turn_picked isPicked nowMs with ⟨marked, isMarked, overdue, turned⟩
      exact .inr ⟨tp, marked, rfl, isMarked, overdue, turned⟩

theorem turn_config (state : Compaction ρ) (nowMs : Int) :
    (state.turn ratios nowMs).cleaner.config = state.cleaner.config := by
  rcases turn_cases ratios state nowMs with ⟨-, idle⟩ | ⟨_, _, -, -, -, turned⟩
  · rw [idle]
  · exact turned.config

variable (ratios) in
theorem sorted_turn (sorted : state.Sorted) (nowMs : Int) : (state.turn ratios nowMs).Sorted := by
  rcases turn_cases ratios state nowMs with ⟨-, idle⟩ | ⟨tp, marked, -, isMarked, overdue, turned⟩
  · rw [idle]
    exact sorted
  · intro other next isNext compacts
    rw [turned.config]
    by_cases same : other = tp
    · subst same
      rw [turned.own] at isNext
      cases isNext
      rcases sorted other marked isMarked overdue.1 with passable | blocked
      · exact .inl (passable_pass passable nowMs).1
      · rw [blocked_pass blocked]
        exact .inr blocked
    · rw [turned.others other same] at isNext
      exact sorted other next isNext compacts

theorem blocked_turn_iff (sorted : state.Sorted) {nowMs : Int} {tp : TopicPartition} {blocked : Marked}
    (isBlocked : blocked.Blocked state.cleaner.config.maxKeyMapEntries) :
    (state.turn ratios nowMs).marked tp = some blocked ↔ state.marked tp = some blocked := by
  rcases turn_cases ratios state nowMs with ⟨-, idle⟩ | ⟨other, marked, -, isMarked, overdue, turned⟩
  · rw [idle]
  · by_cases same : tp = other
    · subst same
      rw [turned.own, isMarked, Option.some.injEq, Option.some.injEq]
      rcases sorted tp marked isMarked overdue.1 with passable | stuck
      · constructor
        · rintro rfl
          exact absurd isBlocked (passable_not_blocked (passable_pass passable nowMs).1)
        · rintro rfl
          exact absurd isBlocked (passable_not_blocked passable)
      · rw [blocked_pass stuck]
    · rw [turned.others tp same]

/-- A turn either passes over nothing, or over a blocked partition, or leaves fewer
segments dirty. -/
theorem rests_or_lessens (sorted : state.Sorted) (calm : ratios.Calm state.cleaner.config.minCleanableDirtyRatio)
    (nowMs : Int) : state.Resting ratios ∨ (state.turn ratios nowMs).backlog < state.backlog := by
  rcases turn_cases ratios state nowMs with ⟨idle, -⟩ | ⟨tp, marked, isPicked, isMarked, overdue, turned⟩
  · left
    intro tp isPicked
    cases idle.symm.trans isPicked
  · rcases sorted tp marked isMarked overdue.1 with passable | blocked
    · right
      have less := (passable_pass passable nowMs).2 (overdue_dirty calm passable.decodable.toCleanable overdue)
      have fewer : (state.turn ratios nowMs).dirtyCount tp < state.dirtyCount tp := by
        simp only [dirtyCount, turned.own, isMarked, overdue.1, if_true]
        split
        · exact less
        · exact Nat.lt_of_le_of_lt (Nat.zero_le _) less
      unfold backlog
      rw [turned.partitions]
      refine List.sum_lt_sum _ _ ?_ ⟨tp, listed isMarked, fewer⟩
      intro other _
      by_cases same : other = tp
      · exact same ▸ fewer.le
      · simp only [dirtyCount, turned.others other same, le_refl]
    · left
      intro other again
      cases isPicked.symm.trans again
      exact ⟨marked, isMarked, blocked⟩

/-- At rest a turn changes nothing, the next choice included. -/
structure Rested (ratios : Ratios ρ) (state next : Compaction ρ) : Prop where
  marked : ∀ tp, next.marked tp = state.marked tp
  picked : next.picked ratios = state.picked ratios
  resting : next.Resting ratios

theorem resting_turn (resting : state.Resting ratios) (nowMs : Int) :
    Rested ratios state (state.turn ratios nowMs) := by
  rcases turn_cases ratios state nowMs with ⟨-, idle⟩ | ⟨tp, marked, isPicked, isMarked, overdue, turned⟩
  · rw [idle]
    exact ⟨fun _ => rfl, rfl, resting⟩
  · have same : ∀ other, (state.turn ratios nowMs).marked other = state.marked other := by
      intro other
      by_cases own : other = tp
      · rcases resting tp isPicked with ⟨again, isAgain, blocked⟩
        cases isMarked.symm.trans isAgain
        rw [own, turned.own, blocked_pass blocked, isMarked]
      · exact turned.others other own
    have choice := picked_congr ratios turned.config turned.partitions same
    refine ⟨same, choice, ?_⟩
    intro other nextPick
    rw [same, turned.config]
    exact resting other (choice ▸ nextPick)

theorem resting_turns (resting : state.Resting ratios) (times : List Int) :
    Rested ratios state (state.turns ratios times) := by
  induction times generalizing state with
  | nil => exact ⟨fun _ => rfl, rfl, resting⟩
  | cons nowMs times ih =>
      have first := resting_turn resting nowMs
      have later := ih first.resting
      exact ⟨fun tp => (later.marked tp).trans (first.marked tp), later.picked.trans first.picked, later.resting⟩

variable (ratios) in
theorem turns_config (state : Compaction ρ) (times : List Int) :
    (state.turns ratios times).cleaner.config = state.cleaner.config := by
  induction times generalizing state with
  | nil => rfl
  | cons nowMs times ih => exact (ih _).trans (turn_config state nowMs)

theorem blocked_turns_iff (sorted : state.Sorted) (times : List Int) {tp : TopicPartition} {blocked : Marked}
    (isBlocked : blocked.Blocked state.cleaner.config.maxKeyMapEntries) :
    (state.turns ratios times).marked tp = some blocked ↔ state.marked tp = some blocked := by
  induction times generalizing state with
  | nil => exact Iff.rfl
  | cons nowMs times ih =>
      have later := ih (sorted_turn ratios sorted nowMs) (by rw [turn_config]; exact isBlocked)
      exact later.trans (blocked_turn_iff sorted isBlocked)

theorem turns_rest (sorted : state.Sorted) (calm : ratios.Calm state.cleaner.config.minCleanableDirtyRatio)
    {times : List Int} (enough : state.backlog ≤ times.length) : (state.turns ratios times).Resting ratios := by
  induction times generalizing state with
  | nil =>
      rcases rests_or_lessens sorted calm 0 with resting | less
      · exact resting
      · rw [List.length_nil] at enough
        omega
  | cons nowMs times ih =>
      rcases rests_or_lessens sorted calm nowMs with resting | less
      · exact (resting_turns resting (nowMs :: times)).resting
      · rw [List.length_cons] at enough
        apply ih (sorted_turn ratios sorted nowMs)
        · rw [turn_config]
          exact calm
        · omega

end Compaction

structure CleanerThread (ρ : Type) where
  compaction : Compaction ρ
  passes : Nat := 0
  failures : Nat := 0

namespace CleanerThread

/-- One turn of its loop: what `runOnce` throws is counted and goes no further. -/
def turn (thread : CleanerThread ρ) (nowMs : Int) : CleanerThread ρ :=
  let state := thread.compaction
  let call := state.cleaner.runOnce ratios state.logs nowMs
  match call.outcome with
  | .ok _ => { thread with compaction := ⟨call.logs, call.cleaner⟩, passes := thread.passes + 1 }
  | .error _ => { thread with compaction := ⟨call.logs, call.cleaner⟩, failures := thread.failures + 1 }

def run (thread : CleanerThread ρ) (times : List Int) : CleanerThread ρ := times.foldl (turn ratios) thread

variable {ratios} {thread : CleanerThread ρ}

theorem turn_compaction (thread : CleanerThread ρ) (nowMs : Int) :
    (thread.turn ratios nowMs).compaction = thread.compaction.turn ratios nowMs := by
  unfold turn
  dsimp only
  split <;> rfl

theorem run_compaction (thread : CleanerThread ρ) (times : List Int) :
    (thread.run ratios times).compaction = thread.compaction.turns ratios times := by
  induction times generalizing thread with
  | nil => rfl
  | cons nowMs times ih =>
      rw [run, List.foldl_cons, Compaction.turns, List.foldl_cons, ← turn_compaction]
      exact ih _

theorem blocked_turn_fails {tp : TopicPartition} {marked : Marked}
    (isPicked : thread.compaction.picked ratios = some tp) (isMarked : thread.compaction.marked tp = some marked)
    (blocked : marked.Blocked thread.compaction.cleaner.config.maxKeyMapEntries) (nowMs : Int) :
    (thread.turn ratios nowMs).failures = thread.failures + 1 := by
  rcases Option.map_eq_some_iff.mp isMarked with ⟨log, hosted, rfl⟩
  rcases thread.compaction.cleaner.pick_dirtiest_chosen ratios thread.compaction.logs isPicked with
    ⟨again, isAgain, compacts, dirty⟩
  cases hosted.symm.trans isAgain
  have passes := thread.compaction.cleaner.clean_once_passes ratios nowMs hosted compacts dirty
  rcases blocked with ⟨failure, failed⟩
  have outcome : (thread.compaction.cleaner.runOnce ratios thread.compaction.logs nowMs).outcome = .error failure := by
    unfold Compaction.picked at isPicked
    simp only [LogCleaner.runOnce, isPicked]
    rcases passes.ends with ⟨other, threw, same, -⟩ | ⟨result, returned, -⟩
    · rcases clean_log_cases log thread.compaction.cleaner.config.maxKeyMapEntries
        (thread.compaction.cleaner.firstDirtyOffset tp) nowMs with ⟨_, unmapped, idle⟩ | ⟨_, _, mapped, -⟩
      · cases failed.symm.trans unmapped
        rw [idle] at threw
        cases threw
        exact same
      · cases failed.symm.trans mapped
    · rcases clean_log_cases log thread.compaction.cleaner.config.maxKeyMapEntries
        (thread.compaction.cleaner.firstDirtyOffset tp) nowMs with ⟨_, _, idle⟩ | ⟨_, _, mapped, -⟩
      · rw [idle] at returned
        cases returned
      · cases failed.symm.trans mapped
  simp only [turn, outcome]

theorem resting_run_fails {tp : TopicPartition} (resting : thread.compaction.Resting ratios)
    (isPicked : thread.compaction.picked ratios = some tp) (later : List Int) :
    (thread.run ratios later).failures = thread.failures + later.length := by
  induction later generalizing thread with
  | nil => rfl
  | cons nowMs later ih =>
      rcases resting tp isPicked with ⟨marked, isMarked, blocked⟩
      have rested := Compaction.resting_turn resting nowMs
      rw [← turn_compaction] at rested
      have others := ih rested.resting (rested.picked.trans isPicked)
      have fails := blocked_turn_fails isPicked isMarked blocked nowMs
      have split : thread.run ratios (nowMs :: later) = (thread.turn ratios nowMs).run ratios later := rfl
      rw [split, others, fails, List.length_cons]
      omega

open Compaction

/-- Where nothing is appended any more, the cleaner's loop comes to rest within a turn
for each dirty segment. It has then cleaned every partition that was due, unless one
of them had dirty keys that cannot be mapped: then it passes over such a one in every
turn from there on, and whatever else is due stays so. -/
theorem cleaner_comes_to_rest {dataDir : String} {defaults : LogConfig} {config : CleanerConfig ρ}
    {state : Compaction ρ} (isState : thread.compaction = state)
    (reached : GuardedRun.Reaches (Compaction.serve ratios) Compaction.Serves (.start dataDir defaults config) state)
    (calm : ratios.Calm state.cleaner.config.minCleanableDirtyRatio)
    (each : ∀ tp marked, state.marked tp = some marked → marked.log.config.compacted = true →
      Readable state.cleaner.config.maxKeyMapEntries marked ∨ marked.Blocked state.cleaner.config.maxKeyMapEntries)
    {times : List Int} (enough : state.backlog ≤ times.length) :
    (∀ later tp, ((thread.run ratios times).run ratios later).compaction.marked tp =
        (thread.run ratios times).compaction.marked tp) ∧
      ((∀ tp, ¬(thread.run ratios times).compaction.Overdue ratios tp) ↔
        ∀ tp marked, state.marked tp = some marked → state.Overdue ratios tp →
          ¬marked.Blocked state.cleaner.config.maxKeyMapEntries) ∧
      ∀ tp, (thread.run ratios times).compaction.picked ratios = some tp →
        (∀ later, ((thread.run ratios times).run ratios later).failures =
            (thread.run ratios times).failures + later.length) ∧
          ∃ marked, state.marked tp = some marked ∧ state.Overdue ratios tp ∧
            marked.Blocked state.cleaner.config.maxKeyMapEntries := by
  have sound := sound_reached ratios reached
  have sorted : state.Sorted := by
    intro tp marked isMarked compacts
    rcases each tp marked isMarked compacts with readable | blocked
    · exact .inl (readable_passable sound isMarked readable)
    · exact .inr blocked
  have ran : (thread.run ratios times).compaction = state.turns ratios times := by rw [run_compaction, isState]
  have resting := turns_rest sorted calm enough
  have sameConfig := turns_config ratios state times
  have stuck : ∀ tp, (state.turns ratios times).picked ratios = some tp →
      ∃ marked, state.marked tp = some marked ∧ state.Overdue ratios tp ∧
        marked.Blocked state.cleaner.config.maxKeyMapEntries := by
    intro tp isPicked
    rcases resting tp isPicked with ⟨marked, isMarked, blocked⟩
    rw [sameConfig] at blocked
    have before := (blocked_turns_iff sorted times blocked).mp isMarked
    have overdue := (overdue_congr sameConfig (isMarked.trans before.symm)).mp (picked_overdue isPicked)
    exact ⟨marked, before, overdue, blocked⟩
  refine ⟨?_, ?_, ?_⟩
  · intro later tp
    rw [run_compaction, ran]
    exact (resting_turns resting later).marked tp
  · rw [ran, ← picked_none_iff]
    constructor
    · intro nothing tp marked isMarked overdue blocked
      have after : (state.turns ratios times).marked tp = some marked :=
        (blocked_turns_iff sorted times blocked).mpr isMarked
      exact picked_none_iff.mp nothing tp ((overdue_congr sameConfig (after.trans isMarked.symm)).mpr overdue)
    · intro none_blocked
      cases isPicked : (state.turns ratios times).picked ratios with
      | none => rfl
      | some tp =>
          rcases stuck tp isPicked with ⟨marked, isMarked, overdue, blocked⟩
          exact absurd blocked (none_blocked tp marked isMarked overdue)
  · intro tp isPicked
    refine ⟨fun later => ?_, stuck tp (ran ▸ isPicked)⟩
    exact resting_run_fails (ran ▸ resting) isPicked later

end CleanerThread

end Turns

instance (budget : Nat) (marked : Marked) : Decidable (Compaction.Readable budget marked) :=
  decidable_of_iff (marked.log.Uncompressed ∧ (∀ segment ∈ marked.log.sealedMap, segment.Indexable) ∧
      ∀ segment ∈ marked.dirty, segment.keys ≤ budget)
    ⟨fun ⟨plain, indexable, small⟩ => ⟨plain, indexable, small⟩,
      fun readable => ⟨readable.plain, readable.indexable, readable.small⟩⟩

def compressedBatch : Bytes := 
  builtBytes { compression := 1, records := List.replicate 12 0, count := 1, lastDelta := 0 }

def compressedBeside : List (ServiceAction ℚ) :=
  let compacted : LogConfig := { twoBatchConfig with cleanup := .compact }
  [.createPartition ⟨[116], 0⟩ compacted, .createPartition ⟨[116], 1⟩ compacted] ++
    ([0, 0, 0, 1, 1, 1] : List Int).map fun partition => .during (.on ⟨[116], partition⟩ (.append
      (if partition = 0 then compressedBatch else recordBatchOf 10 (some [97]) (some [118])) 0 0 none))

instance (budget : Nat) (marked : Marked) : Decidable (marked.Blocked budget) :=
  match mapped : marked.log.mapKeys budget marked.mark with
  | .error failure => .isTrue ⟨failure, mapped⟩
  | .ok _ => .isFalse fun ⟨_, failed⟩ => by cases mapped.symm.trans failed

instance (floor : ℚ) (marked : Marked) : Decidable (marked.Overdue exactRatios floor) :=
  inferInstanceAs (Decidable (_ = true ∧ _ < _))

/-- The partition that no pass can read is the first choice of every turn, and the
other one, just as dirty, is never cleaned. -/
theorem cleaner_comes_to_rest_compressed :
    ∃ thread : CleanerThread ℚ, ∀ later,
      ((thread.run exactRatios [0, 0]).run exactRatios later).failures =
          (thread.run exactRatios [0, 0]).failures + later.length ∧
        ∃ marked,
          ((thread.run exactRatios [0, 0]).run exactRatios later).compaction.marked ⟨[116], 1⟩ = some marked ∧
            marked.Overdue exactRatios (1 / 4) := by
  rcases GuardedRun.found_by_run (Compaction.serve exactRatios) Compaction.Serves
    (Compaction.start "data" {} ⟨10, 1 / 4⟩)
    (fun state =>
      let settled := (CleanerThread.run exactRatios ⟨state, 0, 0⟩ [0, 0]).compaction
      decide (state.backlog = 2) && decide (state.cleaner.config.minCleanableDirtyRatio = 1 / 4) &&
        decide (settled.picked exactRatios = some ⟨[116], 0⟩) &&
        (settled.marked ⟨[116], 1⟩).any (fun marked : Marked => decide (marked.Overdue exactRatios (1 / 4))) &&
        state.logs.logs.all fun hosted =>
          let marked : Marked := ⟨hosted.2, state.cleaner.firstDirtyOffset hosted.1⟩
          decide (Compaction.Readable state.cleaner.config.maxKeyMapEntries marked ∨
            marked.Blocked state.cleaner.config.maxKeyMapEntries))
    compressedBeside (by decide +kernel) with ⟨state, reached, checked⟩
  simp only [Bool.and_eq_true, decide_eq_true_eq, List.all_eq_true] at checked
  rcases checked with ⟨⟨⟨⟨backlog, floor⟩, isPicked⟩, overdue⟩, each⟩
  rcases Option.any_eq_true _ _ |>.mp overdue with ⟨marked, isMarked, due⟩
  have calm : exactRatios.Calm state.cleaner.config.minCleanableDirtyRatio := by
    rw [floor]
    exact ⟨by norm_num [exactRatios], fun total => by norm_num [exactRatios]⟩
  have sorted : ∀ tp marked, state.marked tp = some marked → marked.log.config.compacted = true →
      Compaction.Readable state.cleaner.config.maxKeyMapEntries marked ∨
        marked.Blocked state.cleaner.config.maxKeyMapEntries := by
    intro tp marked isMarked _
    rcases Option.map_eq_some_iff.mp isMarked with ⟨log, hosted, rfl⟩
    exact each _ (mem_of_get hosted)
  have enough : state.backlog ≤ ([0, 0] : List Int).length := backlog.le
  have isState : (⟨state, 0, 0⟩ : CleanerThread ℚ).compaction = state := rfl
  rcases CleanerThread.cleaner_comes_to_rest isState reached calm sorted enough with ⟨stays, -, stuck⟩
  refine ⟨⟨state, 0, 0⟩, fun later => ⟨(stuck _ isPicked).1 later, marked, ?_, of_decide_eq_true due⟩⟩
  rw [stays]
  exact isMarked

end DariyaKyu.Storage

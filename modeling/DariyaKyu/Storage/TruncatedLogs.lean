import DariyaKyu.Storage.Truncation

/-!
Logs that are truncated between other actions. A cut keeps the log in order and
fit for everything else; what it keeps is exactly what ends below the offset, as
long as the batches it has to keep in the segment it promotes have no hole.
-/

namespace DariyaKyu.Storage

set_option autoImplicit false

inductive TruncatingAction where
  | on (action : LogAction)
  | truncateTo (offset clockMs : Int)

def truncatingStep : TruncatingAction → Log → Option Log
  | .on action, log => Log.step action log
  | .truncateTo offset clockMs, log => (log.truncateTo offset clockMs).log

def TruncatingAdmits (log : Log) : TruncatingAction → Prop
  | .on action => log.Admits action
  | .truncateTo _ _ => True

structure Log.TruncatesWell (log : Log) (offset : Int) (after : Log) : Prop where
  batches : after.batches = endingBelow offset log.batches
  ends : after.logEndOffset ≤ offset
  watermark : after.highWatermark ≤ after.logEndOffset
  active : after.logEndOffset = after.active.nextOffset
  readable : ∀ batch ∈ after.batches, ∀ maxBytes, ∃ range,
    after.read (baseOf batch) maxBytes = .ok ⟨.none, range⟩ ∧ after.StartsAt range batch
  unchanged : log.logEndOffset ≤ offset → after = log

structure TruncatedHolds (log : Log) : Prop extends Cleanable log, LogSettled log where
  watermark : log.highWatermark ≤ log.logEndOffset

section Readable

variable {log : Log}

theorem range_from_base {start : Int} {batches : List Bytes} {batch : Bytes}
    (ascending : Ascending start batches) (member : batch ∈ batches) :
    ∃ before after, batches = before ++ batch :: after ∧ ∀ log maxBytes,
      rangeFrom log batches (baseOf batch) maxBytes =
        ⟨log.fd, before.flatten.length, max batch.length (min maxBytes (log.size - before.flatten.length))⟩ := by
  have spans := (start_le_base ascending member).2
  obtain ⟨before, first, after, split, below, reaches, range⟩ := range_from_reaching ⟨batch, member, spans⟩
  have isFirst : batch = first := by
    rw [split] at member ascending
    rcases List.mem_append.mp member with earlier | later
    · have short := below batch earlier
      omega
    · rcases List.mem_cons.mp later with same | behind
      · exact same
      · have beyond := (ascending_append.mp ascending).2.2.2
        have above := start_le_base beyond behind
        omega
  subst isFirst
  exact ⟨before, after, split, range⟩

theorem every_batch_readable (holds : LogHolds log) {batch : Bytes} (member : batch ∈ log.batches)
    (maxBytes : Nat) : ∃ range,
      log.read (baseOf batch) maxBytes = .ok ⟨.none, range⟩ ∧ log.StartsAt range batch := by
  rcases List.mem_append.mp member with old | inActive
  · obtain ⟨owner, inLog, inOwner⟩ := List.mem_flatMap.mp old
    have ownerHolds := holds.sealedHolds owner inLog
    obtain ⟨ahead, behind, split⟩ := List.append_of_mem inLog
    obtain ⟨before, after, shape, range⟩ := range_from_base ownerHolds.ascending inOwner
    obtain ⟨starts, spans⟩ := start_le_base ownerHolds.ascending inOwner
    have ends : baseOf batch < nextBase log.active.baseOffset behind := by
      have meets := (linked_behind (split ▸ holds.linked)).1
      have last := last_lt_end ownerHolds.ascending inOwner
      rw [← ownerHolds.ends] at last
      omega
    refine ⟨_, by rw [sealed_read holds split starts ends, range], ?_⟩
    exact ⟨owner, List.mem_cons_of_mem _ inLog, before, after, shape, rfl, rfl, le_max_left _ _⟩
  · have ascending := holds.activeHolds.consecutive.ascending
    obtain ⟨before, after, shape, range⟩ := range_from_base ascending inActive
    obtain ⟨starts, spans⟩ := start_le_base ascending inActive
    have ends : baseOf batch < log.logEndOffset := by
      have last := last_lt_end ascending inActive
      rw [← holds.activeHolds.ends, ← holds.ends] at last
      omega
    refine ⟨_, by rw [active_read holds starts ends, range], ?_⟩
    exact ⟨log.active.toSegmentBase, List.mem_cons_self, before, after, shape, rfl, rfl, le_max_left _ _⟩

theorem batch_below_end (holds : LogHolds log) {batch : Bytes} (member : batch ∈ log.batches) :
    lastOf batch < log.logEndOffset := by
  have active := start_le_end holds.activeHolds.consecutive.ascending
  rw [holds.ends, holds.activeHolds.ends]
  rcases List.mem_append.mp member with old | inActive
  · have below := sealed_batches_before_active holds old
    omega
  · exact last_lt_end holds.activeHolds.consecutive.ascending inActive

end Readable

section Cuts

variable {log : Log} {offset base : Int} {front : List SealedSegment} {held behind kept : List Bytes}
  {active : ActiveSegment}

theorem end_le_of_below {start : Int} {batches : List Bytes} (starts : start ≤ offset)
    (below : ∀ batch ∈ batches, lastOf batch < offset) : endOffset start batches ≤ offset := by
  by_contra beyond
  obtain ⟨batch, member, reaches⟩ := reached_below_end starts (Int.not_le.mp beyond)
  have short := below batch member
  omega

/-- What ends below the offset is what the segments in front hold and what does in the one that is cut. -/
theorem CutAt.below_offset (cut : CutAt log offset base front held behind) :
    endingBelow offset log.batches = front.flatMap batchesIn ++ endingBelow offset held := by
  have none : endingBelow offset behind = [] := by
    apply List.filter_eq_nil_iff.mpr
    intro batch member
    simpa using cut.above batch member
  have all : endingBelow offset (front.flatMap batchesIn) = front.flatMap batchesIn := by
    apply List.filter_eq_self.mpr
    intro batch member
    simpa using cut.below batch member
  unfold endingBelow at none all ⊢
  rw [cut.batches, List.filter_append, List.filter_append, none, all, List.append_nil]

theorem cut_holds (holds : TruncatedHolds log) (cut : CutAt log offset base front held behind)
    (keptAt : KeptAt offset base held kept) (settled : ActiveSettled log.dir active kept)
    (based : active.baseOffset = base) (policy : active.policy = log.config.roll)
    (inside : offset < log.logEndOffset) {after : Log}
    (left : after = { log with
      sealedMap := front
      active := active
      logEndOffset := active.nextOffset
      highWatermark := min log.highWatermark active.nextOffset
      nextFd := log.nextFd + 1 }) :
    TruncatedHolds after ∧ after.batches = front.flatMap batchesIn ++ kept ∧ after.logEndOffset ≤ offset := by
  have inActive := batches_in_active settled.toActiveHolds
  have ends : active.nextOffset ≤ offset := by
    rw [settled.ends, based]
    exact end_le_of_below cut.starts keptAt.below
  have batches : after.batches = front.flatMap batchesIn ++ kept := by
    rw [left]
    simp only [Log.batches, inActive]
  have afterHolds : LogHolds after := by
    subst left
    exact
      { sealedHolds := fun segment member => holds.sealedHolds segment (cut.sealedMap.subset member)
        activeHolds := by
          simp only [inActive]
          exact settled.toActiveHolds
        linked := based.symm ▸ cut.linked
        ends := rfl
        policy := policy
        stored := holds.stored
        storable := holds.storable }
  refine ⟨{ toLogHolds := afterHolds, formed := ?_, room := ?_, bounded := ?_, settled := ?_, watermark := ?_ },
    batches, left ▸ ends⟩
  · intro batch member
    apply holds.formed
    rw [cut.batches]
    rw [batches] at member
    rcases List.mem_append.mp member with old | new
    · exact List.mem_append_left _ old
    · exact List.mem_append_right _ (List.mem_append_left _ (keptAt.front.subset new))
  · subst left
    exact holds.room
  · subst left
    exact (ends.trans inside.le).trans holds.bounded
  · subst left
    simp only [inActive]
    exact settled
  · subst left
    exact min_le_right _ _

/-- A truncation does what it is to do exactly if the batches it has to keep in
the segment that it promotes have no hole, and an index takes them. -/
theorem truncates_well_iff (holds : TruncatedHolds log) (offset clockMs : Int) :
    (∃ after, log.truncateTo offset clockMs = .returned () after ∧ log.TruncatesWell offset after) ↔
      log.CutsInSequence offset := by
  by_cases whole : log.logEndOffset ≤ offset
  · have nothing : log.truncateTo offset clockMs = .returned () log := by
      rw [Log.truncateTo, if_pos whole]
    have all : endingBelow offset log.batches = log.batches := by
      apply List.filter_eq_self.mpr
      intro batch member
      have last := batch_below_end holds.toLogHolds member
      simpa using last.trans_le whole
    refine ⟨fun _ inside => absurd whole (Int.not_le.mpr inside), fun _ => ⟨log, nothing, ?_⟩⟩
    exact ⟨all.symm, whole, holds.watermark, holds.ends,
      fun batch member => every_batch_readable holds.toLogHolds member, fun _ => rfl⟩
  · have inside := Int.not_le.mp whole
    obtain ⟨base, front, held, behind, kept, cut, keptAt, ends, iff⟩ :=
      cut_somewhere holds.toLogSettled inside clockMs
    rw [iff]
    constructor
    · rintro ⟨after, returned, well⟩
      cases ends with
      | ruined refused threw => rw [threw] at returned; cases returned
      | returned settled based policy left =>
          rw [left] at returned
          cases returned
          obtain ⟨_, batches, _⟩ := cut_holds holds cut keptAt settled based policy inside rfl
          have same := well.batches
          rw [batches, cut.below_offset] at same
          have exactly := List.append_cancel_left same
          obtain ⟨built, isBuilt, _⟩ := settled.built
          rw [based, policy] at isBuilt
          exact exactly ▸ ⟨keptAt.consecutive, built, isBuilt⟩
    · rintro ⟨consecutive, built, isBuilt⟩
      have exactly := keptAt.all consecutive
      cases ends with
      | ruined refused threw => exact absurd (exactly ▸ isBuilt) (refused built)
      | returned settled based policy left =>
          obtain ⟨afterHolds, batches, below⟩ := cut_holds holds cut keptAt settled based policy inside rfl
          refine ⟨_, left, ?_⟩
          exact
            { batches := by rw [batches, cut.below_offset, exactly]
              ends := below
              watermark := afterHolds.watermark
              active := afterHolds.ends
              readable := fun batch member => every_batch_readable afterHolds.toLogHolds member
              unchanged := fun above => absurd above whole }

end Cuts

section Runs

variable {log next : Log}

structure SameEnds (log next : Log) : Prop where
  dir : next.dir = log.dir
  ends : next.logEndOffset = log.logEndOffset
  watermark : next.highWatermark = log.highWatermark

theorem roll_keeps_ends {nowMs : Int} (moved : (log.maybeRoll nowMs).log = some next) : SameEnds log next := by
  unfold Log.maybeRoll at moved
  by_cases stays : log.active.shouldRoll nowMs = false
  · rw [if_pos stays] at moved
    cases moved
    exact ⟨rfl, rfl, rfl⟩
  · rw [if_neg stays] at moved
    cases made : ActiveSegment.create log.nextFd log.dir log.active.nextOffset log.config.roll
        (log.holdsFile log.active.nextOffset) with
    | error failure =>
        simp only [made] at moved
        cases moved
        exact ⟨rfl, rfl, rfl⟩
    | ok fresh =>
        simp only [made] at moved
        cases given : log.active.sealSegment (log.nextFd + 1) with
        | error failure => simp [given, Outcome.log] at moved
        | ok segment =>
            simp only [given] at moved
            cases moved
            exact ⟨rfl, rfl, rfl⟩

theorem open_ends {tp : TopicPartition} {dir : String} {files : PartitionDir} {fallback : LogConfig}
    {clockMs : Int} (opened : Log.open tp dir files fallback clockMs = .ok next) :
    next.dir = dir ∧ next.highWatermark = next.logEndOffset := by
  unfold Log.open at opened
  split at opened
  · obtain ⟨_, _, opened⟩ := except_bind_ok opened
    obtain ⟨active, _, made⟩ := except_bind_ok opened
    cases Except.ok.inj made
    exact ⟨rfl, rfl⟩
  · obtain ⟨_, _, opened⟩ := except_bind_ok opened
    obtain ⟨_, _, opened⟩ := except_bind_ok opened
    obtain ⟨_, _, opened⟩ := except_bind_ok opened
    obtain ⟨active, _, made⟩ := except_bind_ok opened
    cases Except.ok.inj made
    exact ⟨rfl, rfl⟩

theorem step_keeps_watermark (holds : TruncatedHolds log) {action : LogAction}
    (taken : Log.step action log = some next) :
    next.dir = log.dir ∧ next.highWatermark ≤ next.logEndOffset := by
  have before := holds.watermark
  cases action with
  | append batchBytes rollMs clockMs fault =>
      simp only [Log.step, Log.append] at taken
      cases rolled : log.maybeRoll rollMs with
      | ruined failure => simp [rolled, Outcome.log] at taken
      | threw failure stays =>
          have same := @roll_keeps_ends log stays rollMs (by rw [rolled]; rfl)
          rw [rolled] at taken
          cases taken
          exact ⟨same.dir, same.watermark.trans_le (before.trans same.ends.ge)⟩
      | returned done middle =>
          have same := @roll_keeps_ends log middle rollMs (by rw [rolled]; rfl)
          have bounded := same.watermark.trans_le (before.trans same.ends.ge)
          rw [rolled] at taken
          simp only at taken
          split at taken
          · cases taken
            exact ⟨same.dir, bounded⟩
          · split at taken
            · cases taken
              exact ⟨same.dir, bounded⟩
            · cases taken
              exact ⟨same.dir, le_rfl⟩
  | maybeRoll nowMs =>
      have same := roll_keeps_ends taken
      exact ⟨same.dir, same.watermark.trans_le (before.trans same.ends.ge)⟩
  | applyRetention nowMs =>
      obtain ⟨count, graveyard, buried⟩ := retention_buries log nowMs
      cases taken
      rw [buried]
      exact ⟨rfl, before⟩
  | sweepGraveyard nowMs =>
      cases taken
      exact ⟨rfl, before⟩
  | clean maxKeyMapEntries firstDirtyOffset nowMs =>
      obtain ⟨rules, front, back, _, cleaned, graveyard, nextFd, _, swapped⟩ :=
        clean_log_passes holds.toCleanable maxKeyMapEntries firstDirtyOffset nowMs
      cases taken
      rw [swapped]
      exact ⟨rfl, before⟩
  | reopen fallback clockMs =>
      simp only [Log.step] at taken
      cases opened : Log.open log.tp log.dir log.files fallback clockMs with
      | error failure => simp [opened] at taken
      | ok reopened =>
          simp only [opened, Option.some.injEq] at taken
          obtain ⟨dir, ends⟩ := open_ends opened
          exact taken ▸ ⟨dir, ends.le⟩

theorem truncated_keeps (holds : TruncatedHolds log) {offset clockMs : Int}
    (taken : (log.truncateTo offset clockMs).log = some next) :
    TruncatedHolds next ∧ next.dir = log.dir ∧ next.config = log.config ∧ next.sealedMap <+: log.sealedMap := by
  by_cases whole : log.logEndOffset ≤ offset
  · rw [Log.truncateTo, if_pos whole] at taken
    cases taken
    exact ⟨holds, rfl, rfl, List.prefix_refl _⟩
  · have inside := Int.not_le.mp whole
    obtain ⟨base, front, held, behind, kept, cut, keptAt, ends, _⟩ :=
      cut_somewhere holds.toLogSettled inside clockMs
    cases ends with
    | ruined refused threw => simp [threw, Outcome.log] at taken
    | returned settled based policy left =>
        rw [left] at taken
        cases taken
        exact ⟨(cut_holds holds cut keptAt settled based policy inside rfl).1, rfl, rfl, cut.sealedMap⟩

theorem truncated_step (holds : TruncatedHolds log) {action : TruncatingAction}
    (admits : TruncatingAdmits log action) (taken : truncatingStep action log = some next) :
    TruncatedHolds next := by
  cases action with
  | on action =>
      obtain ⟨cleanable, settled⟩ := cleanable_step holds.toCleanable holds.toLogSettled admits taken
      exact { cleanable with
        settled := settled.settled
        watermark := (step_keeps_watermark holds taken).2 }
  | truncateTo offset clockMs => exact (truncated_keeps holds taken).1

theorem created_truncated {tp : TopicPartition} {dir : String} {config : LogConfig} {created : Log}
    (named : StorableName tp) (storable : config.Storable)
    (room : config.roll.indexIntervalBytes + 2 ^ 31 + 12 ≤ 2 ^ 32)
    (made : Log.create tp dir config = .ok created) : TruncatedHolds created ∧ created.sealedMap = [] := by
  obtain ⟨cleanable, settled⟩ := cleanable_reached named storable room made .start
  obtain ⟨active, _, isCreated⟩ := except_bind_ok made
  cases Except.ok.inj isCreated
  exact ⟨{ cleanable with settled := settled.settled, watermark := le_rfl }, rfl⟩

end Runs

/-- Whatever is appended, rolled, retained, swept, cleaned, reopened and
truncated: a truncation leaves exactly the batches that end below its offset, all
of them readable, if and only if those it has to keep in the segment that it
promotes continue each other and an index takes them. -/
theorem truncation_keeps_what_ends_below {tp : TopicPartition} {dir : String} {config : LogConfig}
    {created final : Log} (named : StorableName tp) (storable : config.Storable)
    (room : config.roll.indexIntervalBytes + 2 ^ 31 + 12 ≤ 2 ^ 32)
    (made : Log.create tp dir config = .ok created)
    (reached : GuardedRun.Reaches truncatingStep TruncatingAdmits created final) (offset clockMs : Int) :
    (∃ after, final.truncateTo offset clockMs = .returned () after ∧ final.TruncatesWell offset after) ↔
      final.CutsInSequence offset := by
  have holds := reached.invariant _ _ TruncatedHolds (created_truncated named storable room made).1
    fun _ _ _ before admits taken => truncated_step before admits taken
  exact truncates_well_iff holds offset clockMs

def TruncatingAction.Uncleaned : TruncatingAction → Prop
  | .on (.clean _ _ _) => False
  | _ => True

def Log.AsWritten (log : Log) : Prop :=
  ∀ segment ∈ log.sealedMap, Continued log.dir log.config.roll segment.baseOffset (batchesIn segment)

section AsWritten

variable {log next : Log}

theorem Log.AsWritten.cutsInSequence (written : log.AsWritten) (offset : Int) : log.CutsInSequence offset := by
  intro _ _ last isLast
  have survives : last ∈ log.sealedMap := (List.takeWhile_prefix _).subset (List.mem_of_getLast? isLast)
  obtain ⟨consecutive, built, fresh, created, all⟩ := written last survives
  have first := ending_below_front consecutive.ascending offset
  obtain ⟨earlier, isEarlier⟩ := index_all_front first all
  exact ⟨consecutive_front first consecutive, earlier, fresh, created, isEarlier⟩

theorem written_step (holds : TruncatedHolds log) (written : log.AsWritten) {action : TruncatingAction}
    (admits : TruncatingAdmits log action) (uncleaned : action.Uncleaned)
    (taken : truncatingStep action log = some next) : next.AsWritten := by
  cases action with
  | truncateTo offset clockMs =>
      obtain ⟨_, dir, config, front⟩ := truncated_keeps holds taken
      intro segment member
      rw [dir, config]
      exact written segment (front.subset member)
  | on action =>
      have plain : action.Plain := by
        cases action with
        | append batchBytes rollMs clockMs fault => exact ⟨admits.1.toIntactBatch, admits.2.1⟩
        | clean => exact uncleaned.elim
        | maybeRoll | applyRetention | sweepGraveyard | reopen => trivial
      obtain ⟨_, moves, config⟩ := settled_step holds.toLogSettled plain taken
      have roll : next.config.roll = log.config.roll := by
        rcases config with same | same <;> simp only [same, LogConfig.reloaded]
      intro segment member
      rw [(step_keeps_watermark holds taken).1, roll]
      cases moves with
      | kept same => exact written segment (same ▸ member)
      | rolled _ made active rolled grown =>
          rw [grown] at member
          rcases List.mem_append.mp member with old | new
          · exact written segment old
          · rw [List.mem_singleton.mp new, (rolled_batches rolled).1, rolled.base, ← holds.policy]
            exact ⟨holds.settled.consecutive, _, holds.settled.plain⟩
      | buried count dropped => exact written segment (List.mem_of_mem_drop (dropped ▸ member))
      | reopened same =>
          obtain ⟨original, isOriginal, both⟩ := same_member same member
          rw [same_batches_in both, both.base]
          exact written original isOriginal

end AsWritten

theorem uncleaned_truncates_well {tp : TopicPartition} {dir : String} {config : LogConfig}
    {created final : Log} (named : StorableName tp) (storable : config.Storable)
    (room : config.roll.indexIntervalBytes + 2 ^ 31 + 12 ≤ 2 ^ 32)
    (made : Log.create tp dir config = .ok created)
    (reached : GuardedRun.Reaches truncatingStep
      (fun log action => TruncatingAdmits log action ∧ action.Uncleaned) created final) (offset clockMs : Int) :
    ∃ after, final.truncateTo offset clockMs = .returned () after ∧ final.TruncatesWell offset after := by
  obtain ⟨holds, unsealed⟩ := created_truncated named storable room made
  have kept := reached.invariant _ _ (fun log => TruncatedHolds log ∧ log.AsWritten)
    ⟨holds, by simp [Log.AsWritten, unsealed]⟩ fun _ _ _ ⟨before, written⟩ ⟨admits, uncleaned⟩ taken =>
      ⟨truncated_step before admits taken, written_step before written admits uncleaned taken⟩
  exact (truncates_well_iff kept.1 offset clockMs).mpr (kept.2.cutsInSequence offset)

instance (log : Log) (action : TruncatingAction) : Decidable (TruncatingAdmits log action) :=
  match action with
  | .on action => inferInstanceAs (Decidable (log.Admits action))
  | .truncateTo _ _ => inferInstanceAs (Decidable True)

/-- An offset inside the first of two segments: the first batch is kept. -/
theorem truncation_keeps_first_batch :
    ∃ log after : Log, log.batches.length = 5 ∧ log.truncateTo 1 0 = .returned () after ∧
      log.TruncatesWell 1 after := by
  obtain ⟨created, final, made, reached, checked⟩ := found_from_creation truncatingStep TruncatingAdmits id
    ⟨[116], 0⟩ "data/t-0" { twoBatchConfig with cleanup := .compact }
    (fun log => decide (log.CutsInSequence 1 ∧ log.batches.length = 5))
    ((fiveRecords [97, 98, 97, 99, 100]).map .on ++ [.truncateTo 9 0]) (by decide +kernel)
  obtain ⟨inSequence, five⟩ := of_decide_eq_true checked
  have named : StorableName ⟨[116], 0⟩ := ⟨by decide, by decide, by decide, by decide⟩
  have storable : ({ twoBatchConfig with cleanup := .compact } : LogConfig).Storable :=
    { storable_two_batch_config with }
  obtain ⟨after, returned, well⟩ :=
    (truncation_keeps_what_ends_below named storable (by decide) made reached 1 0).mpr inSequence
  exact ⟨final, after, five, returned, well⟩

/-- A pass takes the first record of a segment, and a truncation the second one
that is below its offset. -/
theorem truncation_drops_behind_a_hole :
    ¬ ∀ (created final : Log) (offset clockMs : Int),
      Log.create ⟨[116], 0⟩ "data/t-0" { twoBatchConfig with cleanup := .compact } = .ok created →
      GuardedRun.Reaches truncatingStep TruncatingAdmits created final → final.logStartOffset ≤ offset →
      ∃ after, final.truncateTo offset clockMs = .returned () after ∧ final.TruncatesWell offset after := by
  intro all
  obtain ⟨created, final, made, reached, checked⟩ := found_from_creation truncatingStep TruncatingAdmits id
    ⟨[116], 0⟩ "data/t-0" { twoBatchConfig with cleanup := .compact }
    (fun log => decide (log.logStartOffset ≤ 2 ∧ (endingBelow 2 log.batches).length = 1 ∧
      (log.truncateTo 2 0).log.map Log.batches = some []))
    ((fiveRecords [97, 98, 97, 99, 100] ++ [LogAction.clean 10 0 0]).map .on) (by decide +kernel)
  obtain ⟨starts, one, empty⟩ := of_decide_eq_true checked
  obtain ⟨after, returned, well⟩ := all created final 2 0 made reached starts
  rw [returned] at empty
  have none : after.batches = [] := Option.some.inj empty
  rw [← well.batches, none] at one
  cases one

end DariyaKyu.Storage

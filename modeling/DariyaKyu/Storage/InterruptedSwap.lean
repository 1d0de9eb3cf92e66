import DariyaKyu.Storage.Landing

/-!
A swap of a cleaned segment that stops on the way. Its two renames are separate
steps, so a crash between them leaves the new `.log` beside the old `.index`.
The log in memory still has the old segment open; a later open gets whatever
the directory pairs.
-/

namespace DariyaKyu.Storage

set_option autoImplicit false

/-- The step of a swap that fails, or in front of which the process crashes. -/
inductive SwapStop where
  | firstRename
  | secondRename
  | reopen
  deriving DecidableEq, Repr

/-- What is left under the names of a segment's files. -/
def SwapStop.leaves (stop : SwapStop) (baseOffset : Int) (cleaned : CleanedSegment) (files : SegmentFiles) :
    SegmentFiles :=
  if files.baseOffset = baseOffset then
    match stop with
    | .firstRename => files
    | .secondRename => { files with bytes := cleaned.log }
    | .reopen => { files with bytes := cleaned.log, index := some cleaned.index }
  else files

namespace Log

/-- `Log::replaceSegment` when it stops: it throws before it touches the map, and
the renames up to there have happened. -/
def replaceSegmentStopping (log : Log) (baseOffset : Int) (cleaned : CleanedSegment) (stop : SwapStop)
    (failure : Error) : Outcome Bool × PartitionDir :=
  match log.sealedMap.find? (·.baseOffset == baseOffset) with
  | none => (.returned false log, log.files)
  | some _ =>
      (.threw failure log,
        { log.files with segments := log.files.segments.map (stop.leaves baseOffset cleaned) })

/-- The log that lived through the stop, and one opened from what it left, serve
the whole old segment or the whole new one. -/
def SurvivesSwap (log : Log) (baseOffset : Int) (cleaned : CleanedSegment) (stop : SwapStop)
    (failure : Error) (nowMs : Int) (fallback : LogConfig) (clockMs : Int) : Prop :=
  ∃ memory left swapped reopened,
    log.replaceSegmentStopping baseOffset cleaned stop failure = (.threw failure memory, left) ∧
    log.replaceSegment baseOffset cleaned.log cleaned.index nowMs = .returned true swapped ∧
    Log.open log.tp log.dir left fallback clockMs = .ok reopened ∧
    (memory.ServesAs log ∨ memory.ServesAs swapped) ∧
    (reopened.ServesAs log ∨ reopened.ServesAs swapped)

end Log

/-- The hole check of a compacted log passes when no segment ends behind the
next one's base. -/
theorem check_contiguity_compacted (dir : String) {config : LogConfig} (compacts : config.compacted = true)
    {newest : Int} {opened segments : List SealedSegment}
    (shorter : List.Forall₂ (fun opened segment => opened.baseOffset = segment.baseOffset ∧
      opened.nextOffset ≤ segment.nextOffset) opened segments)
    (linked : Linked (· ≤ ·) newest segments) : checkContiguity dir config newest opened = .ok () := by
  induction shorter with
  | nil => rfl
  | cons here behind ih =>
      obtain ⟨_, ends, later⟩ := linked
      have base : ∀ {opened segments : List SealedSegment},
          List.Forall₂ (fun opened segment => opened.baseOffset = segment.baseOffset ∧
            opened.nextOffset ≤ segment.nextOffset) opened segments →
          (opened.head?.map (·.baseOffset)).getD newest = nextBase newest segments := by
        intro opened segments alike
        cases alike with
        | nil => rfl
        | cons first _ => exact first.1
      have meets := here.2.trans ends
      have notBroken : decide (nextBase newest _ < _) = false := decide_eq_false (Int.not_lt.mpr meets)
      simp only [checkContiguity, compacts, if_true, base behind, notBroken, Bool.false_eq_true, if_false]
      exact ih later

/-- What a cleaned pair holds: batches in order that end no higher than before. -/
structure CleanedPair (segment : SealedSegment) (cleaned : CleanedSegment) (news : List Bytes) : Prop where
  intact : ∀ batch ∈ news, IntactBatch batch
  bytes : cleaned.log = news.flatten
  ascending : Ascending segment.baseOffset news
  ends : endOffset segment.baseOffset news ≤ segment.nextOffset
  based : cleaned.index.baseOffset = segment.baseOffset
  named : ∀ entry ∈ cleaned.index.entries, NamesBatch segment.baseOffset news entry

section Swap

variable {log : Log} {segment : SealedSegment} {rules : RetainRules} {cleaned : CleanedSegment}
  {news : List Bytes}

theorem cleaned_pair (cleanable : Cleanable log) (member : segment ∈ log.sealedMap)
    (rewrote : rewriteSegment log.dir segment.log.bytes segment.baseOffset log.config.roll rules =
      .ok cleaned) : ∃ news, CleanedPair segment cleaned news := by
  have holds := cleanable.sealedHolds segment member
  obtain ⟨news, rewritten, bytes, based, named, _⟩ :=
    rewrite_segment_spec (scan_sealed holds) (.inl cleanable.room) (cleanable.sealedBounded member) rewrote
  obtain ⟨ascending, ends⟩ := rewritten.ascending holds.ascending le_rfl
  exact ⟨news, rewritten.intact, bytes, ascending, holds.ends ▸ ends, based, named⟩

theorem CleanedPair.opens (pair : CleanedPair segment cleaned news) (fd : Int) (path : String) :
    ∃ replacement, SealedSegment.open fd path segment.baseOffset cleaned.log (some cleaned.index) =
        .ok replacement ∧ SealedHolds replacement news ∧ replacement.baseOffset = segment.baseOffset ∧
      replacement.log.bytes = cleaned.log ∧ replacement.index.entries = cleaned.index.entries := by
  obtain ⟨opened, holds⟩ :=
    open_sealed_spec (holds_contents pair.intact pair.bytes fd path) pair.ascending pair.based pair.named
  exact ⟨_, opened, holds, rfl, rfl, rfl⟩

def Log.withReplacement (log : Log) (segment replacement : SealedSegment) (nowMs : Int) : Log :=
  { log with
    sealedMap := log.sealedMap.map fun other =>
      if other.baseOffset = segment.baseOffset then replacement else other
    graveyard := log.graveyard ++ [⟨segment, nowMs⟩]
    nextFd := log.nextFd + 1 }

theorem found_in_map (holds : LogHolds log) (member : segment ∈ log.sealedMap) :
    log.sealedMap.find? (·.baseOffset == segment.baseOffset) = some segment ∧
      (∀ other ∈ log.sealedMap, other.baseOffset = segment.baseOffset → other = segment) ∧
      log.active.baseOffset ≠ segment.baseOffset := by
  obtain ⟨ahead, behind, split⟩ := List.append_of_mem member
  obtain ⟨front, back⟩ := linked_distinct (split ▸ holds.linked)
  have below := linked_below holds.linked member
  refine ⟨split ▸ find_in_order front, ?_, by omega⟩
  intro other inside same
  rw [split] at inside
  rcases List.mem_append.mp inside with earlier | later
  · exact absurd same (front other earlier)
  · rcases List.mem_cons.mp later with here | behindIt
    · exact here
    · exact absurd same (back other behindIt)

theorem swap_stopped (holds : LogHolds log) (member : segment ∈ log.sealedMap) (stop : SwapStop)
    (failure : Error) :
    log.replaceSegmentStopping segment.baseOffset cleaned stop failure =
      (.threw failure log,
        ⟨log.partitionMeta,
          log.sealedMap.map (fun other => stop.leaves segment.baseOffset cleaned other.files) ++
            [log.active.toSegmentBase.files]⟩) := by
  obtain ⟨found, _, apart⟩ := found_in_map holds member
  have active : stop.leaves segment.baseOffset cleaned log.active.toSegmentBase.files =
      log.active.toSegmentBase.files := if_neg apart
  simp only [Log.replaceSegmentStopping, found, Log.files, List.map_append, List.map_map, List.map_cons,
    List.map_nil, active]
  rfl

theorem swap_completed (holds : LogHolds log) (member : segment ∈ log.sealedMap)
    (pair : CleanedPair segment cleaned news) (nowMs : Int) :
    ∃ replacement, log.replaceSegment segment.baseOffset cleaned.log cleaned.index nowMs =
        .returned true (log.withReplacement segment replacement nowMs) ∧
      SealedHolds replacement news ∧ replacement.baseOffset = segment.baseOffset ∧
      replacement.log.bytes = cleaned.log ∧ replacement.index.entries = cleaned.index.entries := by
  obtain ⟨found, _, _⟩ := found_in_map holds member
  obtain ⟨replacement, opened, rest⟩ :=
    pair.opens log.nextFd (segmentLogPath log.dir segment.baseOffset)
  refine ⟨replacement, ?_, rest⟩
  simp only [Log.replaceSegment, found, opened, Log.withReplacement]

/-- Startup opens what a stopped swap left under each name, and what it opens
serves the old segment or the new one. -/
theorem left_opens (holds : LogHolds log) (member : segment ∈ log.sealedMap)
    (pair : CleanedPair segment cleaned news) {replacement : SealedSegment}
    (replacementHolds : SealedHolds replacement news) (base : replacement.baseOffset = segment.baseOffset)
    (bytes : replacement.log.bytes = cleaned.log)
    (entries : replacement.index.entries = cleaned.index.entries) {stop : SwapStop}
    (leads : stop = .secondRename → segment.index.LeadsInto cleaned.log) :
    ∀ other ∈ log.sealedMap, ∀ fd : Nat, ∃ opened,
      SealedSegment.open fd
          (segmentLogPath log.dir (stop.leaves segment.baseOffset cleaned other.files).baseOffset)
          (stop.leaves segment.baseOffset cleaned other.files).baseOffset
          (stop.leaves segment.baseOffset cleaned other.files).bytes
          (stop.leaves segment.baseOffset cleaned other.files).index = .ok opened ∧
        (opened.baseOffset = other.baseOffset ∧ opened.nextOffset ≤ other.nextOffset) ∧
        opened.ServesAs (if stop = .firstRename then other
          else if other.baseOffset = segment.baseOffset then replacement else other) := by
  obtain ⟨_, unique, _⟩ := found_in_map holds member
  intro other inside fd
  have otherHolds := holds.sealedHolds other inside
  -- a segment whose files are as they were
  have untouched : ∃ opened, SealedSegment.open fd (segmentLogPath log.dir other.baseOffset)
        other.baseOffset other.log.bytes (some other.index) = .ok opened ∧
      (opened.baseOffset = other.baseOffset ∧ opened.nextOffset ≤ other.nextOffset) ∧
      opened.ServesAs other := by
    obtain ⟨opened, isOpen, openedHolds, same, _⟩ :=
      reopen_sealed_spec otherHolds fd (segmentLogPath log.dir other.baseOffset)
    exact ⟨opened, isOpen, ⟨same.base, same.next.le⟩,
      held_serves_as openedHolds.toSegmentHolds otherHolds.toSegmentHolds same.base same.size
        (by rw [same.bytes, same.size])⟩
  by_cases here : other.baseOffset = segment.baseOffset
  · have isSegment := unique other inside here
    subst isSegment
    -- the new file with either index
    have swapped : ∀ index : OffsetIndex, index.baseOffset = other.baseOffset →
        index.LeadsInto cleaned.log →
        (∀ entry ∈ index.entries, other.baseOffset + entry.relativeOffset ≤ other.nextOffset) →
        ∃ opened, SealedSegment.open fd (segmentLogPath log.dir other.baseOffset) other.baseOffset
            cleaned.log (some index) = .ok opened ∧
          (opened.baseOffset = other.baseOffset ∧ opened.nextOffset ≤ other.nextOffset) ∧
          opened.ServesAs replacement := by
      intro index based leads below
      have file := holds_contents pair.intact pair.bytes fd (segmentLogPath log.dir other.baseOffset)
      have above := (linked_below holds.linked inside).1.le
      obtain ⟨opened, isOpen, low⟩ := open_leading file based leads above pair.ends below
      obtain ⟨openBase, openLog, openIndex⟩ := open_sealed_keeps isOpen
      refine ⟨opened, isOpen, ⟨openBase, low⟩, ?_⟩
      have replacementLeads := held_leads replacementHolds
      apply leading_serves_as replacementHolds.toHoldsBatches replacementHolds.full
      · rw [openLog]
        rfl
      · rw [openLog, bytes]
        rfl
      · rw [openBase, base]
      · rw [openIndex, openBase]
        exact based
      · exact replacementHolds.based
      · rw [openIndex, openLog]
        exact leads
      · exact replacementLeads
    cases stop with
    | firstRename =>
        simp only [SwapStop.leaves, ite_self, if_true]
        exact untouched
    | secondRename =>
        simp only [SwapStop.leaves, SegmentBase.files, if_true, reduceCtorEq, if_false]
        apply swapped other.index otherHolds.based (leads rfl)
        intro entry entryMember
        exact (entries_later otherHolds entry entryMember).2.le
    | reopen =>
        simp only [SwapStop.leaves, SegmentBase.files, if_true, reduceCtorEq, if_false]
        have cleanedLeads := held_leads replacementHolds
        unfold OffsetIndex.LeadsInto at cleanedLeads
        rw [entries, bytes, replacementHolds.based, base, ← pair.based] at cleanedLeads
        apply swapped cleaned.index pair.based cleanedLeads
        intro entry entryMember
        rw [← entries] at entryMember
        have later := (entries_later replacementHolds entry entryMember).2
        have ends := pair.ends
        rw [replacementHolds.ends, base] at later
        omega
  · have asBefore : stop.leaves segment.baseOffset cleaned other.files = other.files := if_neg here
    rw [asBefore, if_neg here, ite_self]
    exact untouched

/-- With an index that leads into the new file, or past the point where it would
have to, a stopped swap does no harm. -/
theorem swap_survived (settled : LogSettled log) (compacts : log.config.compacted = true)
    (member : segment ∈ log.sealedMap) (pair : CleanedPair segment cleaned news) {stop : SwapStop}
    (leads : stop = .secondRename → segment.index.LeadsInto cleaned.log) (failure : Error) (nowMs : Int)
    (fallback : LogConfig) (clockMs : Int) :
    log.SurvivesSwap segment.baseOffset cleaned stop failure nowMs fallback clockMs := by
  have holds := settled.toLogHolds
  obtain ⟨replacement, completed, replacementHolds, base, bytes, entries⟩ :=
    swap_completed holds member pair nowMs
  obtain ⟨opened, isOpened, each⟩ := @open_sealed_each _ log.dir _ _ _
    (left_opens holds member pair replacementHolds base bytes entries leads) 0
  obtain ⟨partitionMeta, active, _, activeSettled, activeBase, _, next, isOpen⟩ :=
    open_from holds settled.endsClean isOpened fallback clockMs
  have checked := @check_contiguity_compacted log.dir log.config.reloaded compacts _ _ _
    (each.imp fun _ _ both => both.1) holds.linked
  rw [checked, except_ok_bind] at isOpen
  refine ⟨log, _, _, _, swap_stopped holds member stop failure, completed, isOpen,
    .inl (log_serves_itself holds), ?_⟩
  have ends : active.nextOffset = log.logEndOffset := by rw [next, ← holds.ends]
  have activeServes : active.toSegmentBase.ServesAs log.active.toSegmentBase := by
    apply held_serves_as activeSettled.segmentHolds holds.activeHolds.segmentHolds activeBase
    · rw [activeSettled.tight, settled.settled.tight]
    · rw [activeSettled.whole, settled.settled.whole, activeSettled.tight, settled.settled.tight]
  have serves := each.imp fun _ _ both => both.2
  by_cases first : stop = .firstRename
  · left
    apply log_serves_as ends activeServes
    simp only [first, if_true] at serves
    exact serves
  · right
    apply log_serves_as ends activeServes
    simp only [first, if_false] at serves
    exact List.forall₂_map_right_iff.mpr serves

theorem serve_routed (below : log.active.baseOffset ≤ log.logEndOffset) {offset : Int}
    (ahead : offset < log.active.baseOffset) {found : SealedSegment}
    (routed : log.routed offset = some found) (maxBytes : Nat) :
    log.serve offset maxBytes = (found.serve offset maxBytes).map (ReadError.none, ·) := by
  have notActive : ¬ log.active.baseOffset ≤ offset := by omega
  rw [serve_owner log (by omega)]
  simp only [Log.owner, notActive, if_false, routed]

theorem opened_each {dir : String} {files : SealedSegment → SegmentFiles} {items opened : List SealedSegment}
    {fd : Nat} (isOpened : openSealedSegments dir fd (items.map files) = .ok opened) :
    List.Forall₂ (fun opened item => ∃ fd : Nat,
      SealedSegment.open fd (segmentLogPath dir (files item).baseOffset) (files item).baseOffset
        (files item).bytes (files item).index = .ok opened) opened items := by
  induction items generalizing fd opened with
  | nil =>
      cases isOpened
      exact .nil
  | cons item items ih =>
      simp only [List.map_cons, openSealedSegments] at isOpened
      obtain ⟨first, here, isOpened⟩ := except_bind_ok isOpened
      obtain ⟨rest, behind, made⟩ := except_bind_ok isOpened
      cases made
      exact .cons ⟨fd, here⟩ (ih behind)

structure HalfSwapped (segment : SealedSegment) (cleaned : CleanedSegment) (mixed : SealedSegment) : Prop where
  base : mixed.baseOffset = segment.baseOffset
  file : ∃ fd path, mixed.log = FileHandle.ofContents fd path cleaned.log
  index : mixed.index = segment.index.openSealed

theorem HalfSwapped.bytes {mixed : SealedSegment} (halfSwapped : HalfSwapped segment cleaned mixed) :
    mixed.log.bytes = cleaned.log ∧ mixed.log.size = mixed.log.bytes.length := by
  obtain ⟨fd, path, file⟩ := halfSwapped.file
  rw [file]
  exact ⟨rfl, rfl⟩

theorem HalfSwapped.indexBased {mixed : SealedSegment} (halfSwapped : HalfSwapped segment cleaned mixed)
    (based : segment.index.baseOffset = segment.baseOffset) :
    mixed.index.baseOffset = mixed.baseOffset := by
  rw [halfSwapped.index, halfSwapped.base]
  exact based

theorem half_swapped_leaves (other : SealedSegment) :
    SwapStop.secondRename.leaves segment.baseOffset cleaned other.files =
      ⟨other.baseOffset, if other.baseOffset = segment.baseOffset then cleaned.log else other.log.bytes,
        some other.index⟩ := by
  by_cases here : other.baseOffset = segment.baseOffset <;>
    simp [SwapStop.leaves, SegmentBase.files, here]

theorem half_swapped_serves (settled : LogSettled log) (member : segment ∈ log.sealedMap)
    {fallback : LogConfig} {clockMs : Int} {reopened : Log}
    (isOpen : Log.open log.tp log.dir
      ⟨log.partitionMeta,
        log.sealedMap.map (fun other => SwapStop.secondRename.leaves segment.baseOffset cleaned other.files) ++
          [log.active.toSegmentBase.files]⟩ fallback clockMs = .ok reopened)
    {offset : Int} (starts : segment.baseOffset ≤ offset) (ends : offset < segment.nextOffset)
    (maxBytes : Nat) :
    ∃ mixed, HalfSwapped segment cleaned mixed ∧
      reopened.serve offset maxBytes = (mixed.serve offset maxBytes).map (ReadError.none, ·) := by
  have holds := settled.toLogHolds
  obtain ⟨ahead, behind, split⟩ := List.append_of_mem member
  have bounds := linked_behind (split ▸ holds.linked)
  have routed := routed_to holds.linked split starts (by omega)
  cases isOpened : openSealedSegments log.dir 0 (log.sealedMap.map fun other =>
      SwapStop.secondRename.leaves segment.baseOffset cleaned other.files) with
  | error failure =>
      rw [Log.open, List.getLast?_concat] at isOpen
      simp only [List.dropLast_concat, isOpened] at isOpen
      cases isOpen
  | ok opened =>
      obtain ⟨partitionMeta, active, _, activeSettled, base, _, next, again⟩ :=
        open_from holds settled.endsClean isOpened fallback clockMs
      rw [again] at isOpen
      obtain ⟨_, _, made⟩ := except_bind_ok isOpen
      have same := Except.ok.inj made
      have mapIs : reopened.sealedMap = opened := by rw [← same, Log.ofSegments]
      have activeIs : reopened.active = active := by rw [← same, Log.ofSegments]
      have endIs : reopened.logEndOffset = active.nextOffset := by rw [← same, Log.ofSegments]
      have logEnd := start_le_end activeSettled.consecutive.ascending
      rw [← activeSettled.ends, ← endIs, ← activeIs] at logEnd
      have each := opened_each isOpened
      simp only [half_swapped_leaves] at each
      rw [← mapIs] at each
      have routes := routed_alike each
        (by
          rintro one other ⟨fd, isOne⟩
          exact (open_sealed_keeps isOne).1)
        offset
      rw [routed] at routes
      cases found : reopened.routed offset with
      | none =>
          rw [found] at routes
          cases routes
      | some mixed =>
          rw [found] at routes
          cases routes with
          | some related =>
              obtain ⟨fd, isMixed⟩ := related
              obtain ⟨mixedBase, mixedLog, mixedIndex⟩ := open_sealed_keeps isMixed
              simp only [if_true] at mixedLog
              refine ⟨mixed, ⟨mixedBase, ⟨_, _, mixedLog⟩, mixedIndex⟩, ?_⟩
              refine serve_routed logEnd ?_ found maxBytes
              rw [activeIs, base]
              omega

/-- If the half-swapped pair is served as the new segment, the old entries lead
into the new file. -/
theorem leads_of_new (settled : LogSettled log) (member : segment ∈ log.sealedMap)
    {replacement : SealedSegment} (replacementHolds : SealedHolds replacement news)
    (base : replacement.baseOffset = segment.baseOffset) (bytes : replacement.log.bytes = cleaned.log)
    {nowMs : Int} {reopened : Log}
    (half : ∀ offset maxBytes, segment.baseOffset ≤ offset → offset < segment.nextOffset →
      ∃ mixed, HalfSwapped segment cleaned mixed ∧
        reopened.serve offset maxBytes = (mixed.serve offset maxBytes).map (ReadError.none, ·))
    (serves : reopened.ServesAs (log.withReplacement segment replacement nowMs)) :
    segment.index.LeadsInto cleaned.log := by
  have holds := settled.toLogHolds
  have segmentHolds := holds.sealedHolds segment member
  obtain ⟨ahead, behind, split⟩ := List.append_of_mem member
  have bounds := linked_behind (split ▸ holds.linked)
  have logEnd := start_le_end holds.activeHolds.consecutive.ascending
  rw [← holds.activeHolds.ends, ← holds.ends] at logEnd
  intro entry entryMember
  obtain ⟨_, later⟩ := entries_later segmentHolds entry entryMember
  have starts : segment.baseOffset ≤ segment.baseOffset + entry.relativeOffset := by omega
  obtain ⟨mixed, halfSwapped, reads⟩ := half _ cleaned.log.length starts later
  obtain ⟨answer, reopenedServes, newServes⟩ :=
    serves (segment.baseOffset + entry.relativeOffset) cleaned.log.length
  obtain ⟨found, lands⟩ := landing_front replacementHolds.full replacementHolds.toHoldsBatches
    (segment.baseOffset + entry.relativeOffset)
  -- the completed swap routes the offset to the replacement
  have routed : (log.withReplacement segment replacement nowMs).routed
      (segment.baseOffset + entry.relativeOffset) = some replacement := by
    have routes := @routed_alike (log.withReplacement segment replacement nowMs) log
      (fun one other => one = if other.baseOffset = segment.baseOffset then replacement else other)
      (List.forall₂_map_left_iff.mpr (List.forall₂_same.mpr fun _ _ => rfl))
      (by
        rintro one other rfl
        split
        · next here => rw [here, base]
        · rfl)
      (segment.baseOffset + entry.relativeOffset)
    rw [routed_to holds.linked split starts (by omega)] at routes
    cases found : (log.withReplacement segment replacement nowMs).routed
        (segment.baseOffset + entry.relativeOffset) with
    | none =>
        rw [found] at routes
        cases routes
    | some other =>
        rw [found] at routes
        cases routes with
        | some isIt => rw [isIt, if_pos rfl]
  have ahead_ : segment.baseOffset + entry.relativeOffset < log.active.baseOffset := by omega
  rw [@serve_routed (log.withReplacement segment replacement nowMs) logEnd _ ahead_ _ routed,
    serve_leading replacementHolds.full replacementHolds.based (held_leads replacementHolds)
      (by rw [base]; exact starts), lands] at newServes
  rw [reads] at reopenedServes
  rw [← newServes] at reopenedServes
  have served := map_ok_eq (fun _ _ same => (Prod.mk.inj same).2) reopenedServes
  obtain ⟨mixedBytes, mixedFull⟩ := halfSwapped.bytes
  rw [bytes, ← mixedBytes, ← halfSwapped.base] at lands served
  have leads := lands_of_serving mixedFull (halfSwapped.indexBased segmentHolds.based)
    (by rw [halfSwapped.index]; exact entryMember) lands served
  rw [segmentHolds.based, ← halfSwapped.base, ← mixedBytes]
  exact leads

theorem leads_of_old (settled : LogSettled log) (member : segment ∈ log.sealedMap)
    (pair : CleanedPair segment cleaned news) {reopened : Log}
    (half : ∀ offset maxBytes, segment.baseOffset ≤ offset → offset < segment.nextOffset →
      ∃ mixed, HalfSwapped segment cleaned mixed ∧
        reopened.serve offset maxBytes = (mixed.serve offset maxBytes).map (ReadError.none, ·))
    (serves : reopened.ServesAs log) : segment.index.LeadsInto cleaned.log := by
  have holds := settled.toLogHolds
  have segmentHolds := holds.sealedHolds segment member
  obtain ⟨ahead, behind, split⟩ := List.append_of_mem member
  have bounds := linked_behind (split ▸ holds.linked)
  have spans := (linked_below holds.linked member).1
  have logEnd := start_le_end holds.activeHolds.consecutive.ascending
  rw [← holds.activeHolds.ends, ← holds.ends] at logEnd
  obtain ⟨maxBytes, oldFits, newFits⟩ : ∃ maxBytes, segment.log.bytes.length ≤ maxBytes ∧
      cleaned.log.length ≤ maxBytes := ⟨_, le_max_left _ _, le_max_right _ _⟩
  obtain ⟨mixed, halfSwapped, reads⟩ := half segment.baseOffset maxBytes (Int.le_refl _) spans
  obtain ⟨answer, reopenedServes, oldServes⟩ := serves segment.baseOffset maxBytes
  have occupied : batchesIn segment = [] → segment.log.bytes = [] := by
    intro none
    rw [segmentHolds.ends, none] at spans
    exact absurd spans (Int.lt_irrefl _)
  have oldWhole := serve_base segmentHolds.toHoldsBatches segmentHolds.full segmentHolds.ascending occupied
    segmentHolds.based (fun entry inside => (entries_later segmentHolds entry inside).1) oldFits
  obtain ⟨fd, path, file⟩ := halfSwapped.file
  obtain ⟨mixedBytes, mixedFull⟩ := halfSwapped.bytes
  have mixedHolds : HoldsBatches mixed.log news := by
    rw [file]
    exact holds_contents pair.intact pair.bytes fd path
  have emptied : news = [] → mixed.log.bytes = [] := by
    intro none
    rw [mixedBytes, pair.bytes, none]
    rfl
  have newWhole := serve_base mixedHolds mixedFull (by rw [halfSwapped.base]; exact pair.ascending) emptied
    (halfSwapped.indexBased segmentHolds.based)
    (by
      rw [halfSwapped.index]
      exact fun entry inside => (entries_later segmentHolds entry inside).1)
    (mixedBytes ▸ newFits)
  rw [halfSwapped.base, mixedBytes] at newWhole
  rw [reads, newWhole] at reopenedServes
  rw [serve_routed logEnd (by omega) (routed_to holds.linked split (Int.le_refl _) (by omega)), oldWhole,
    ← reopenedServes] at oldServes
  have same : segment.log.bytes = cleaned.log := by
    simpa [Except.map] using oldServes
  rw [← same]
  exact held_leads segmentHolds

/-- A swap that is stopped between the renames is survived only if the old
entries lead into the new file. -/
theorem leads_of_survival (settled : LogSettled log) (member : segment ∈ log.sealedMap)
    (pair : CleanedPair segment cleaned news) {failure : Error} {nowMs : Int} {fallback : LogConfig}
    {clockMs : Int}
    (survives : log.SurvivesSwap segment.baseOffset cleaned .secondRename failure nowMs fallback clockMs) :
    segment.index.LeadsInto cleaned.log := by
  have holds := settled.toLogHolds
  obtain ⟨memory, left, swapped, reopened, stopped, completed, isOpen, _, serves⟩ := survives
  rw [swap_stopped holds member] at stopped
  cases stopped
  obtain ⟨replacement, again, replacementHolds, base, bytes, _⟩ := swap_completed holds member pair nowMs
  rw [again] at completed
  cases completed
  have half : ∀ offset maxBytes, segment.baseOffset ≤ offset → offset < segment.nextOffset →
      ∃ mixed, HalfSwapped segment cleaned mixed ∧
        reopened.serve offset maxBytes = (mixed.serve offset maxBytes).map (ReadError.none, ·) := by
    intro offset maxBytes starts ends
    exact half_swapped_serves settled member isOpen starts ends maxBytes
  rcases serves with old | new
  · exact leads_of_old settled member pair half old
  · exact leads_of_new settled member replacementHolds base bytes half new

/-- A swap that stops on the way leaves the old segment or the new one, in memory
and for the next open, unless it stops between the renames and an entry of the
old index leads somewhere wrong in the new file. -/
theorem swap_survived_iff (cleanable : Cleanable log) (settled : LogSettled log)
    (compacts : log.config.compacted = true) (member : segment ∈ log.sealedMap)
    (rewrote : rewriteSegment log.dir segment.log.bytes segment.baseOffset log.config.roll rules =
      .ok cleaned) (stop : SwapStop) (failure : Error) (nowMs : Int) (fallback : LogConfig)
    (clockMs : Int) :
    log.SurvivesSwap segment.baseOffset cleaned stop failure nowMs fallback clockMs ↔
      (stop = .secondRename → segment.index.LeadsInto cleaned.log) := by
  obtain ⟨news, pair⟩ := cleaned_pair cleanable member rewrote
  constructor
  · rintro survives rfl
    exact leads_of_survival settled member pair survives
  · intro leads
    exact swap_survived settled compacts member pair leads failure nowMs fallback clockMs

end Swap

def Log.oldestLeads (log : Log) (rules : RetainRules) : Option Bool :=
  match log.sealedMap with
  | [] => none
  | segment :: _ =>
      match rewriteSegment log.dir segment.log.bytes segment.baseOffset log.config.roll rules with
      | .error _ => none
      | .ok cleaned => some (decide (segment.index.entries ≠ [] ∧ segment.index.LeadsInto cleaned.log))

theorem oldest_rewritten {log : Log} {rules : RetainRules} {leads : Bool}
    (oldest : log.oldestLeads rules = some leads) :
    ∃ segment cleaned, segment ∈ log.sealedMap ∧
      rewriteSegment log.dir segment.log.bytes segment.baseOffset log.config.roll rules = .ok cleaned ∧
      leads = decide (segment.index.entries ≠ [] ∧ segment.index.LeadsInto cleaned.log) := by
  unfold Log.oldestLeads at oldest
  split at oldest
  · cases oldest
  · next segment rest sealed_ =>
    split at oldest
    · cases oldest
    · next cleaned rewrote =>
      cases oldest
      exact ⟨segment, cleaned, by simp [sealed_], rewrote, rfl⟩

/-- The rules of a pass that has seen a newer record of one key. -/
def supersededBy (key : UInt8) : RetainRules := ⟨(⟨1, []⟩ : KeyOffsetMap).put [key] 9, 0, 0⟩

/-- The second of two records goes, and so does all an old entry could lead to. -/
theorem swap_survived_iff_last_dropped :
    ∃ (log : Log) (segment : SealedSegment) (cleaned : CleanedSegment),
      segment ∈ log.sealedMap ∧ segment.index.entries ≠ [] ∧
      log.SurvivesSwap segment.baseOffset cleaned .secondRename (.error "") 0 {} 0 := by
  obtain ⟨created, final, made, reached, checked⟩ := found_from_creation Log.step Log.Admits id
    ⟨[116], 0⟩ "data/t-0" { twoBatchConfig with cleanup := .compact }
    (fun log => decide (log.config.compacted = true ∧ log.oldestLeads (supersededBy 98) = some true))
    (fiveRecords [97, 98, 99]) (by decide +kernel)
  obtain ⟨compacts, oldest⟩ := decide_eq_true_eq.mp checked
  obtain ⟨segment, cleaned, member, rewrote, leads⟩ := oldest_rewritten oldest
  obtain ⟨occupied, leads⟩ := decide_eq_true_eq.mp leads.symm
  have named : StorableName ⟨[116], 0⟩ := ⟨by decide, by decide, by decide, by decide⟩
  have storable : ({ twoBatchConfig with cleanup := .compact } : LogConfig).Storable :=
    { storable_two_batch_config with }
  obtain ⟨cleanable, settled⟩ := cleanable_reached named storable (by decide) made reached
  exact ⟨final, segment, cleaned, member, occupied,
    (swap_survived_iff cleanable settled compacts member rewrote _ _ _ _ _).mpr fun _ => leads⟩

/-- The first of two records goes, and the entry of the second one leads past the
end of the new file. -/
theorem half_swap_hides_a_record :
    ¬ ∀ created final : Log,
      Log.create ⟨[116], 0⟩ "data/t-0" { twoBatchConfig with cleanup := .compact } = .ok created →
      GuardedRun.Reaches Log.step Log.Admits created final → ∀ segment ∈ final.sealedMap,
      ∀ (rules : RetainRules) (cleaned : CleanedSegment),
      rewriteSegment final.dir segment.log.bytes segment.baseOffset final.config.roll rules = .ok cleaned →
      ∀ (stop : SwapStop) (failure : Error) (nowMs : Int) (fallback : LogConfig) (clockMs : Int),
      final.SurvivesSwap segment.baseOffset cleaned stop failure nowMs fallback clockMs := by
  intro all
  obtain ⟨created, final, made, reached, checked⟩ := found_from_creation Log.step Log.Admits id
    ⟨[116], 0⟩ "data/t-0" { twoBatchConfig with cleanup := .compact }
    (fun log => decide (log.oldestLeads (supersededBy 97) = some false ∧
      ∀ segment ∈ log.sealedMap, segment.index.entries ≠ []))
    (fiveRecords [97, 98, 99]) (by decide +kernel)
  obtain ⟨oldest, occupied⟩ := decide_eq_true_eq.mp checked
  obtain ⟨segment, cleaned, member, rewrote, leads⟩ := oldest_rewritten oldest
  have named : StorableName ⟨[116], 0⟩ := ⟨by decide, by decide, by decide, by decide⟩
  have storable : ({ twoBatchConfig with cleanup := .compact } : LogConfig).Storable :=
    { storable_two_batch_config with }
  obtain ⟨cleanable, settled⟩ := cleanable_reached named storable (by decide) made reached
  obtain ⟨news, pair⟩ := cleaned_pair cleanable member rewrote
  have survives := all created final made reached segment member _ cleaned rewrote .secondRename
    (.error "") 0 {} 0
  have would := leads_of_survival settled member pair survives
  simp [occupied segment member, would] at leads

end DariyaKyu.Storage

import DariyaKyu.Library.GuardedRun
import DariyaKyu.Storage.Rewrite
import DariyaKyu.Storage.SegmentReads
import DariyaKyu.Storage.Truncation

/-!
An index against the scan it saves. Three pieces of the source write one: the
appender, recovery and the cleaner's rewrite. A segment goes through all of them
in any order, with writes that fail in between and with an index that fills up;
its reads stay those of a scan from the front of the file, as long as the file
is made of the batches that its appends declared.
-/

namespace DariyaKyu.Storage

set_option autoImplicit false

inductive SegmentState where
  | active (segment : ActiveSegment)
  | closed (segment : SealedSegment)

/-- What can happen to a segment. A recovery may find any bytes in the file. -/
inductive SegmentAction where
  | append (baseOffset : Int) (batch : Bytes) (clockMs : Int) (fault : Option WriteFault)
  | recover (fd : Int) (dir : String) (bytes : Bytes) (policy : RollPolicy) (truncateAt : Option Int)
      (clockMs : Int)
  | close (fd : Int)
  | reopen (fd : Int) (path : String)
  | rewrite (fd : Int) (path dir : String) (roll : RollPolicy) (rules : RetainRules)

namespace SegmentState

def base : SegmentState → SegmentBase
  | .active segment => segment.toSegmentBase
  | .closed segment => segment

/-- The next state; none when there is no such segment, or no segment comes of it. -/
def step : SegmentAction → SegmentState → Option SegmentState
  | .append baseOffset batch clockMs fault, .active segment =>
      some (.active (segment.append baseOffset batch clockMs fault).1)
  | .recover fd dir bytes policy truncateAt clockMs, state =>
      (ActiveSegment.recover fd dir state.base.baseOffset bytes policy truncateAt clockMs).toOption.map .active
  | .close fd, .active segment => (segment.sealSegment fd).toOption.map .closed
  | .reopen fd path, .closed segment =>
      (SealedSegment.open fd path segment.baseOffset segment.log.bytes (some segment.index)).toOption.map
        .closed
  | .rewrite fd path dir roll rules, .closed segment =>
      (rewriteSegment dir segment.log.bytes segment.baseOffset roll rules >>= fun cleaned =>
        SealedSegment.open fd path segment.baseOffset cleaned.log (some cleaned.index)).toOption.map .closed
  | _, _ => none

def ReadsAsScanned (state : SegmentState) : Prop :=
  ∀ offset maxBytes, state.base.baseOffset ≤ offset →
    state.base.read offset maxBytes = state.base.scanFrom 0 offset maxBytes

/-- The step takes batches at their word only where they keep it: an appended
one is as long as it declares, a recovered one does not end before it begins,
and the records of rewritten ones are where their headers put them. -/
def TakesHonest (state : SegmentState) : SegmentAction → Prop
  | .append _ batch _ _ => ∀ header, parseHeader batch = .ok header →
      totalSizeOf batch = .ok batch.length ∧ 0 ≤ header.lastOffsetDelta
  | .recover _ _ bytes _ truncateAt _ =>
      ∀ kept, LongestRecoverable truncateAt state.base.baseOffset bytes kept →
        ∀ batch ∈ kept, 0 ≤ (headerOf batch).lastOffsetDelta
  | .rewrite _ _ _ roll _ =>
      ∃ olds, scanSegment state.base.log.bytes = .ok (scannedAt 0 olds) ∧
        Ascending state.base.baseOffset olds ∧ (∀ batch ∈ olds, FormedBatch batch ∧ lastOf batch < 2 ^ 63) ∧
        (roll.indexIntervalBytes + 2 ^ 31 + 12 ≤ 2 ^ 32 ∨ rewriteBound olds ≤ 2 ^ 32)
  | _ => True

def Indexed : SegmentState → Prop
  | .active segment => ∃ dir batches, ActiveShape dir segment batches
  | .closed segment => ∃ batches, IndexesBatches segment batches

theorem Indexed.readsAsScanned {state : SegmentState} (indexed : state.Indexed) : state.ReadsAsScanned := by
  intro offset maxBytes inside
  cases state with
  | active segment =>
      obtain ⟨dir, batches, holds⟩ := indexed
      exact holds.indexesBatches.reads inside maxBytes
  | closed segment =>
      obtain ⟨batches, indexes⟩ := indexed
      exact indexes.reads inside maxBytes

end SegmentState

/-- An append leaves a segment in order, whether it is taken, refused or cut short. -/
theorem append_keeps_shape {dir : String} {segment : ActiveSegment} {batches : List Bytes} {batch : Bytes}
    (shape : ActiveShape dir segment batches)
    (honest : ∀ header, parseHeader batch = .ok header →
      totalSizeOf batch = .ok batch.length ∧ 0 ≤ header.lastOffsetDelta)
    (baseOffset clockMs : Int) (fault : Option WriteFault) :
    ∃ after, ActiveShape dir (segment.append baseOffset batch clockMs fault).1 after := by
  cases parsed : parseHeader batch with
  | error failure =>
      have refused : (segment.append baseOffset batch clockMs fault).1 = segment := by
        simp only [ActiveSegment.append, parsed]
      exact ⟨batches, by rwa [refused]⟩
  | ok header =>
      obtain ⟨sized, spans⟩ := honest header parsed
      obtain ⟨-, rfl, -⟩ := parse_header_ok parsed
      have shaped : ShapedBatch batch := ⟨sized, parsed, spans⟩
      by_cases stamp : baseOf batch = baseOffset
      · by_cases joins : baseOffset = segment.nextOffset
        · subst joins
          cases ran : segment.append segment.nextOffset batch clockMs fault with
          | mk after result =>
              cases result with
              | ok _ => exact ⟨_, (append_shape_ok shape shaped stamp ran).2.1⟩
              | error failure => exact ⟨_, (append_shape_failed shape shaped stamp ran).2.1⟩
        · have same : ¬ (headerOf batch).baseOffset ≠ baseOffset := not_not.mpr stamp
          have refused : (segment.append baseOffset batch clockMs fault).1 = segment := by
            simp only [ActiveSegment.append, parsed, same, if_false, joins, ne_eq, not_false_eq_true, if_true]
          exact ⟨batches, by rwa [refused]⟩
      · have other : (headerOf batch).baseOffset ≠ baseOffset := stamp
        have refused : (segment.append baseOffset batch clockMs fault).1 = segment := by
          simp only [ActiveSegment.append, parsed, other, ne_eq, not_false_eq_true, if_true]
        exact ⟨batches, by rwa [refused]⟩

theorem recoverable_consecutive {truncateAt : Option Int} {base : Int} {kept : List Bytes}
    (recoverable : Recoverable truncateAt base kept)
    (spans : ∀ batch ∈ kept, 0 ≤ (headerOf batch).lastOffsetDelta) :
    (∀ batch ∈ kept, IntactBatch batch) ∧ Consecutive base kept := by
  induction kept generalizing base with
  | nil => exact ⟨by simp, trivial⟩
  | cons batch kept ih =>
      obtain ⟨⟨complete, starts, _⟩, later⟩ := recoverable
      obtain ⟨isFirst, isRest⟩ := List.forall_mem_cons.mp spans
      obtain ⟨intact, consecutive⟩ := ih later isRest
      refine ⟨List.forall_mem_cons.mpr ⟨⟨complete.sized, complete.checked, isFirst⟩, intact⟩, starts, ?_,
        consecutive⟩
      simp only [baseOf, lastOf, BatchHeader.lastOffset]
      omega

/-- Whatever recovery makes of a file is in order, if no batch it keeps ends before it begins. -/
theorem recover_keeps_shape {fd : Int} {dir : String} {base : Int} {bytes : Bytes} {policy : RollPolicy}
    {truncateAt : Option Int} {clockMs : Int} {active : ActiveSegment}
    (recovered : ActiveSegment.recover fd dir base bytes policy truncateAt clockMs = .ok active)
    (spans : ∀ kept, LongestRecoverable truncateAt base bytes kept →
      ∀ batch ∈ kept, 0 ≤ (headerOf batch).lastOffsetDelta) :
    ∃ batches, ActiveShape dir active batches := by
  have unfolded := recovered
  obtain ⟨fresh, created, _⟩ := except_bind_ok unfolded
  obtain ⟨kept, longest, made⟩ := recover_any fd dir base bytes policy truncateAt clockMs created
  obtain ⟨intact, consecutive⟩ := recoverable_consecutive longest.recoverable (spans kept longest)
  rw [recovered] at made
  cases all : indexAll policy ⟨fresh, 0⟩ 0 kept with
  | error failure =>
      rw [all] at made
      cases made
  | ok built =>
      rw [all] at made
      cases made
      exact ⟨kept, (settled_of_kept fd clockMs intact consecutive ⟨fresh, created, all⟩).toActiveShape⟩

theorem open_sealed_fields {fd : Int} {path : String} {base : Int} {bytes : Bytes} {index : OffsetIndex}
    {segment : SealedSegment} (opened : SealedSegment.open fd path base bytes (some index) = .ok segment) :
    segment.log = FileHandle.ofContents fd path bytes ∧ segment.index = index.openSealed ∧
      segment.baseOffset = base := by
  obtain ⟨entry, _, opened⟩ := except_bind_ok opened
  obtain ⟨⟨ends, state⟩, _, made⟩ := except_bind_ok opened
  cases made
  exact ⟨rfl, rfl, rfl⟩

theorem IndexesBatches.opened {before segment : SegmentBase} {batches : List Bytes} {fd : Int}
    {path : String} (indexes : IndexesBatches before batches)
    (opened : SealedSegment.open fd path before.baseOffset before.log.bytes (some before.index) =
      .ok segment) : IndexesBatches segment batches := by
  obtain ⟨log, index, base⟩ := open_sealed_fields opened
  refine ⟨indexes.shaped, ?_, ?_, base ▸ indexes.ascending, ?_, ?_⟩
  · rw [log]
    exact indexes.front
  · rw [log]
    exact indexes.front.length_le
  · rw [index, base]
    exact indexes.based
  · rw [index, base]
    exact indexes.indexed

theorem rewritten_indexes {contents : Bytes} {base fd : Int} {path dir : String} {roll : RollPolicy}
    {rules : RetainRules} {olds : List Bytes} {segment : SealedSegment}
    (scanned : scanSegment contents = .ok (scannedAt 0 olds)) (ascending : Ascending base olds)
    (formed : ∀ batch ∈ olds, FormedBatch batch ∧ lastOf batch < 2 ^ 63)
    (room : roll.indexIntervalBytes + 2 ^ 31 + 12 ≤ 2 ^ 32 ∨ rewriteBound olds ≤ 2 ^ 32)
    (swapped : (rewriteSegment dir contents base roll rules >>= fun cleaned =>
      SealedSegment.open fd path base cleaned.log (some cleaned.index)) = .ok segment) :
    ∃ batches, IndexesBatches segment batches := by
  obtain ⟨cleaned, rewrote, opened⟩ := except_bind_ok swapped
  obtain ⟨news, rewritten, bytes, based, named, _⟩ := rewrite_segment_spec scanned room formed rewrote
  obtain ⟨log, index, isBase⟩ := open_sealed_fields opened
  refine ⟨news, fun batch member => (rewritten.intact batch member).shaped, ?_, ?_, ?_, ?_, ?_⟩
  · rw [log, ← bytes]
    exact List.prefix_refl _
  · rw [log, ← bytes]
    exact le_rfl
  · rw [isBase]
    exact (rewritten.ascending ascending le_rfl).1
  · rw [index, isBase]
    exact based
  · rw [index, isBase]
    exact fun entry member => .inl (named entry member)

theorem indexed_step {state next : SegmentState} {action : SegmentAction} (indexed : state.Indexed)
    (honest : state.TakesHonest action) (taken : SegmentState.step action state = some next) :
    next.Indexed := by
  cases action with
  | append baseOffset batch clockMs fault =>
      cases state with
      | closed segment => cases taken
      | active segment =>
          cases taken
          obtain ⟨dir, batches, holds⟩ := indexed
          exact ⟨dir, append_keeps_shape holds honest baseOffset clockMs fault⟩
  | recover fd dir bytes policy truncateAt clockMs =>
      obtain ⟨active, recovered, rfl⟩ := Option.map_eq_some_iff.mp taken
      exact ⟨dir, recover_keeps_shape (ok_of_to_option recovered) honest⟩
  | close fd =>
      cases state with
      | closed segment => cases taken
      | active segment =>
          obtain ⟨closed, opened, rfl⟩ := Option.map_eq_some_iff.mp taken
          obtain ⟨dir, batches, holds⟩ := indexed
          exact ⟨batches, holds.indexesBatches.opened (ok_of_to_option opened)⟩
  | reopen fd path =>
      cases state with
      | active segment => cases taken
      | closed segment =>
          obtain ⟨again, opened, rfl⟩ := Option.map_eq_some_iff.mp taken
          obtain ⟨batches, indexes⟩ := indexed
          exact ⟨batches, indexes.opened (ok_of_to_option opened)⟩
  | rewrite fd path dir roll rules =>
      cases state with
      | active segment => cases taken
      | closed segment =>
          obtain ⟨again, swapped, rfl⟩ := Option.map_eq_some_iff.mp taken
          obtain ⟨olds, scanned, ascending, formed, room⟩ := honest
          exact rewritten_indexes scanned ascending formed room (ok_of_to_option swapped)

/-- Whatever a segment goes through, its reads are those of a plain scan. -/
theorem reads_match_scan {fd base : Int} {dir : String} {policy : RollPolicy} {created : ActiveSegment}
    {state : SegmentState} (made : ActiveSegment.create fd dir base policy false = .ok created)
    (reached : GuardedRun.Reaches SegmentState.step SegmentState.TakesHonest (.active created) state) :
    state.ReadsAsScanned := by
  have fresh : (SegmentState.active created).Indexed := ⟨dir, [], (create_active_spec made).1.toActiveShape⟩
  exact (reached.invariant _ _ SegmentState.Indexed fresh fun _ _ _ indexed honest stepped =>
    indexed_step indexed honest stepped).readsAsScanned

/-- Two batches, an attempt at the second that failed half way, and a seal. -/
theorem reads_match_scan_sealed :
    ∃ created state, ActiveSegment.create 3 "t-0" 0 everyBatchPolicy false = .ok created ∧
      state.base.index.entries.length = 1 ∧
      GuardedRun.Reaches SegmentState.step SegmentState.TakesHonest (.active created) state ∧
      state.ReadsAsScanned := by
  have honest : ∀ batch ∈ [firstOfTwo, secondOfTwo], ∀ header, parseHeader batch = .ok header →
      totalSizeOf batch = .ok batch.length ∧ 0 ≤ header.lastOffsetDelta := by
    have shaped : ∀ batch ∈ [firstOfTwo, secondOfTwo],
        totalSizeOf batch = .ok batch.length ∧ 0 ≤ (headerOf batch).lastOffsetDelta := by decide +kernel
    intro batch member header parsed
    rw [(parse_header_ok parsed).2.1]
    exact shaped batch member
  have first := honest firstOfTwo (by simp)
  have second := honest secondOfTwo (by simp)
  let written : ActiveSegment → ActiveSegment := fun created =>
    (((created.append 0 firstOfTwo 5 none).1.append 1 secondOfTwo 6 (some ⟨20, 5⟩)).1.append 1 secondOfTwo 7
      none).1
  have found : ((ActiveSegment.create 3 "t-0" 0 everyBatchPolicy false >>= fun created =>
      (written created).sealSegment 4).toOption.map (·.index.entries.length)) = some 1 := by decide +kernel
  obtain ⟨segment, isSegment, entries⟩ := Option.map_eq_some_iff.mp found
  obtain ⟨created, made, closed⟩ := except_bind_ok (ok_of_to_option isSegment)
  have appended : GuardedRun.Reaches SegmentState.step SegmentState.TakesHonest (.active created)
      (.active (written created)) :=
    .step (.step (.step .start (.append 0 firstOfTwo 5 none) first rfl)
      (.append 1 secondOfTwo 6 (some ⟨20, 5⟩)) second rfl) (.append 1 secondOfTwo 7 none) second rfl
  have isClosed : SegmentState.step (.close 4) (.active (written created)) = some (.closed segment) := by
    simp only [SegmentState.step, closed, Except.toOption, Option.map_some]
  have reached := GuardedRun.Reaches.step appended (.close 4) trivial isClosed
  exact ⟨created, .closed segment, made, entries, reached, reads_match_scan made reached⟩

/-- An entry of two batches goes into the file as one: its second batch claims
an offset that the next entry gets, and only the scan meets it. -/
theorem scan_meets_second_batch :
    ¬ ∀ created state, ActiveSegment.create 3 "t-0" 0 everyBatchPolicy false = .ok created →
      GuardedRun.Reaches SegmentState.step (fun _ _ => True) (.active created) state →
        state.ReadsAsScanned := by
  intro all
  let written : ActiveSegment → ActiveSegment := fun created =>
    ((created.append 0 (firstOfTwo ++ secondOfTwo) 5 none).1.append 1 secondOfTwo 6 none).1
  have found : (ActiveSegment.create 3 "t-0" 0 everyBatchPolicy false).toOption.map (fun created =>
      decide ((written created).baseOffset ≤ 1 ∧ ((written created).read 1 100).toOption ≠
        ((written created).scanFrom 0 1 100).toOption)) = some true := by decide +kernel
  obtain ⟨created, isCreated, checked⟩ := Option.map_eq_some_iff.mp found
  obtain ⟨inside, differs⟩ := of_decide_eq_true checked
  have reached : GuardedRun.Reaches SegmentState.step (fun _ _ => True) (.active created)
      (.active (written created)) :=
    .step (.step .start (.append 0 (firstOfTwo ++ secondOfTwo) 5 none) trivial rfl)
      (.append 1 secondOfTwo 6 none) trivial rfl
  have same := all created _ (ok_of_to_option isCreated) reached 1 100 inside
  exact differs (congrArg Except.toOption same)

end DariyaKyu.Storage

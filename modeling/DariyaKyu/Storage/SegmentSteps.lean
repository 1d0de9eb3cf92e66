import DariyaKyu.Storage.SegmentLayout

/-!
What each operation of a segment does to the batches it holds. The index an
active segment has built is a function of those batches, except that a failed
append may already have added the entry of the batch it did not write. This is
why recovery rebuilds the same index, and why a seal must not happen in between.
-/

namespace DariyaKyu.Storage

set_option autoImplicit false

open FrameWalk

/-- The two fields `maybeAddIndexEntry` reads and writes. -/
structure IndexState where
  index : OffsetIndex
  since : Nat

def ActiveSegment.indexState (segment : ActiveSegment) : IndexState :=
  ⟨segment.index, segment.bytesSinceIndexEntry⟩

def indexStep (policy : RollPolicy) (state : IndexState) (baseOffset : Int) (position : Nat) :
    Except Error IndexState :=
  if state.since < policy.indexIntervalBytes then .ok state
  else if position = 0 then .ok state
  else if kMaxUint32 < position then
    .error (.offsetInvariantViolated s!"segment: byte position {position} exceeds what a 32-bit index position holds — maxSegmentBytes is set above 4 GiB")
  else do
    let index ← state.index.append baseOffset position
    return ⟨index, 0⟩

/-- The index after a segment took these batches in, the first one at `position`. -/
def indexAll (policy : RollPolicy) : IndexState → Nat → List Bytes → Except Error IndexState
  | state, _, [] => .ok state
  | state, position, batch :: batches => do
      let stepped ← indexStep policy state (baseOf batch) position
      indexAll policy ⟨stepped.index, stepped.since + batch.length⟩ (position + batch.length) batches

theorem maybe_add_index_entry_ok {segment next : ActiveSegment} {baseOffset : Int} {position : Nat} :
    segment.maybeAddIndexEntry baseOffset position = .ok next ↔
      ∃ state, indexStep segment.policy segment.indexState baseOffset position = .ok state ∧
        next = { segment with index := state.index, bytesSinceIndexEntry := state.since } := by
  unfold ActiveSegment.maybeAddIndexEntry indexStep ActiveSegment.indexState
  simp only
  split
  · simp only [Except.ok.injEq, exists_eq_left']
    exact eq_comm
  split
  · simp only [Except.ok.injEq, exists_eq_left']
    exact eq_comm
  split
  · simp
  · cases segment.index.append baseOffset position <;> simp [pure, Except.pure, eq_comm]

theorem index_step_ok {policy : RollPolicy} {state next : IndexState} {baseOffset : Int}
    {position : Nat} (stepped : indexStep policy state baseOffset position = .ok next) :
    next = state ∨ next.since = 0 ∧ 0 < position ∧
      (next.index = state.index ∧ state.index.isFull = true ∨
        (next.index.entries =
            state.index.entries ++ [⟨(baseOffset - state.index.baseOffset).toNat, position⟩] ∧
          next.index.baseOffset = state.index.baseOffset ∧ state.index.baseOffset ≤ baseOffset)) := by
  unfold indexStep at stepped
  split at stepped
  · cases stepped
    exact .inl rfl
  split at stepped
  · cases stepped
    exact .inl rfl
  split at stepped
  · cases stepped
  · obtain ⟨index, appended, made⟩ := except_bind_ok stepped
    cases Except.ok.inj made
    refine .inr ⟨rfl, by omega, ?_⟩
    rcases OffsetIndex.append_ok appended with ⟨same, full⟩ | ⟨entries, _, base, _, _, lower, _⟩
    · exact .inl ⟨same, full⟩
    · exact .inr ⟨entries, base, lower⟩

theorem index_step_base {policy : RollPolicy} {state next : IndexState} {baseOffset : Int}
    {position : Nat} (stepped : indexStep policy state baseOffset position = .ok next) :
    next.index.baseOffset = state.index.baseOffset := by
  rcases index_step_ok stepped with rfl | ⟨_, _, ⟨same, _⟩ | ⟨_, base, _⟩⟩
  · rfl
  · rw [same]
  · exact base

/-- A second attempt at the same place changes nothing, or is refused. -/
theorem index_step_again {policy : RollPolicy} {state once twice : IndexState} {baseOffset : Int}
    {position : Nat} (first : indexStep policy state baseOffset position = .ok once)
    (second : indexStep policy once baseOffset position = .ok twice) : twice = once := by
  rcases index_step_ok first with rfl | ⟨reset, nonzero, ⟨same, _⟩ | ⟨entries, base, _⟩⟩
  · rw [first] at second
    exact (Except.ok.inj second).symm
  · rcases index_step_ok second with rfl | ⟨again, _, ⟨unchanged, _⟩ | ⟨grown, _, _⟩⟩
    · rfl
    · cases once
      cases twice
      simp_all
    · -- a full index does not grow, and the first attempt left it as it was
      unfold indexStep at first second
      split at first
      · cases first
        simp_all
      split at first
      · omega
      split at first
      · cases first
      obtain ⟨index, appended, made⟩ := except_bind_ok first
      cases Except.ok.inj made
      simp only at same
      subst same
      split at second
      · cases second
        rfl
      · simp only [appended, except_ok_bind] at second
        exact (Except.ok.inj second).symm
  · rcases index_step_ok second with rfl | ⟨_, _, ⟨unchanged, _⟩ | ⟨grown, _, _⟩⟩
    · rfl
    · cases once
      cases twice
      simp_all
    · -- the entry would not advance past itself
      have ascending := twice.index.ascending
      rw [grown, entries, base] at ascending
      have below := (List.pairwise_append.mp ascending).2.2
        ⟨(baseOffset - state.index.baseOffset).toNat, position⟩ (by simp) _ (List.mem_singleton_self _)
      exact absurd below.2 (Nat.lt_irrefl _)

theorem index_all_concat (policy : RollPolicy) (state : IndexState) (position : Nat)
    (batches : List Bytes) (batch : Bytes) :
    indexAll policy state position (batches ++ [batch]) = (do
      let before ← indexAll policy state position batches
      let stepped ← indexStep policy before (baseOf batch) (position + batches.flatten.length)
      return ⟨stepped.index, stepped.since + batch.length⟩) := by
  induction batches generalizing state position with
  | nil => simp [indexAll]; rfl
  | cons first batches ih =>
      simp only [List.cons_append, indexAll]
      cases indexStep policy state (baseOf first) position with
      | error failure => rfl
      | ok stepped =>
          simp only [except_ok_bind, ih, List.flatten_cons, List.length_append, Nat.add_assoc]

theorem names_batch_append {base : Int} {batches : List Bytes} {entry : Entry} (more : List Bytes)
    (names : NamesBatch base batches entry) : NamesBatch base (batches ++ more) entry := by
  obtain ⟨before, batch, after, rfl, starts, offset⟩ := names
  exact ⟨before, batch, after ++ more, by simp, starts, offset⟩

theorem names_batch_below {base : Int} {batches : List Bytes} {entry : Entry}
    (intact : ∀ batch ∈ batches, IntactBatch batch) (names : NamesBatch base batches entry) :
    entry.position < batches.flatten.length := by
  obtain ⟨before, batch, after, rfl, starts, _⟩ := names
  have positive := (intact batch (by simp)).positive
  simp only [List.flatten_append, List.flatten_cons, List.length_append]
  omega

theorem index_all_names {policy : RollPolicy} (fresh : IndexState) {built : IndexState} {batches : List Bytes}
    (empty : fresh.index.entries = []) (ascending : Ascending fresh.index.baseOffset batches)
    (all : indexAll policy fresh 0 batches = .ok built) :
    built.index.baseOffset = fresh.index.baseOffset ∧
      ∀ entry ∈ built.index.entries, NamesBatch fresh.index.baseOffset batches entry := by
  induction batches using List.reverseRecOn generalizing built with
  | nil =>
      cases Except.ok.inj all
      simp [empty]
  | append_singleton batches batch ih =>
      rw [index_all_concat] at all
      obtain ⟨before, builtBefore, all⟩ := except_bind_ok all
      obtain ⟨stepped, step, made⟩ := except_bind_ok all
      cases Except.ok.inj made
      obtain ⟨ascendingBefore, above, _⟩ := ascending_append.mp ascending
      obtain ⟨base, names⟩ := ih ascendingBefore builtBefore
      refine ⟨by rw [index_step_base step, base], ?_⟩
      intro entry member
      simp only [Nat.zero_add] at step
      rcases index_step_ok step with rfl | ⟨_, _, ⟨same, _⟩ | ⟨entries, _, lower⟩⟩
      · exact names_batch_append _ (names entry member)
      · simp only [same] at member
        exact names_batch_append _ (names entry member)
      · simp only [entries] at member
        rcases List.mem_append.mp member with earlier | new
        · exact names_batch_append _ (names entry earlier)
        · simp only [List.mem_singleton] at new
          subst new
          refine ⟨batches, batch, [], by simp, rfl, ?_⟩
          simp only
          omega

/-- The index an active segment based at `base` has after these batches. -/
def BuiltIndex (dir : String) (base : Int) (policy : RollPolicy) (batches : List Bytes)
    (state : IndexState) : Prop :=
  ∃ fresh, OffsetIndex.create (segmentIndexPath dir base) base policy.maxIndexBytes = .ok fresh ∧
    indexAll policy ⟨fresh, 0⟩ 0 batches = .ok state

theorem create_index_ok {path : String} {base : Int} {maxBytes : Nat} {fresh : OffsetIndex}
    (created : OffsetIndex.create path base maxBytes = .ok fresh) :
    fresh.entries = [] ∧ fresh.baseOffset = base := by
  unfold OffsetIndex.create at created
  split at created
  · cases created
  · cases created
    exact ⟨rfl, rfl⟩

theorem create_elsewhere {path otherPath : String} {base otherBase : Int} {maxBytes : Nat}
    {fresh : OffsetIndex} (created : OffsetIndex.create path base maxBytes = .ok fresh) :
    ∃ other, OffsetIndex.create otherPath otherBase maxBytes = .ok other := by
  unfold OffsetIndex.create at created ⊢
  split at created
  · cases created
  · next room => exact ⟨_, by rw [if_neg room]⟩

theorem built_index_names {dir : String} {base : Int} {policy : RollPolicy} {batches : List Bytes}
    {state : IndexState} (built : BuiltIndex dir base policy batches state)
    (ascending : Ascending base batches) :
    state.index.baseOffset = base ∧ ∀ entry ∈ state.index.entries, NamesBatch base batches entry := by
  obtain ⟨fresh, created, all⟩ := built
  obtain ⟨empty, based⟩ := create_index_ok created
  subst based
  exact index_all_names ⟨fresh, 0⟩ empty ascending all

theorem built_index_concat {dir : String} {base : Int} {policy : RollPolicy} {batches : List Bytes}
    {state stepped : IndexState} {batch : Bytes} (built : BuiltIndex dir base policy batches state)
    (step : indexStep policy state (baseOf batch) batches.flatten.length = .ok stepped) :
    BuiltIndex dir base policy (batches ++ [batch]) ⟨stepped.index, stepped.since + batch.length⟩ := by
  obtain ⟨fresh, created, all⟩ := built
  refine ⟨fresh, created, ?_⟩
  rw [index_all_concat, all]
  simp only [except_ok_bind, Nat.zero_add, step]
  rfl

/-- The active segment has the batches in sequence. Behind them the file may
have the remains of a failed append, whose index entry may already be there. -/
structure ActiveShape (dir : String) (segment : ActiveSegment) (batches : List Bytes) : Prop where
  shaped : ∀ batch ∈ batches, ShapedBatch batch
  front : batches.flatten <+: segment.log.bytes
  tight : segment.log.size = batches.flatten.length
  consecutive : Consecutive segment.baseOffset batches
  ends : segment.nextOffset = endOffset segment.baseOffset batches
  largest : segment.largestTimestamp = largestOf (-1) batches
  built : ∃ plain, BuiltIndex dir segment.baseOffset segment.policy batches plain ∧
    (segment.indexState = plain ∨
      indexStep segment.policy plain segment.nextOffset segment.log.size = .ok segment.indexState)

theorem ActiveShape.based {dir : String} {segment : ActiveSegment} {batches : List Bytes}
    (shape : ActiveShape dir segment batches) : segment.index.baseOffset = segment.baseOffset := by
  obtain ⟨plain, built, same | pending⟩ := shape.built
  · have based := (built_index_names built shape.consecutive.ascending).1
    rw [← same] at based
    exact based
  · have based := index_step_base pending
    rw [(built_index_names built shape.consecutive.ascending).1] at based
    exact based

theorem ActiveShape.indexed {dir : String} {segment : ActiveSegment} {batches : List Bytes}
    (shape : ActiveShape dir segment batches) :
    ∀ entry ∈ segment.index.entries,
      NamesBatch segment.baseOffset batches entry ∨ NamesEnd segment.baseOffset batches entry := by
  obtain ⟨plain, built, same | pending⟩ := shape.built
  · have names := (built_index_names built shape.consecutive.ascending).2
    rw [← same] at names
    exact fun entry member => .inl (names entry member)
  · obtain ⟨based, names⟩ := built_index_names built shape.consecutive.ascending
    intro entry member
    rcases index_step_ok pending with unchanged | ⟨_, _, ⟨same, _⟩ | ⟨entries, _, lower⟩⟩
    · rw [← unchanged] at names
      exact .inl (names entry member)
    · rw [← same] at names
      exact .inl (names entry member)
    · have grown : segment.index.entries = _ := entries
      rw [grown] at member
      rcases List.mem_append.mp member with earlier | new
      · exact .inl (names entry earlier)
      · simp only [List.mem_singleton] at new
        subst new
        refine .inr ⟨shape.tight, ?_⟩
        rw [← shape.ends]
        rw [based] at lower ⊢
        simp only
        omega

structure ActiveHolds (dir : String) (segment : ActiveSegment) (batches : List Bytes) : Prop
    extends ActiveShape dir segment batches where
  intact : ∀ batch ∈ batches, IntactBatch batch

/-- No append has failed since the last batch: nothing behind it in the file,
and no entry in the index that is not one of the batches'. -/
structure ActiveSettled (dir : String) (segment : ActiveSegment) (batches : List Bytes) : Prop
    extends ActiveHolds dir segment batches where
  whole : segment.log.bytes = batches.flatten
  plain : BuiltIndex dir segment.baseOffset segment.policy batches segment.indexState

theorem ActiveHolds.segmentHolds {dir : String} {segment : ActiveSegment} {batches : List Bytes}
    (holds : ActiveHolds dir segment batches) : SegmentHolds segment.toSegmentBase batches where
  intact := holds.intact
  front := holds.front
  within := holds.tight.ge
  quiet := batch_at_end _ holds.tight.le
  ascending := holds.consecutive.ascending
  ends := holds.ends
  based := holds.based
  indexed := holds.indexed

theorem overwrite_at_end (front residue data : Bytes) :
    front ++ data <+: overwrite (front ++ residue) front.length data := by
  simp only [overwrite, List.take_left']
  exact List.prefix_append _ _

theorem overwrite_keeps_front (front residue data : Bytes) :
    front <+: overwrite (front ++ residue) front.length data := by
  simp only [overwrite, List.take_left', List.append_assoc]
  exact List.prefix_append _ _

theorem append_cases {segment after : ActiveSegment} {batch : Bytes} {clockMs : Int}
    {fault : Option WriteFault} {result : Except Error Unit}
    (parsed : parseHeader batch = .ok (headerOf batch)) (starts : baseOf batch = segment.nextOffset)
    (appended : segment.append segment.nextOffset batch clockMs fault = (after, result)) :
    (∃ failure, after = segment ∧ result = .error failure) ∨
      ∃ state, indexStep segment.policy segment.indexState segment.nextOffset segment.log.size = .ok state ∧
        match fault with
        | none => result = .ok () ∧ after =
            { segment with
              index := state.index
              log := (segment.log.append batch none).1
              bytesSinceIndexEntry := state.since + batch.length
              firstAppendMs := if segment.firstAppendMs < 0 then clockMs else segment.firstAppendMs
              largestTimestamp := max segment.largestTimestamp (timestampOf batch)
              nextOffset := lastOf batch + 1 }
        | some fault => (∃ failure, result = .error failure) ∧ after =
            { segment with
              index := state.index
              bytesSinceIndexEntry := state.since
              log := (segment.log.append batch (some fault)).1 } := by
  have stamped : ¬ (headerOf batch).baseOffset ≠ segment.nextOffset := not_not.mpr starts
  unfold ActiveSegment.append at appended
  simp only [parsed, stamped, if_false, ne_eq, not_true_eq_false] at appended
  split at appended
  · next failure _ =>
    cases appended
    exact .inl ⟨failure, rfl, rfl⟩
  · next indexed step =>
    obtain ⟨state, stepped, rfl⟩ := maybe_add_index_entry_ok.mp step
    refine .inr ⟨state, stepped, ?_⟩
    cases fault with
    | none =>
        simp only [FileHandle.append] at appended ⊢
        cases appended
        exact ⟨rfl, rfl⟩
    | some fault =>
        simp only [FileHandle.append] at appended ⊢
        cases appended
        exact ⟨⟨_, rfl⟩, rfl⟩

/-- The index after the batch is written, whether or not an earlier failed
append has already added the entry. -/
theorem built_after_append {dir : String} {segment : ActiveSegment} {batches : List Bytes}
    {batch : Bytes} {state : IndexState} (holds : ActiveShape dir segment batches)
    (starts : baseOf batch = segment.nextOffset)
    (step : indexStep segment.policy segment.indexState segment.nextOffset segment.log.size = .ok state) :
    BuiltIndex dir segment.baseOffset segment.policy (batches ++ [batch])
      ⟨state.index, state.since + batch.length⟩ := by
  obtain ⟨plain, built, same | pending⟩ := holds.built
  · apply built_index_concat (same ▸ built)
    rw [starts, ← holds.tight, step]
  · have again := index_step_again pending step
    subst again
    apply built_index_concat built
    rw [starts, ← holds.tight, pending]

theorem append_shape_ok {dir : String} {segment after : ActiveSegment} {batches : List Bytes}
    {batch : Bytes} {clockMs : Int} {fault : Option WriteFault}
    (holds : ActiveShape dir segment batches) (shaped : ShapedBatch batch)
    (starts : baseOf batch = segment.nextOffset)
    (appended : segment.append segment.nextOffset batch clockMs fault = (after, .ok ())) :
    fault = none ∧ ActiveShape dir after (batches ++ [batch]) ∧
      BuiltIndex dir after.baseOffset after.policy (batches ++ [batch]) after.indexState ∧
      after.log.bytes = overwrite segment.log.bytes batches.flatten.length batch ∧
      after.log.fd = segment.log.fd ∧ after.baseOffset = segment.baseOffset ∧
      after.policy = segment.policy ∧ after.nextOffset = lastOf batch + 1 := by
  rcases append_cases shaped.parsed starts appended with ⟨failure, _, failed⟩ | ⟨state, step, written⟩
  · cases failed
  · cases fault with
    | some fault => obtain ⟨⟨_, failed⟩, _⟩ := written; cases failed
    | none =>
        obtain ⟨_, rfl⟩ := written
        have built := built_after_append holds starts step
        have spans : baseOf batch ≤ lastOf batch := by
          have := shaped.spans
          unfold baseOf lastOf BatchHeader.lastOffset
          omega
        have tight : segment.log.writePosition = batches.flatten.length := holds.tight
        refine ⟨rfl, ?_, built, by rw [← tight]; rfl, rfl, rfl, rfl, rfl⟩
        constructor
        · intro other member
          rcases List.mem_append.mp member with earlier | same
          · exact holds.shaped other earlier
          · simp only [List.mem_singleton] at same
            exact same ▸ shaped
        · obtain ⟨residue, contents⟩ := holds.front
          simp only [FileHandle.append, tight, ← contents, List.flatten_append, List.flatten_cons,
            List.flatten_nil, List.append_nil]
          exact overwrite_at_end _ _ _
        · simp [FileHandle.append, FileHandle.size, tight]
        · rw [consecutive_append]
          exact ⟨holds.consecutive, by rw [← holds.ends, starts], spans, trivial⟩
        · simp
        · rw [largest_of_append, ← holds.largest]
          rfl
        · exact ⟨_, built, .inl rfl⟩

/-- A failed append leaves the same batches, and at most the entry of the one
it did not write. -/
theorem append_shape_failed {dir : String} {segment after : ActiveSegment} {batches : List Bytes}
    {batch : Bytes} {clockMs : Int} {fault : Option WriteFault} {failure : Error}
    (holds : ActiveShape dir segment batches) (shaped : ShapedBatch batch)
    (starts : baseOf batch = segment.nextOffset)
    (appended : segment.append segment.nextOffset batch clockMs fault = (after, .error failure)) :
    (fault = none → after = segment) ∧ ActiveShape dir after batches ∧
      after.log.fd = segment.log.fd ∧ after.log.size = segment.log.size ∧
      after.baseOffset = segment.baseOffset ∧ after.policy = segment.policy ∧
      after.nextOffset = segment.nextOffset := by
  rcases append_cases shaped.parsed starts appended with ⟨_, rfl, _⟩ | ⟨state, step, written⟩
  · exact ⟨fun _ => rfl, holds, rfl, rfl, rfl, rfl, rfl⟩
  · cases fault with
    | none => obtain ⟨failed, _⟩ := written; cases failed
    | some fault =>
        obtain ⟨_, rfl⟩ := written
        have tight : segment.log.writePosition = batches.flatten.length := holds.tight
        refine ⟨nofun, ?_, rfl, rfl, rfl, rfl, rfl⟩
        constructor
        · exact holds.shaped
        · obtain ⟨residue, contents⟩ := holds.front
          simp only [FileHandle.append, tight, ← contents]
          exact overwrite_keeps_front _ _ _
        · exact holds.tight
        · exact holds.consecutive
        · exact holds.ends
        · exact holds.largest
        · obtain ⟨plain, built, same | pending⟩ := holds.built
          · exact ⟨plain, built, .inr (same ▸ step)⟩
          · have again := index_step_again pending step
            subst again
            exact ⟨plain, built, .inr pending⟩

theorem append_active_ok {dir : String} {segment after : ActiveSegment} {batches : List Bytes}
    {batch : Bytes} {clockMs : Int} {fault : Option WriteFault}
    (holds : ActiveHolds dir segment batches) (intact : IntactBatch batch)
    (starts : baseOf batch = segment.nextOffset)
    (appended : segment.append segment.nextOffset batch clockMs fault = (after, .ok ())) :
    fault = none ∧ ActiveHolds dir after (batches ++ [batch]) ∧
      BuiltIndex dir after.baseOffset after.policy (batches ++ [batch]) after.indexState ∧
      after.log.bytes = overwrite segment.log.bytes batches.flatten.length batch ∧
      after.log.fd = segment.log.fd ∧ after.baseOffset = segment.baseOffset ∧
      after.policy = segment.policy ∧ after.nextOffset = lastOf batch + 1 := by
  obtain ⟨faultless, shape, written⟩ := append_shape_ok holds.toActiveShape intact.shaped starts appended
  refine ⟨faultless, ⟨shape, ?_⟩, written⟩
  intro other member
  rcases List.mem_append.mp member with earlier | same
  · exact holds.intact other earlier
  · exact List.mem_singleton.mp same ▸ intact

theorem append_active_failed {dir : String} {segment after : ActiveSegment} {batches : List Bytes}
    {batch : Bytes} {clockMs : Int} {fault : Option WriteFault} {failure : Error}
    (holds : ActiveHolds dir segment batches) (intact : IntactBatch batch)
    (starts : baseOf batch = segment.nextOffset)
    (appended : segment.append segment.nextOffset batch clockMs fault = (after, .error failure)) :
    (fault = none → after = segment) ∧ ActiveHolds dir after batches ∧
      after.log.fd = segment.log.fd ∧ after.log.size = segment.log.size ∧
      after.baseOffset = segment.baseOffset ∧ after.policy = segment.policy ∧
      after.nextOffset = segment.nextOffset := by
  obtain ⟨same, shape, kept⟩ := append_shape_failed holds.toActiveShape intact.shaped starts appended
  exact ⟨same, ⟨shape, holds.intact⟩, kept⟩

theorem append_settled_ok {dir : String} {segment after : ActiveSegment} {batches : List Bytes}
    {batch : Bytes} {clockMs : Int} {fault : Option WriteFault}
    (holds : ActiveSettled dir segment batches) (intact : IntactBatch batch)
    (starts : baseOf batch = segment.nextOffset)
    (appended : segment.append segment.nextOffset batch clockMs fault = (after, .ok ())) :
    ActiveSettled dir after (batches ++ [batch]) := by
  obtain ⟨_, afterHolds, built, bytes, _⟩ :=
    append_active_ok holds.toActiveHolds intact starts appended
  refine ⟨afterHolds, ?_, built⟩
  rw [bytes, holds.whole]
  simp [overwrite, List.take_of_length_le, List.drop_of_length_le]

def batchesFrom : Nat → List Bytes → List Bytes
  | _, [] => []
  | position, batch :: batches =>
      if position = 0 then batch :: batches else batchesFrom (position - batch.length) batches

theorem batches_from_split {before after : List Bytes}
    (intact : ∀ batch ∈ before, IntactBatch batch) :
    batchesFrom before.flatten.length (before ++ after) = after := by
  induction before with
  | nil => cases after <;> simp [batchesFrom]
  | cons batch before ih =>
      have positive := (intact batch (by simp)).positive
      have rest := ih (fun other member => intact other (by simp [member]))
      simp only [List.flatten_cons, List.length_append, List.cons_append, batchesFrom]
      rw [if_neg (by omega), Nat.add_sub_cancel_left, rest]

/-- A sealed segment: every index entry is the start of a batch, and the end
state is what the walk from the last of them found. -/
structure SealedHolds (segment : SealedSegment) (batches : List Bytes) : Prop
    extends SegmentHolds segment batches where
  named : ∀ entry ∈ segment.index.entries, NamesBatch segment.baseOffset batches entry
  largest : segment.largestTimestamp =
    largestOf (-1) (batchesFrom segment.index.lastIndexed batches)
  full : segment.log.size = segment.log.bytes.length

/-- The object `SealedSegment::open` builds on a file that holds the batches. -/
def sealedSegment (fd : Int) (path : String) (base : Int) (bytes : Bytes) (index : OffsetIndex)
    (batches : List Bytes) : SealedSegment where
  log := FileHandle.ofContents fd path bytes
  index := index.openSealed
  baseOffset := base
  nextOffset := endOffset base batches
  largestTimestamp := largestOf (-1) (batchesFrom index.lastIndexed batches)

theorem open_sealed_spec {fd : Int} {path : String} {base : Int} {bytes : Bytes}
    {index : OffsetIndex} {batches : List Bytes}
    (holds : HoldsBatches (FileHandle.ofContents fd path bytes) batches)
    (ascending : Ascending base batches) (based : index.baseOffset = base)
    (named : ∀ entry ∈ index.entries, NamesBatch base batches entry) :
    SealedSegment.open fd path base bytes (some index) =
        .ok (sealedSegment fd path base bytes index batches) ∧
      SealedHolds (sealedSegment fd path base bytes index batches) batches := by
  subst based
  obtain ⟨entry, found, starts, place⟩ := index.openSealed.lookup_last
  have sameLast : index.openSealed.lastIndexed = index.lastIndexed := rfl
  rw [sameLast] at starts
  obtain ⟨before, after, split, position, occupied⟩ : ∃ before after, batches = before ++ after ∧
      entry.position = before.flatten.length ∧ (after = [] → batches = []) := by
    rcases place with rfl | member
    · exact ⟨[], batches, rfl, rfl, id⟩
    · obtain ⟨before, batch, after, split, starts, _⟩ := named entry member
      exact ⟨before, batch :: after, split, starts, nofun⟩
  have tail : batchesFrom index.lastIndexed batches = after := by
    rw [← starts, position, split]
    exact batches_from_split (fun batch member => holds.intact batch (by simp [split, member]))
  have ends : endOffset index.baseOffset after = endOffset index.baseOffset batches := by
    by_cases none : after = []
    · rw [none, occupied none]
    · rw [split, end_offset_append]
      exact end_offset_occupied _ _ none
  refine ⟨?_, ?_⟩
  · have derived := derive_end_state
      { log := FileHandle.ofContents fd path bytes
        index := index.openSealed
        baseOffset := index.baseOffset
        nextOffset := index.baseOffset
        largestTimestamp := -1 } (split ▸ holds) found position
    simp only [SealedSegment.open, derived, sealedSegment, tail, ends]
  · exact
      { toHoldsBatches := holds
        ascending := ascending
        ends := rfl
        based := rfl
        indexed := fun entry member => .inl (named entry member)
        named := named
        largest := rfl
        full := rfl }

theorem batch_at_congr {first second : FileHandle} (same : first.bytes = second.bytes)
    (limit position : Nat) : batchAt first limit position = batchAt second limit position := by
  have reads : first.readAt = second.readAt := by
    funext position count
    simp only [FileHandle.readAt, same]
  rw [batchAt, batchAt, reads]

theorem SealedHolds.reopen {segment : SealedSegment} {batches : List Bytes}
    (holds : SealedHolds segment batches) (fd : Int) (path : String) :
    HoldsBatches (FileHandle.ofContents fd path segment.log.bytes) batches where
  intact := holds.intact
  front := holds.front
  within := by
    have within := holds.within
    rw [holds.full] at within
    exact within
  quiet := by
    have quiet := holds.quiet
    rw [holds.full] at quiet
    rw [← quiet]
    exact batch_at_congr rfl _ _

structure SameSegment (first second : SegmentBase) : Prop where
  bytes : first.log.bytes = second.log.bytes
  size : first.log.size = second.log.size
  base : first.baseOffset = second.baseOffset
  next : first.nextOffset = second.nextOffset
  largest : first.largestTimestamp = second.largestTimestamp
  entries : first.index.entries = second.index.entries

theorem reopen_sealed_spec {segment : SealedSegment} {batches : List Bytes}
    (holds : SealedHolds segment batches) (fd : Int) (path : String) :
    ∃ reopened, SealedSegment.open fd path segment.baseOffset segment.log.bytes
        (some segment.index) = .ok reopened ∧ SealedHolds reopened batches ∧
      SameSegment reopened segment ∧ reopened.log.fd = fd := by
  obtain ⟨opened, reopened⟩ := open_sealed_spec (holds.reopen fd path) holds.ascending holds.based
    holds.named
  refine ⟨_, opened, reopened, ⟨rfl, holds.full.symm, rfl, holds.ends.symm, holds.largest.symm, rfl⟩, rfl⟩

def ActiveSegment.undangling (segment : ActiveSegment) : Bool :=
  segment.index.entries.all (·.position != segment.log.size)

/-- What lies behind the write position is not read as a batch. -/
def ActiveSegment.quietTail (segment : ActiveSegment) : Bool :=
  match batchAt segment.log segment.log.bytes.length segment.log.size with
  | .ok none => true
  | _ => false

theorem undangling_named {dir : String} {segment : ActiveSegment} {batches : List Bytes}
    (holds : ActiveHolds dir segment batches) (undangling : segment.undangling = true) :
    ∀ entry ∈ segment.index.entries, NamesBatch segment.baseOffset batches entry := by
  intro entry member
  rcases holds.segmentHolds.indexed entry member with names | ⟨atEnd, _⟩
  · exact names
  · have elsewhere := List.all_eq_true.mp undangling entry member
    simp [atEnd, holds.tight] at elsewhere

theorem settled_seals {dir : String} {segment : ActiveSegment} {batches : List Bytes}
    (holds : ActiveSettled dir segment batches) :
    segment.undangling = true ∧ segment.quietTail = true := by
  constructor
  · apply List.all_eq_true.mpr
    intro entry member
    have names := (built_index_names holds.plain holds.consecutive.ascending).2 entry member
    have below := names_batch_below holds.intact names
    simp only [bne_iff_ne, ne_eq, holds.tight]
    omega
  · have ends : segment.log.bytes.length = segment.log.size := by rw [holds.whole, holds.tight]
    simp [ActiveSegment.quietTail, batch_at_end _ ends.le]

/-- Sealing keeps the batches when nothing of a failed append is left over. -/
theorem seal_spec {dir : String} {segment : ActiveSegment} {batches : List Bytes}
    (holds : ActiveHolds dir segment batches) (undangling : segment.undangling = true)
    (quiet : segment.quietTail = true) (fd : Int) :
    segment.sealSegment fd = .ok (sealedSegment fd segment.log.path segment.baseOffset
        segment.log.bytes segment.index batches) ∧
      SealedHolds (sealedSegment fd segment.log.path segment.baseOffset segment.log.bytes
        segment.index batches) batches := by
  apply open_sealed_spec _ holds.consecutive.ascending holds.segmentHolds.based
    (undangling_named holds undangling)
  constructor
  · exact holds.intact
  · exact holds.front
  · exact holds.tight ▸ segment.log.within
  · unfold ActiveSegment.quietTail at quiet
    split at quiet
    · next nothing =>
      rw [← holds.tight, ← nothing]
      exact batch_at_congr rfl _ _
    · cases quiet

theorem batch_at_error {log : FileHandle} {limit position : Nat} {failure : Error}
    (failed : batchAt log limit position = .error failure) : ∃ what, failure = .corruptData what := by
  unfold batchAt at failed
  split at failed
  · cases failed
  split at failed
  · cases failed
  simp only at failed
  split at failed
  · cases failed
  rcases except_bind_error failed with unparsed | ⟨header, _, failed⟩
  · exact parse_header_error unparsed
  rcases except_bind_error failed with unsized | ⟨total, _, failed⟩
  · exact total_size_of_error unsized
  · split at failed <;> cases failed

/-- Whether recovery takes the bytes at a position for the next batch. -/
def continuesLog (log : FileHandle) (position : Nat) (next : Int) : Bool :=
  match batchAt log log.bytes.length position with
  | .ok (some found) =>
      let batch := log.readAt position found.totalSize
      batch.length == found.totalSize && (verifyCrc batch matches .ok true) &&
        found.header.baseOffset == next
  | _ => false

theorem recover_batch_intact {state : ActiveSegment.Recovery} {before rest batch : Bytes}
    {indexed : IndexState} (intact : IntactBatch batch)
    (contents : state.segment.log.bytes = before ++ (batch ++ rest)) (starts : baseOf batch = state.next)
    (step : indexStep state.segment.policy state.segment.indexState (baseOf batch) before.length =
      .ok indexed) :
    ActiveSegment.recoverBatch none state before.length ⟨headerOf batch, before.length, batch.length⟩ =
      .ok (.next
        { segment :=
            { state.segment with
              index := indexed.index
              bytesSinceIndexEntry := indexed.since + batch.length }
          next := lastOf batch + 1
          largest := max state.largest (timestampOf batch) }) := by
  have whole : state.segment.log.readAt before.length batch.length = batch := by
    rw [FileHandle.readAt, contents, List.drop_left' rfl, List.take_left' rfl]
  have same : (headerOf batch).baseOffset = state.next := starts
  have added := maybe_add_index_entry_ok.mpr ⟨indexed, step, rfl⟩
  unfold baseOf at added
  simp [ActiveSegment.recoverBatch, whole, intact.checked, ActiveSegment.orElseCorrupt, same]
  rw [same] at added
  rw [added]
  rfl

theorem recover_passes (segment : ActiveSegment) (next largest : Int) (before : List Bytes)
    {after : List Bytes} {built : IndexState} (intact : ∀ batch ∈ after, IntactBatch batch)
    (front : (before ++ after).flatten <+: segment.log.bytes) (consecutive : Consecutive next after)
    (all : indexAll segment.policy segment.indexState before.flatten.length after = .ok built) :
    PassesTo BatchAt.totalSize (ActiveSegment.recoverBatch none) before.flatten.length
      ⟨segment, next, largest⟩ (framesAt before.flatten.length after)
      ⟨{ segment with index := built.index, bytesSinceIndexEntry := built.since },
        endOffset next after, largestOf largest after⟩ := by
  induction after generalizing segment next largest before with
  | nil =>
      cases Except.ok.inj all
      rfl
  | cons batch after ih =>
      obtain ⟨stepped, step, all⟩ := except_bind_ok all
      obtain ⟨starts, _, later⟩ := consecutive
      have shifted : before ++ batch :: after = (before ++ [batch]) ++ after := by simp
      obtain ⟨rest, contents⟩ := front
      have here : segment.log.bytes = before.flatten ++ (batch ++ (after.flatten ++ rest)) := by
        rw [← contents]
        simp
      refine ⟨_, recover_batch_intact (intact batch (by simp)) here starts step, ?_⟩
      have passes := ih
        { segment with
          index := stepped.index
          bytesSinceIndexEntry := stepped.since + batch.length }
        (lastOf batch + 1) (max largest (timestampOf batch)) (before ++ [batch])
        (fun other member => intact other (by simp [member])) ⟨rest, shifted ▸ contents⟩ later
        (by simpa [ActiveSegment.indexState] using all)
      simpa [framesAt, endOffset, largestOf] using passes

theorem recover_stops (state : ActiveSegment.Recovery) {log : FileHandle} {position : Nat} (fuel : Nat)
    (same : state.segment.log = log) (ends : continuesLog log position state.next = false) :
    walk (fun position => ActiveSegment.orElseCorrupt (batchAt log log.bytes.length position) none)
      BatchAt.totalSize (ActiveSegment.recoverBatch none) (fuel + 1) position state =
        .ok (position, state) := by
  subst same
  cases peeked : batchAt state.segment.log state.segment.log.bytes.length position with
  | error failure =>
      obtain ⟨what, rfl⟩ := batch_at_error peeked
      simp [walk, peeked, ActiveSegment.orElseCorrupt]
  | ok found =>
      cases found with
      | none => simp [walk, peeked, ActiveSegment.orElseCorrupt]
      | some found =>
          have refused : ActiveSegment.recoverBatch none state position found = .ok (.stop state) := by
            simp only [continuesLog, peeked, Bool.and_eq_false_iff, beq_eq_false_iff_ne] at ends
            simp only [ActiveSegment.recoverBatch, Option.any_none, Bool.false_eq_true, if_false]
            split
            · rfl
            · next full =>
              have taken : (state.segment.log.readAt position found.totalSize).length =
                  found.totalSize := by
                have := List.length_take_le found.totalSize (state.segment.log.bytes.drop position)
                simp only [FileHandle.readAt] at full this ⊢
                omega
              cases checked : verifyCrc (state.segment.log.readAt position found.totalSize) with
              | error failure =>
                  obtain ⟨what, rfl⟩ := verify_crc_error checked
                  simp [ActiveSegment.orElseCorrupt, pure, Except.pure]
              | ok intact =>
                  cases intact with
                  | false => simp [ActiveSegment.orElseCorrupt, pure, Except.pure]
                  | true =>
                      rw [checked] at ends
                      have gap : found.header.baseOffset ≠ state.next := by simpa [taken] using ends
                      simp [ActiveSegment.orElseCorrupt, gap, pure, Except.pure]
          simp [walk, peeked, ActiveSegment.orElseCorrupt, refused]

/-- Recovery of a file that holds the batches and then something that does not
continue them: the batches stay, the rest is cut off, the index is rebuilt. -/
theorem recover_spec {dir : String} {base : Int} {policy : RollPolicy} {bytes : Bytes}
    {batches : List Bytes} {built : IndexState} (intact : ∀ batch ∈ batches, IntactBatch batch)
    (front : batches.flatten <+: bytes) (consecutive : Consecutive base batches)
    (index : BuiltIndex dir base policy batches built) (fd : Int) (clockMs : Int)
    (ends : continuesLog (FileHandle.ofContents fd (segmentLogPath dir base) bytes)
      batches.flatten.length (endOffset base batches) = false) :
    ∃ recovered, ActiveSegment.recover fd dir base bytes policy none clockMs = .ok recovered ∧
      ActiveSettled dir recovered batches ∧ recovered.indexState = built ∧
      recovered.baseOffset = base ∧ recovered.policy = policy ∧ recovered.log.fd = fd := by
  obtain ⟨fresh, created, all⟩ := index
  obtain ⟨empty, based⟩ := create_index_ok created
  let log := FileHandle.ofContents fd (segmentLogPath dir base) bytes
  let segment : ActiveSegment :=
    { log, index := fresh, baseOffset := base
      nextOffset := base
      largestTimestamp := -1
      policy
      bytesSinceIndexEntry := 0
      firstAppendMs := -1 }
  have passes := recover_passes segment base (-1) [] intact front consecutive all
  have laid := @laid_front_batches log log.size [] _ (fun batch member => (intact batch member).shaped) front front.length_le
  have laidRecovery := laid_front_mono _ _
    (fun position => ActiveSegment.orElseCorrupt (batchAt log log.size position) none)
    (fun position frame found => by simp [ActiveSegment.orElseCorrupt, found]) laid
  have fuel : ∃ spare, log.size + 1 = (framesAt 0 batches).length + (spare + 1) := by
    have count := count_le_bytes fun batch member => (intact batch member).positive
    have within : batches.flatten.length ≤ log.size := front.length_le
    exact ⟨log.size - batches.length, by simp; omega⟩
  obtain ⟨spare, turns⟩ := fuel
  have walked := walk_passes _ _ _ (spare + 1) laidRecovery passes
  have stopped := recover_stops
      ⟨{ segment with index := built.index, bytesSinceIndexEntry := built.since },
        endOffset base batches, largestOf (-1) batches⟩ spare (rfl : _ = log) ends
  have sized : log.bytes.length = log.size := rfl
  rw [sized] at stopped
  have frontTaken : bytes.take batches.flatten.length = batches.flatten :=
    (List.prefix_iff_eq_take.mp front).symm
  have within : batches.flatten.length ≤ bytes.length := front.length_le
  rw [total_width_frames, List.flatten_nil, List.length_nil, Nat.zero_add] at walked
  simp only [ActiveSegment.recover, created, except_ok_bind]
  rw [turns, walked]
  rw [stopped]
  simp only [except_ok_bind]
  obtain ⟨cutBytes, cutSize, cutFd⟩ := FileHandle.cut_spec log rfl within
  have taken : log.bytes.take batches.flatten.length = batches.flatten := frontTaken
  refine ⟨_, rfl, ?_, rfl, rfl, rfl, cutFd⟩
  exact
    { shaped := fun batch member => (intact batch member).shaped
      intact := intact
      front := (cutBytes.trans taken).symm ▸ List.prefix_refl _
      tight := cutSize
      consecutive := consecutive
      ends := rfl
      largest := rfl
      built := ⟨built, ⟨fresh, created, all⟩, .inl rfl⟩
      whole := cutBytes.trans taken
      plain := ⟨fresh, created, all⟩ }

end DariyaKyu.Storage

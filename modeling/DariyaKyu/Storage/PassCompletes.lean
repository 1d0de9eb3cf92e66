import DariyaKyu.Storage.KeyMapping

/-!
When a pass returns. A segment whose batches decode and that spans no more than
an index can describe is rewritten, whatever the rules keep of it: nothing but
an entry that does not fit the index could stop its rewriting.
-/

namespace DariyaKyu.Storage

set_option autoImplicit false

theorem create_writable {path : String} {base : Int} {maxBytes : Nat} {fresh : OffsetIndex}
    (created : OffsetIndex.create path base maxBytes = .ok fresh) : fresh.writable = true := by
  unfold OffsetIndex.create at created
  split at created
  · cases created
  · cases created
    rfl

theorem append_writable {index next : OffsetIndex} {offset : Int} {position : Nat}
    (writable : index.writable = true) (appended : index.append offset position = .ok next) :
    next.writable = true := by
  rcases OffsetIndex.append_ok appended with ⟨same, _⟩ | ⟨_, _, _, _, same, _⟩
  · exact same ▸ writable
  · exact same.trans writable

theorem decodes_of_well_formed {batch : Bytes} {records : List LogRecord}
    (formed : WellFormedBatch batch records) : ∃ raw, decodeRecords batch = .ok raw := by
  have decodes := formed.decodes
  obtain ⟨_, _, decodes⟩ := except_bind_ok decodes
  obtain ⟨raw, decoded, _⟩ := except_bind_ok decodes
  exact ⟨raw, decoded⟩

theorem entry_advances {base newBase : Int} {roll : RollPolicy} {state : CleanedSegment}
    {news : List Bytes} (holds : CleanHolds base roll state news) (occupied : ∀ batch ∈ news, 0 < batch.length)
    (behind : ∀ batch ∈ news, baseOf batch < newBase) :
    ∀ last ∈ state.index.entries.getLast?,
      last.Below ⟨(newBase - state.index.baseOffset).toNat, state.log.length⟩ := by
  intro last isLast
  obtain ⟨before, batch, after, split, position, offset⟩ := holds.named last (List.mem_of_mem_getLast? isLast)
  have member : batch ∈ news := by simp [split]
  have below := behind batch member
  have positive := occupied batch member
  have further : before.flatten.length < state.log.length := by
    rw [holds.bytes, split]
    simp only [List.flatten_append, List.flatten_cons, List.length_append]
    omega
  refine ⟨?_, position ▸ further⟩
  simp only [holds.based]
  omega

theorem rewrite_batch_returns {base : Int} {roll : RollPolicy} (rules : RetainRules)
    {state : CleanedSegment} {news : List Bytes} {scanned : ScannedBatch} {raw : List Record}
    (holds : CleanHolds base roll state news) (occupied : ∀ batch ∈ news, 0 < batch.length)
    (writable : state.index.writable = true) (ordered : OrderedBatch scanned.bytes)
    (decoded : decodeRecords scanned.bytes = .ok raw) (header : scanned.header = headerOf scanned.bytes)
    (behind : ∀ record ∈ recordsOf scanned.bytes, ∀ batch ∈ news, baseOf batch < record.offset)
    (reach : ∀ record ∈ recordsOf scanned.bytes, base ≤ record.offset ∧ record.offset < base + 2 ^ 32)
    (short : state.log.length < 2 ^ 32) :
    ∃ next, rewriteBatch roll rules state scanned = .ok next ∧ next.index.writable = true ∧
      next.log.length ≤
        state.log.length + (kBatchHeaderSize + ((recordsOf scanned.bytes).map recordBound).sum) := by
  obtain ⟨counted, sameLog, sameIndex, _, _, done⟩ :=
    @rewrite_batch_eq roll rules state scanned raw ordered header decoded
  rcases done with ⟨_, ran⟩ | ⟨new, _, tells, _, size, ran⟩
  · exact ⟨counted, ran, by rw [sameIndex, writable], by rw [sameLog]; omega⟩
  · obtain ⟨first, isFirst, starts⟩ := Option.map_eq_some_iff.mp tells.base.symm
    have member := List.mem_of_mem_filter (List.mem_of_mem_head? isFirst)
    rw [ran]
    split
    · next due =>
      have unwrapped : state.log.length % 2 ^ 32 = state.log.length := Nat.mod_eq_of_lt short
      have based := holds.based
      have inReach := reach first member
      obtain ⟨index, appended⟩ := @OffsetIndex.append_succeeds state.index (baseOf new) state.log.length
        writable due.1 (by omega) (by simp only [kMaxUint32]; omega)
        (entry_advances holds occupied (starts ▸ behind first member))
      rw [unwrapped, appended]
      refine ⟨_, rfl, append_writable writable appended, ?_⟩
      simp only [List.length_append]
      omega
    · refine ⟨_, rfl, by simp only [sameIndex, writable], ?_⟩
      simp only [List.length_append]
      omega

theorem rewrite_batches_returns {base : Int} {roll : RollPolicy} (rules : RetainRules)
    {state : CleanedSegment} {news olds : List Bytes} (position : Nat) (holds : CleanHolds base roll state news)
    (occupied : ∀ batch ∈ news, 0 < batch.length) (writable : state.index.writable = true)
    (ordered : ∀ batch ∈ olds, OrderedBatch batch ∧ ∃ raw, decodeRecords batch = .ok raw)
    (inOrder : (olds.flatMap recordsOf).Pairwise (·.offset < ·.offset))
    (behind : ∀ record ∈ olds.flatMap recordsOf, ∀ batch ∈ news, baseOf batch < record.offset)
    (reach : ∀ record ∈ olds.flatMap recordsOf, base ≤ record.offset ∧ record.offset < base + 2 ^ 32)
    (short : state.log.length + rewriteBound olds ≤ 2 ^ 32) :
    ∃ final, rewriteBatches roll rules state (scannedAt position olds) = .ok final := by
  induction olds generalizing state news position with
  | nil => exact ⟨state, rfl⟩
  | cons old olds ih =>
      obtain ⟨⟨oldOrdered, raw, decoded⟩, others⟩ := List.forall_mem_cons.mp ordered
      rw [List.flatMap_cons] at inOrder behind reach
      obtain ⟨_, laterInOrder, across⟩ := List.pairwise_append.mp inOrder
      rw [rewrite_bound_cons] at short
      have header : (ScannedBatch.mk (headerOf old) old position).header = headerOf old := rfl
      have positive : 0 < kBatchHeaderSize := by decide
      have fits : state.log.length < 2 ^ 32 := by omega
      obtain ⟨next, ran, nextWritable, size⟩ := rewrite_batch_returns rules holds occupied writable
        oldOrdered decoded header (fun record member => behind record (List.mem_append_left _ member))
        (fun record member => reach record (List.mem_append_left _ member)) fits
      simp only at size
      have laterBehind : ∀ record ∈ olds.flatMap recordsOf, ∀ batch ∈ news, baseOf batch < record.offset :=
        fun record member => behind record (List.mem_append_right _ member)
      have laterReach : ∀ record ∈ olds.flatMap recordsOf, base ≤ record.offset ∧
          record.offset < base + 2 ^ 32 :=
        fun record member => reach record (List.mem_append_right _ member)
      simp only [scannedAt, rewriteBatches, ran, except_ok_bind]
      rcases (rewrite_batch_cases oldOrdered header ran).2 with
        ⟨_, sameLog, sameIndex, since⟩ | ⟨new, formed, tells, _, _, written, indexed⟩
      · exact ih _ (holds.carry sameLog sameIndex since) occupied nextWritable others laterInOrder
          laterBehind laterReach (by omega)
      · obtain ⟨first, isFirst, starts⟩ := Option.map_eq_some_iff.mp tells.base.symm
        have member := List.mem_of_mem_filter (List.mem_of_mem_head? isFirst)
        have nextHolds := clean_holds_concat holds (.inr fits) (intact_length_lt formed.toIntactBatch)
          written indexed
        refine ih _ nextHolds ?_ nextWritable others laterInOrder ?_ laterReach (by omega)
        · exact List.forall_mem_append.mpr
            ⟨occupied, List.forall_mem_singleton.mpr formed.toIntactBatch.positive⟩
        · intro record inOthers
          exact List.forall_mem_append.mpr ⟨laterBehind record inOthers,
            List.forall_mem_singleton.mpr (starts ▸ across first member record inOthers)⟩

section Segment

variable {dir : String} {roll : RollPolicy} {rules : RetainRules} {segment : SealedSegment}

/-- A segment that an index can describe, however its batches are rewritten. -/
structure SealedSegment.Indexable (segment : SealedSegment) : Prop where
  span : segment.nextOffset ≤ segment.baseOffset + 2 ^ 32
  size : rewriteBound (batchesIn segment) ≤ 2 ^ 32

theorem drops_anything_returns (rules : RetainRules) {batches : List Bytes} (position : Nat)
    (formed : ∀ batch ∈ batches, WellFormedBatch batch (recordsOf batch)) :
    ∃ drops, dropsAnything rules (scannedAt position batches) = .ok drops := by
  induction batches generalizing position with
  | nil => exact ⟨false, rfl⟩
  | cons batch batches ih =>
      simp only [List.forall_mem_cons] at formed
      obtain ⟨raw, decoded⟩ := decodes_of_well_formed formed.1
      simp only [scannedAt, dropsAnything, decoded, except_ok_bind]
      split
      · exact ⟨true, rfl⟩
      · exact ih _ formed.2

/-- A pass gets past every segment in order whose batches decode and whose index
entries fit. -/
theorem gets_past_indexable {freshPath : String} {freshBase : Int} {fresh : OffsetIndex}
    (holds : SealedHolds segment (batchesIn segment))
    (room : roll.indexIntervalBytes + 2 ^ 31 + 12 ≤ 2 ^ 32)
    (created : OffsetIndex.create freshPath freshBase roll.maxIndexBytes = .ok fresh)
    (formed : ∀ batch ∈ batchesIn segment, WellFormedBatch batch (recordsOf batch) ∧ lastOf batch < 2 ^ 63)
    (indexable : segment.Indexable) : segment.getsPast dir roll rules = true := by
  have whole : ∀ batch ∈ batchesIn segment, FormedBatch batch ∧ lastOf batch < 2 ^ 63 :=
    fun batch member => ⟨⟨(formed batch member).1.toIntactBatch, fun _ => ⟨_, (formed batch member).1⟩⟩,
      (formed batch member).2⟩
  obtain ⟨drops, scanned⟩ := drops_anything_returns rules 0 fun batch member => (formed batch member).1
  have asked : wouldDropAnything segment.log.bytes rules = .ok drops := by
    simp only [wouldDropAnything, scan_sealed holds, except_ok_bind, scanned]
  unfold SealedSegment.getsPast
  rw [asked]
  cases drops with
  | false => rfl
  | true =>
      obtain ⟨index, made⟩ := @create_elsewhere freshPath (segmentIndexPath dir segment.baseOffset ++ ".cleaned")
        freshBase segment.baseOffset roll.maxIndexBytes fresh created
      obtain ⟨empty, based⟩ := create_index_ok made
      have started : CleanHolds segment.baseOffset roll
          { log := [], index, sinceLastIndex := 0, recordsKept := 0, recordsDropped := 0 } [] :=
        clean_holds_fresh empty based
      have span := indexable.span
      rw [holds.ends] at span
      have reach : ∀ record ∈ (batchesIn segment).flatMap recordsOf,
          segment.baseOffset ≤ record.offset ∧ record.offset < segment.baseOffset + 2 ^ 32 := by
        intro record member
        obtain ⟨batch, inside, among⟩ := List.mem_flatMap.mp member
        have within := well_formed_within (formed batch inside).1 among
        have above := (start_le_base holds.ascending inside).1
        have below := last_lt_end holds.ascending inside
        omega
      obtain ⟨cleaned, ran⟩ := rewrite_batches_returns rules 0 started (by simp) (create_writable made)
        (fun batch member => ⟨(whole batch member).1.ordered (whole batch member).2,
          decodes_of_well_formed (formed batch member).1⟩)
        (ascending_records holds.ascending fun batch member => (whole batch member).1) (by simp) reach
        (by simpa using indexable.size)
      have rewrote : rewriteSegment dir segment.log.bytes segment.baseOffset roll rules = .ok cleaned := by
        simp only [rewriteSegment, made, except_ok_bind, scan_sealed holds, ran]
      obtain ⟨news, rewritten, bytes, cleanedBase, named, _⟩ :=
        rewrite_segment_spec (scan_sealed holds) (.inl room) whole rewrote
      have held := holds_contents rewritten.intact bytes 0 (segmentLogPath dir segment.baseOffset)
      obtain ⟨reopened, _⟩ := open_sealed_spec held (rewritten.ascending holds.ascending le_rfl).1 cleanedBase
        named
      simp only [rewrote, reopened, Except.isOk, Except.toBool, Bool.or_true]

end Segment

/-- The loop over the segments returns exactly when it gets past each of those
that it has to go over. -/
theorem clean_segments_returns {rules : RetainRules} (mappedThrough nowMs : Int) {swap : Log}
    {done pending : List SealedSegment} (result : CleanResult) (split : swap.sealedMap = done ++ pending)
    (ordered : pending.Pairwise (·.baseOffset < ·.baseOffset))
    (ahead : ∀ segment ∈ pending, ∀ other ∈ done, other.baseOffset < segment.baseOffset) :
    (∃ finished, (cleanSegments rules mappedThrough nowMs swap result (pending.map (·.info))).outcome =
        .ok finished ∧ finished.nextDirtyOffset = result.nextDirtyOffset) ↔
      ∀ segment ∈ pending, segment.baseOffset < mappedThrough →
        segment.getsPast swap.dir swap.config.roll rules = true := by
  induction pending generalizing swap done result with
  | nil => simp [cleanSegments]
  | cons segment behind ih =>
      obtain ⟨above, later⟩ := List.pairwise_cons.mp ordered
      by_cases beyond : mappedThrough ≤ segment.baseOffset
      · have stops : mappedThrough ≤ segment.info.baseOffset := beyond
        simp only [List.map_cons, cleanSegments, stops, if_true]
        refine ⟨?_, fun _ => ⟨result, rfl, rfl⟩⟩
        intro _ other member below
        rcases List.mem_cons.mp member with rfl | isLater
        · omega
        · have := above other isLater
          omega
      · have goes : ¬ mappedThrough ≤ segment.info.baseOffset := beyond
        simp only [List.map_cons, cleanSegments, goes, if_false, List.forall_mem_cons]
        have front : ∀ other ∈ done, other.baseOffset ≠ segment.baseOffset :=
          fun other member => (ahead segment List.mem_cons_self other member).ne
        have back : ∀ other ∈ behind, other.baseOffset ≠ segment.baseOffset :=
          fun other member => (above other member).ne'
        rcases @clean_segment_turn rules _ _ _ _ split front back nowMs result with
          ⟨stuck, failure, nextFd, failed⟩ |
          ⟨past, left, counted, graveyard, nextFd, turned, dirty, made⟩
        · rw [failed]
          simp [stuck, not_le.mp beyond]
        · rw [made]
          have inFront : ∀ other ∈ behind, ∀ earlier ∈ done ++ left,
              earlier.baseOffset < other.baseOffset := by
            intro other member earlier inside
            rcases List.mem_append.mp inside with isDone | isLeft
            · exact ahead other (List.mem_cons_of_mem _ member) earlier isDone
            · rw [turned.bases earlier isLeft]
              exact above other member
          have rest := @ih
            { swap with sealedMap := done ++ left ++ behind, graveyard := graveyard, nextFd := nextFd }
            (done ++ left) counted rfl later inFront
          simp only [past, implies_true, true_and]
          rw [← dirty]
          exact rest

section Log

variable {log : Log}

def Log.Uncompressed (log : Log) : Prop :=
  ∀ segment ∈ log.sealedMap, ∀ batch ∈ batchesIn segment,
    (headerOf batch).compression = compressionNone

theorem Cleanable.sealedFormed (cleanable : Cleanable log) (plain : log.Uncompressed)
    {segment : SealedSegment} (member : segment ∈ log.sealedMap) :
    ∀ batch ∈ batchesIn segment, WellFormedBatch batch (recordsOf batch) ∧ lastOf batch < 2 ^ 63 := by
  intro batch inside
  obtain ⟨formed, range⟩ := cleanable.sealedBounded member batch inside
  obtain ⟨records, wellFormed⟩ := formed.formed (plain segment member batch inside)
  exact ⟨records_of_formed wellFormed ▸ wellFormed, range⟩

theorem map_batches_returns (map : KeyOffsetMap) {batches : List Bytes} (position : Nat)
    (formed : ∀ batch ∈ batches, WellFormedBatch batch (recordsOf batch)) :
    ∃ mapped, mapBatches map (scannedAt position batches) = .ok mapped := by
  induction batches generalizing map position with
  | nil => exact ⟨(map, false), rfl⟩
  | cons batch batches ih =>
      simp only [List.forall_mem_cons] at formed
      obtain ⟨raw, decoded⟩ := decodes_of_well_formed formed.1
      simp only [scannedAt, mapBatches, decoded, except_ok_bind]
      cases mapRecords (headerOf batch) map raw with
      | mk next refused =>
          cases refused with
          | true => exact ⟨(next, true), rfl⟩
          | false => exact ih next _ formed.2

theorem map_dirty_returns (firstDirtyOffset : Int) (state : DirtyMap) {segments : List SealedSegment}
    (holds : ∀ segment ∈ segments, SealedHolds segment (batchesIn segment))
    (formed : ∀ segment ∈ segments, ∀ batch ∈ batchesIn segment, WellFormedBatch batch (recordsOf batch)) :
    ∃ dirty, mapDirty firstDirtyOffset state (segments.map (·.info)) = .ok dirty := by
  induction segments generalizing state with
  | nil => exact ⟨state, rfl⟩
  | cons segment segments ih =>
      simp only [List.forall_mem_cons] at holds formed
      have scanned : scanSegment segment.info.contents = .ok (scannedAt 0 (batchesIn segment)) :=
        scan_sealed holds.1
      rw [List.map_cons, mapDirty]
      split
      · exact ih _ holds.2 formed.2
      · obtain ⟨⟨map, refused⟩, mapped⟩ := map_batches_returns state.map 0 formed.1
        simp only [scanned, mapped, except_ok_bind]
        cases refused with
        | true => exact ⟨_, rfl⟩
        | false => exact ih _ holds.2 formed.2

theorem map_keys_returns (cleanable : Cleanable log) (plain : log.Uncompressed)
    (maxKeyMapEntries : Nat) (firstDirtyOffset : Int) :
    ∃ dirty, log.mapKeys maxKeyMapEntries firstDirtyOffset = .ok dirty :=
  map_dirty_returns _ _ cleanable.sealedHolds fun _ member batch inside =>
    (cleanable.sealedFormed plain member batch inside).1

end Log

end DariyaKyu.Storage

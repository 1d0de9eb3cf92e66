import DariyaKyu.Protocol.Frame
import DariyaKyu.Storage.DecodedSize
import DariyaKyu.Storage.PassCompletes

/-!
What a rewrite leaves of an undamaged segment. Every kept record comes back with
its own offset, timestamp, key, value and headers, in batches whose headers tell
the truth about them, and those batches can be rewritten again.
-/

namespace DariyaKyu.Storage

set_option autoImplicit false

open Protocol

/-- A whole uncompressed batch with records in rising order. It came in a frame,
or it is a rewrite of such batches, which may take more bytes for its deltas. -/
structure UndamagedBatch (batch : Bytes) : Prop extends CheckedBatch batch where
  decodes : ∃ raw, decodeRecords batch = .ok raw
  rising : (recordsOf batch).Pairwise fun earlier later => earlier.offset < later.offset
  lower : ∀ record ∈ recordsOf batch, baseOf batch ≤ record.offset
  range : ∀ record ∈ recordsOf batch, record.offset < 2 ^ 63
  framed : batch.length ≤ kMaxFrameBytes ∨
    kBatchHeaderSize + ((recordsOf batch).map recordBound).sum < 2 ^ 31

instance (batch : Bytes) : Decidable (UndamagedBatch batch) :=
  decidable_of_iff ((totalSizeOf batch = .ok batch.length ∧ verifyCrc batch = .ok true) ∧
      (decodeRecords batch).isOk = true ∧
      (recordsOf batch).Pairwise (fun earlier later => earlier.offset < later.offset) ∧
      (∀ record ∈ recordsOf batch, baseOf batch ≤ record.offset) ∧
      (∀ record ∈ recordsOf batch, record.offset < 2 ^ 63) ∧
      (batch.length ≤ kMaxFrameBytes ∨
        kBatchHeaderSize + ((recordsOf batch).map recordBound).sum < 2 ^ 31))
    ⟨fun ⟨⟨sized, checked⟩, decodes, rising, lower, range, framed⟩ =>
        { sized, checked, rising, lower, range, framed
          decodes := by
            cases decoded : decodeRecords batch with
            | error failure => simp [decoded, Except.isOk, Except.toBool] at decodes
            | ok raw => exact ⟨raw, rfl⟩ },
      fun undamaged =>
        ⟨⟨undamaged.sized, undamaged.checked⟩,
          by obtain ⟨raw, decoded⟩ := undamaged.decodes; rw [decoded]; rfl,
          undamaged.rising, undamaged.lower, undamaged.range, undamaged.framed⟩⟩

/-- The records of a batch that came in a frame can all be written anew. -/
theorem UndamagedBatch.small {batch : Bytes} (undamaged : UndamagedBatch batch) :
    kBatchHeaderSize + ((recordsOf batch).map recordBound).sum < 2 ^ 31 := by
  obtain ⟨raw, decoded⟩ := undamaged.decodes
  rcases undamaged.framed with short | small
  · have takes := (decode_records_ok decoded).2 (headerOf batch)
    rw [← records_of_decoded undamaged.toCheckedBatch decoded] at takes
    unfold kMaxFrameBytes at short
    unfold kBatchHeaderSize at takes ⊢
    omega
  · exact small

theorem UndamagedBatch.ordered {batch : Bytes} (undamaged : UndamagedBatch batch) : OrderedBatch batch where
  toCheckedBatch := undamaged.toCheckedBatch
  range := undamaged.range
  fit := by
    intro raw decoded
    have same := records_of_decoded undamaged.toCheckedBatch decoded
    refine ⟨undamaged.rising, undamaged.lower, ?_, ?_, undamaged.small⟩
    · intro record member
      rw [same] at member
      obtain ⟨original, inRaw, rfl⟩ := List.mem_map.mp member
      have fits := (decode_records_ok decoded).1 original inRaw
      simp only [FitsSigned, Record.resolve, Record.offsetFrom, baseOf] at fits ⊢
      omega
    · intro record member
      rw [same] at member
      obtain ⟨original, _, rfl⟩ := List.mem_map.mp member
      exact wrap_signed_fits _

theorem undamaged_of_well_formed {batch : Bytes} (formed : WellFormedBatch batch (recordsOf batch))
    (range : ∀ record ∈ recordsOf batch, record.offset < 2 ^ 63) : UndamagedBatch batch where
  toCheckedBatch := formed.toIntactBatch.complete
  decodes := decodes_of_well_formed formed
  rising := formed.fit.ordered
  lower := formed.fit.lower
  range := range
  framed := .inr formed.fit.small

theorem HeaderTells.occupied {batch : Bytes} {records : List LogRecord} (tells : HeaderTells batch records) :
    records ≠ [] := by
  rintro rfl
  cases tells.base

section Counters

variable {roll : RollPolicy} {rules : RetainRules}

theorem rewrite_records_count {header : BatchHeader} {state final : RewrittenBatch} {raw : List Record}
    (rewrote : rewriteRecords rules header state raw = .ok final) :
    final.recordsKept + final.recordsDropped = state.recordsKept + state.recordsDropped + raw.length := by
  induction raw generalizing state with
  | nil =>
      cases rewrote
      rfl
  | cons record raw ih =>
      rw [rewriteRecords] at rewrote
      split at rewrote
      · have counted := ih rewrote
        simp only [List.length_cons] at counted ⊢
        omega
      · obtain ⟨builder, _, rest⟩ := except_bind_ok rewrote
        have counted := ih rest
        simp only [List.length_cons] at counted ⊢
        omega

theorem rewrite_batch_count {state next : CleanedSegment} {scanned : ScannedBatch}
    (checked : CheckedBatch scanned.bytes) (rewrote : rewriteBatch roll rules state scanned = .ok next) :
    next.recordsKept + next.recordsDropped =
      state.recordsKept + state.recordsDropped + (recordsOf scanned.bytes).length := by
  obtain ⟨raw, decoded, rewrote⟩ := except_bind_ok rewrote
  obtain ⟨rewritten, done, rewrote⟩ := except_bind_ok rewrote
  have counted := rewrite_records_count done
  have fresh : ({} : RewrittenBatch).recordsKept + ({} : RewrittenBatch).recordsDropped = 0 := rfl
  rw [records_of_decoded checked decoded, List.length_map]
  have total : next.recordsKept = state.recordsKept + rewritten.recordsKept ∧
      next.recordsDropped = state.recordsDropped + rewritten.recordsDropped := by
    simp only at rewrote
    split at rewrote
    · cases rewrote
      exact ⟨rfl, rfl⟩
    · obtain ⟨built, _, rewrote⟩ := except_bind_ok rewrote
      obtain ⟨bytes, _, rewrote⟩ := except_bind_ok rewrote
      split at rewrote
      · obtain ⟨index, _, made⟩ := except_bind_ok rewrote
        cases made
        exact ⟨rfl, rfl⟩
      · cases rewrote
        exact ⟨rfl, rfl⟩
  omega

theorem rewrite_batches_count {state final : CleanedSegment} {olds : List Bytes} {position : Nat}
    (checked : ∀ batch ∈ olds, CheckedBatch batch)
    (rewrote : rewriteBatches roll rules state (scannedAt position olds) = .ok final) :
    final.recordsKept + final.recordsDropped =
      state.recordsKept + state.recordsDropped + (olds.flatMap recordsOf).length := by
  induction olds generalizing state position with
  | nil =>
      cases rewrote
      rfl
  | cons old olds ih =>
      obtain ⟨oldChecked, others⟩ := List.forall_mem_cons.mp checked
      simp only [scannedAt, rewriteBatches] at rewrote
      obtain ⟨next, first, rest⟩ := except_bind_ok rewrote
      have one := @rewrite_batch_count roll rules state next ⟨headerOf old, old, position⟩ oldChecked first
      simp only at one
      have later := ih others rest
      rw [List.flatMap_cons, List.length_append]
      omega

end Counters

/-- The file holds exactly what the rules keep of the batches, in new batches
that say so. -/
structure HoldsKept (rules : RetainRules) (olds : List Bytes) (cleaned : CleanedSegment)
    (news : List Bytes) : Prop where
  bytes : cleaned.log = news.flatten
  scanned : scanSegment cleaned.log = .ok (scannedAt 0 news)
  decodes : ∀ batch ∈ news, logRecordsOf batch = .ok (recordsOf batch)
  records : news.flatMap recordsOf = (olds.flatMap recordsOf).filter rules.keeps
  occupied : ∀ batch ∈ news, recordsOf batch ≠ []
  tells : ∀ batch ∈ news, HeaderTells batch (recordsOf batch)
  undamaged : ∀ batch ∈ news, UndamagedBatch batch
  kept : cleaned.recordsKept = (news.flatMap recordsOf).length
  counted : cleaned.recordsKept + cleaned.recordsDropped = (olds.flatMap recordsOf).length

/-- The kept records fit an index, however many bytes their deltas will take. -/
structure IndexableRecords (base : Int) (olds : List Bytes) : Prop where
  rising : (olds.flatMap recordsOf).Pairwise fun earlier later => earlier.offset < later.offset
  reach : ∀ record ∈ olds.flatMap recordsOf, base ≤ record.offset ∧ record.offset < base + 2 ^ 32
  size : rewriteBound olds ≤ 2 ^ 32

theorem scan_whole {contents : Bytes} {batches : List Bytes} (whole : contents = batches.flatten)
    (checked : ∀ batch ∈ batches, CheckedBatch batch) : scanSegment contents = .ok (scannedAt 0 batches) := by
  subst whole
  exact scan_segment_spec checked (List.prefix_refl _) (scan_at_end le_rfl)

section Rewrite

variable {dir : String} {contents : Bytes} {base : Int} {roll : RollPolicy} {rules : RetainRules}
  {olds : List Bytes}

/-- The cleaned file of an undamaged one, and the entries of its index. -/
theorem rewrite_holds_kept {cleaned : CleanedSegment} (whole : contents = olds.flatten)
    (undamaged : ∀ batch ∈ olds, UndamagedBatch batch)
    (rewrote : rewriteSegment dir contents base roll rules = .ok cleaned) :
    ∃ news, HoldsKept rules olds cleaned news ∧
      (roll.indexIntervalBytes + 2 ^ 31 + 12 ≤ 2 ^ 32 ∨ cleaned.log.length ≤ 2 ^ 32 →
        ∀ entry ∈ cleaned.index.entries, NamesBatch base news entry) := by
  have checked : ∀ batch ∈ olds, CheckedBatch batch :=
    fun batch member => (undamaged batch member).toCheckedBatch
  obtain ⟨index, created, rewrote⟩ := except_bind_ok rewrote
  obtain ⟨empty, based⟩ := create_index_ok created
  simp only [scan_whole whole checked, except_ok_bind] at rewrote
  have counted := rewrite_batches_count checked rewrote
  obtain ⟨news, bytes, formed, records, kept, _, _, holds⟩ :=
    rewrite_batches_writes (fun batch member => (undamaged batch member).ordered) rewrote
  rw [List.nil_append] at bytes
  have range : ∀ batch ∈ news, ∀ record ∈ recordsOf batch, record.offset < 2 ^ 63 := by
    intro batch member record inside
    have among : record ∈ news.flatMap recordsOf := List.mem_flatMap.mpr ⟨batch, member, inside⟩
    rw [records] at among
    obtain ⟨old, isOld, inOld⟩ := List.mem_flatMap.mp (List.mem_of_mem_filter among)
    exact (undamaged old isOld).range record inOld
  refine ⟨news, ?_, fun room => ?_⟩
  · exact
      { bytes, records
        scanned := scan_whole bytes fun batch member => (formed batch member).1.toIntactBatch.complete
        decodes := fun batch member => (formed batch member).1.decodes
        occupied := fun batch member => (formed batch member).2.occupied
        tells := fun batch member => (formed batch member).2
        undamaged := fun batch member => undamaged_of_well_formed (formed batch member).1 (range batch member)
        kept := by rw [kept, records, Nat.zero_add]
        counted := by rw [counted, Nat.zero_add, Nat.zero_add] }
  · exact (holds base [] (clean_holds_fresh empty based) room).named

theorem rewrite_returns (whole : contents = olds.flatten) (undamaged : ∀ batch ∈ olds, UndamagedBatch batch)
    (capacity : kEntrySize ≤ roll.maxIndexBytes) (indexable : IndexableRecords base olds) :
    ∃ cleaned, rewriteSegment dir contents base roll rules = .ok cleaned := by
  have checked : ∀ batch ∈ olds, CheckedBatch batch :=
    fun batch member => (undamaged batch member).toCheckedBatch
  obtain ⟨index, created⟩ : ∃ index, OffsetIndex.create (segmentIndexPath dir base ++ ".cleaned") base
      roll.maxIndexBytes = .ok index := by
    have room : ¬ roll.maxIndexBytes / kEntrySize = 0 := by
      unfold kEntrySize at capacity ⊢
      omega
    exact ⟨_, if_neg room⟩
  obtain ⟨empty, based⟩ := create_index_ok created
  obtain ⟨cleaned, ran⟩ := rewrite_batches_returns rules 0
    (@clean_holds_fresh base roll index empty based) (by simp) (create_writable created)
    (fun batch member => ⟨(undamaged batch member).ordered, (undamaged batch member).decodes⟩)
    indexable.rising (by simp) indexable.reach (by simpa using indexable.size)
  exact ⟨cleaned, by simp only [rewriteSegment, created, scan_whole whole checked, except_ok_bind, ran]⟩

/-- A rewrite of an undamaged segment keeps exactly what the rules accept, record
by record, and it does return while the records fit an index. -/
theorem rewrite_keeps_records (whole : contents = olds.flatten)
    (undamaged : ∀ batch ∈ olds, UndamagedBatch batch) :
    (∀ cleaned, rewriteSegment dir contents base roll rules = .ok cleaned →
      ∃ news, HoldsKept rules olds cleaned news ∧
        (roll.indexIntervalBytes + 2 ^ 31 + 12 ≤ 2 ^ 32 ∨ cleaned.log.length ≤ 2 ^ 32 →
          ∀ entry ∈ cleaned.index.entries, NamesBatch base news entry)) ∧
      (kEntrySize ≤ roll.maxIndexBytes → IndexableRecords base olds →
        ∃ cleaned, rewriteSegment dir contents base roll rules = .ok cleaned) :=
  ⟨fun _ rewrote => rewrite_holds_kept whole undamaged rewrote, rewrite_returns whole undamaged⟩

end Rewrite

def deletedThenWritten : List Bytes :=
  [stamped (recordBatchOf 9 (some [1]) none) 0, stamped (recordBatchOf 9 (some [1]) (some [2])) 1]

theorem rewrite_keeps_records_deletion :
    ∃ (cleaned : CleanedSegment) (news : List Bytes), rewriteSegment "t-0" deletedThenWritten.flatten 0 {}
        ⟨none, 20, 5⟩ = .ok cleaned ∧
      news.flatMap recordsOf = [⟨1, 9, some [1], some [2], []⟩] ∧ cleaned.recordsDropped = 1 := by
  have undamaged : ∀ batch ∈ deletedThenWritten, UndamagedBatch batch := by decide +kernel
  have rules := @rewrite_keeps_records "t-0" deletedThenWritten.flatten 0 {} ⟨none, 20, 5⟩
    deletedThenWritten rfl undamaged
  have indexable : IndexableRecords 0 deletedThenWritten :=
    ⟨by decide +kernel, by decide +kernel, by decide +kernel⟩
  obtain ⟨cleaned, rewrote⟩ := rules.2 (by decide) indexable
  obtain ⟨news, holds, _⟩ := rules.1 cleaned rewrote
  have records : (deletedThenWritten.flatMap recordsOf).filter (RetainRules.keeps ⟨none, 20, 5⟩) =
      [⟨1, 9, some [1], some [2], []⟩] := by decide +kernel
  have count : (deletedThenWritten.flatMap recordsOf).length = 2 := by decide +kernel
  have kept := holds.kept
  have counted := holds.counted
  have left := holds.records.trans records
  rw [left] at kept
  simp only [List.length_singleton] at kept
  exact ⟨cleaned, news, rewrote, left, by omega⟩

end DariyaKyu.Storage

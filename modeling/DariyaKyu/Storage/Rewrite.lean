import DariyaKyu.Storage.LogView

/-!
What a rewrite makes of the batches of a segment. A batch that keeps something
becomes a batch of exactly the records it keeps, at the offsets they had; one
that keeps nothing is gone. The index of the cleaned file names its batches.
-/

namespace DariyaKyu.Storage

set_option autoImplicit false

/-- `retain`, for a record at its place in the log. -/
def RetainRules.keeps (rules : RetainRules) (record : LogRecord) : Bool :=
  match record.key with
  | none => true
  | some key =>
      if rules.map.any (fun map => !map.isLatest key record.offset) then false
      else if record.value.isNone = false then true
      else rules.nowMs - record.timestamp < rules.deleteRetentionMs

theorem retains_eq (rules : RetainRules) (header : BatchHeader) (record : Record) :
    retains rules header record = rules.keeps (record.resolve header) := rfl

/-- An intact batch whose records, if they can be read at all, are in order. -/
structure FormedBatch (batch : Bytes) : Prop extends IntactBatch batch where
  formed : (headerOf batch).compression = compressionNone → ∃ records, WellFormedBatch batch records

theorem records_of_formed {batch : Bytes} {records : List LogRecord}
    (formed : WellFormedBatch batch records) : recordsOf batch = records := by
  rw [recordsOf, formed.decodes]

/-- The records of a batch lie between its base offset and its last one. -/
theorem well_formed_within {batch : Bytes} {records : List LogRecord}
    (formed : WellFormedBatch batch records) {record : LogRecord} (member : record ∈ records) :
    baseOf batch ≤ record.offset ∧ record.offset ≤ lastOf batch := by
  obtain ⟨last, isLast, ends⟩ := formed.last
  refine ⟨formed.fit.lower record member, ?_⟩
  obtain ⟨front, split⟩ := List.getLast?_eq_some_iff.mp isLast
  have ordered := formed.fit.ordered
  rw [split] at member ordered
  rcases List.mem_append.mp member with earlier | same
  · have below := (List.pairwise_append.mp ordered).2.2 record earlier last (by simp)
    rw [lastOf, ← ends]
    omega
  · simp only [List.mem_singleton] at same
    rw [same, ends]
    exact le_refl _

inductive Rewritten (rules : RetainRules) : List Bytes → List Bytes → Prop where
  | nil : Rewritten rules [] []
  | dropped {old : Bytes} {olds news : List Bytes} (was : WellFormedBatch old (recordsOf old))
      (emptied : (recordsOf old).filter rules.keeps = []) (rest : Rewritten rules olds news) :
      Rewritten rules (old :: olds) news
  | kept {old new : Bytes} {olds news : List Bytes} (was : WellFormedBatch old (recordsOf old))
      (formed : WellFormedBatch new ((recordsOf old).filter rules.keeps))
      (begins : ∀ record ∈ ((recordsOf old).filter rules.keeps).head?, baseOf new = record.offset)
      (rest : Rewritten rules olds news) : Rewritten rules (old :: olds) (new :: news)

section Rewritten

variable {rules : RetainRules} {olds news : List Bytes}

theorem Rewritten.intact (rewritten : Rewritten rules olds news) : ∀ batch ∈ news, IntactBatch batch := by
  induction rewritten with
  | nil => simp
  | dropped _ _ _ ih => exact ih
  | kept _ formed _ _ ih => simpa using ⟨formed.toIntactBatch, ih⟩

theorem Rewritten.formed (rewritten : Rewritten rules olds news) :
    ∀ batch ∈ news, WellFormedBatch batch (recordsOf batch) := by
  induction rewritten with
  | nil => simp
  | dropped _ _ _ ih => exact ih
  | kept _ formed _ _ ih =>
      have same := records_of_formed formed
      simpa using ⟨same ▸ formed, ih⟩

theorem Rewritten.records (rewritten : Rewritten rules olds news) :
    news.flatMap recordsOf = (olds.flatMap recordsOf).filter rules.keeps := by
  induction rewritten with
  | nil => rfl
  | dropped _ emptied _ ih => simp [emptied, ih]
  | kept _ formed _ _ ih => simp [records_of_formed formed, ih]

theorem Rewritten.occupied (rewritten : Rewritten rules olds news)
    (some_kept : (olds.flatMap recordsOf).filter rules.keeps ≠ []) : news ≠ [] := by
  rintro rfl
  exact some_kept rewritten.records.symm

theorem rewritten_inside {old new : Bytes} (was : WellFormedBatch old (recordsOf old))
    (formed : WellFormedBatch new ((recordsOf old).filter rules.keeps))
    (begins : ∀ record ∈ ((recordsOf old).filter rules.keeps).head?, baseOf new = record.offset) :
    baseOf old ≤ baseOf new ∧ baseOf new ≤ lastOf new ∧ lastOf new ≤ lastOf old := by
  obtain ⟨last, isLast, ends⟩ := formed.last
  have lastKept : last ∈ (recordsOf old).filter rules.keeps := List.mem_of_mem_getLast? isLast
  have lastInside := well_formed_within was (List.mem_of_mem_filter lastKept)
  obtain ⟨first, isFirst⟩ : ∃ first, ((recordsOf old).filter rules.keeps).head? = some first := by
    cases kept : (recordsOf old).filter rules.keeps with
    | nil => simp [kept] at lastKept
    | cons first rest => exact ⟨first, rfl⟩
  have firstInside := well_formed_within was
    (List.mem_of_mem_filter (List.mem_of_mem_head? (Option.mem_def.mpr isFirst)))
  have starts := begins first isFirst
  have spans := formed.toIntactBatch.spans
  refine ⟨by omega, ?_, ?_⟩
  · simp only [baseOf, lastOf, BatchHeader.lastOffset]
    omega
  · rw [lastOf, ← ends]
    exact lastInside.2

theorem Rewritten.ascending (rewritten : Rewritten rules olds news) {start lower : Int}
    (ascending : Ascending start olds) (below : lower ≤ start) :
    Ascending lower news ∧ endOffset lower news ≤ endOffset start olds := by
  induction rewritten generalizing start lower with
  | nil => exact ⟨trivial, below⟩
  | dropped _ _ _ ih =>
      obtain ⟨above, spans, later⟩ := ascending
      rw [end_offset_cons]
      exact ih later (by omega)
  | @kept old new _ _ was formed begins _ ih =>
      obtain ⟨above, spans, later⟩ := ascending
      obtain ⟨starts, nonempty, ends⟩ := rewritten_inside was formed begins
      have ordered : lastOf new + 1 ≤ lastOf old + 1 := by omega
      obtain ⟨rest, bound⟩ := ih later ordered
      exact ⟨⟨by omega, nonempty, rest⟩, bound⟩

end Rewritten

/-- The loop over the records of one batch builds a batch of those it keeps. -/
theorem rewrite_records_spec (rules : RetainRules) (header : BatchHeader) {newBase : Int}
    {raw : List Record} {before : List LogRecord} {state : RewrittenBatch}
    (holds : BuilderHolds newBase state.builder before)
    (started : state.newBase = before.head?.map (·.offset))
    (fit : RecordsFit newBase (before ++ (raw.map (·.resolve header)).filter rules.keeps))
    (begins : ∀ record ∈ (before ++ (raw.map (·.resolve header)).filter rules.keeps).head?,
      record.offset = newBase) :
    ∃ final, rewriteRecords rules header state raw = .ok final ∧
      BuilderHolds newBase final.builder (before ++ (raw.map (·.resolve header)).filter rules.keeps) ∧
      final.newBase = (before ++ (raw.map (·.resolve header)).filter rules.keeps).head?.map (·.offset) ∧
      final.recordsKept = state.recordsKept + ((raw.map (·.resolve header)).filter rules.keeps).length := by
  induction raw generalizing before state with
  | nil => exact ⟨state, rfl, by simpa using holds, by simpa using started, by simp⟩
  | cons record raw ih =>
      cases keeps : rules.keeps (record.resolve header) with
      | false =>
          simp only [List.map_cons, List.filter_cons, keeps, Bool.false_eq_true, if_false] at fit begins ⊢
          simp only [rewriteRecords, retains_eq, keeps, if_true]
          exact ih holds started fit begins
      | true =>
          simp only [List.map_cons, List.filter_cons, keeps, if_true] at fit begins ⊢
          rw [List.append_cons] at fit begins ⊢
          have front : RecordsFit newBase (before ++ [record.resolve header]) :=
            records_fit_sublist fit (List.sublist_append_left _ _)
              (fun other member => fit.lower other (List.mem_append_left _ member)) le_rfl
          obtain ⟨builder, appended, builderHolds⟩ := append_at_holds holds front
          have base : state.newBase.getD (record.resolve header).offset = newBase := by
            rw [started]
            cases before with
            | nil => exact begins _ (by simp)
            | cons first rest => exact begins _ (by simp)
          have continued : some newBase = (before ++ [record.resolve header]).head?.map (·.offset) := by
            cases before with
            | nil => simpa using (begins _ (by simp)).symm
            | cons first rest => simpa using (begins _ (by simp)).symm
          let taken : RewrittenBatch :=
            { state with builder, newBase := some newBase, recordsKept := state.recordsKept + 1 }
          have takenHolds : BuilderHolds newBase taken.builder (before ++ [record.resolve header]) :=
            builderHolds
          obtain ⟨final, ran, finalHolds, finalBase, count⟩ := ih takenHolds continued fit begins
          refine ⟨final, ?_, finalHolds, finalBase, ?_⟩
          · have offset : record.offsetFrom header.baseOffset = (record.resolve header).offset := rfl
            simp only [rewriteRecords, retains_eq, keeps, Bool.true_eq_false, if_false, offset, base]
            rw [show state.builder.appendAt _ (record.timestampFrom header.firstTimestamp) record.key
              record.value record.headers = .ok builder from appended]
            exact ran
          · have counted : taken.recordsKept = state.recordsKept + 1 := rfl
            rw [count, counted, List.length_cons]
            omega

theorem Rewritten.append {rules : RetainRules} {olds news moreOlds moreNews : List Bytes}
    (rewritten : Rewritten rules olds news) (more : Rewritten rules moreOlds moreNews) :
    Rewritten rules (olds ++ moreOlds) (news ++ moreNews) := by
  induction rewritten with
  | nil => exact more
  | dropped was emptied _ ih => exact .dropped was emptied ih
  | kept was formed begins _ ih => exact .kept was formed begins ih

/-- The cleaned file so far: its batches, an index that names them, and, until
the index is full, every byte behind the last entry counted. -/
structure CleanHolds (base : Int) (roll : RollPolicy) (state : CleanedSegment) (news : List Bytes) :
    Prop where
  bytes : state.log = news.flatten
  based : state.index.baseOffset = base
  named : ∀ entry ∈ state.index.entries, NamesBatch base news entry
  counted : state.index.isFull = true ∨
    state.log.length = state.index.lastIndexed + state.sinceLastIndex
  since : state.sinceLastIndex < roll.indexIntervalBytes + 2 ^ 31 + 12
  within : state.sinceLastIndex ≤ state.log.length

theorem intact_length_lt {batch : Bytes} (intact : IntactBatch batch) : batch.length < 2 ^ 31 + 12 := by
  obtain ⟨_, _, declared⟩ := total_size_of_ok intact.sized
  have fits : FitsSigned 32 (headerOf batch).batchLength := field_int_fits 32 8 batch rfl (by norm_num)
  simp only [FitsSigned, kBytesBeforeBatchLengthCounted] at fits declared
  omega

theorem append_full {index next : OffsetIndex} {offset : Int} {position : Nat}
    (full : index.isFull = true) (appended : index.append offset position = .ok next) : next = index := by
  unfold OffsetIndex.append at appended
  repeat' split at appended
  all_goals first
    | cases appended; rfl
    | cases appended

/-- An entry for the next batch. A position that does not fit 32 bits wraps to
one that is not behind the last entry, and is refused. -/
theorem clean_index_step {base newBase : Int} {roll : RollPolicy} {state : CleanedSegment}
    {news : List Bytes} {next : OffsetIndex} (holds : CleanHolds base roll state news)
    (room : roll.indexIntervalBytes + 2 ^ 31 + 12 ≤ 2 ^ 32 ∨ state.log.length < 2 ^ 32)
    (appended : state.index.append newBase (state.log.length % 2 ^ 32) = .ok next) :
    next.baseOffset = base ∧ (next.isFull = true ∨ next.lastIndexed = state.log.length) ∧
      ∀ new, baseOf new = newBase → ∀ entry ∈ next.entries, NamesBatch base (news ++ [new]) entry := by
  have earlier : ∀ new, ∀ entry ∈ state.index.entries, NamesBatch base (news ++ [new]) entry :=
    fun new entry member => names_batch_append [new] (holds.named entry member)
  by_cases full : state.index.isFull = true
  · rw [append_full full appended]
    exact ⟨holds.based, .inl full, fun new _ => earlier new⟩
  · rcases OffsetIndex.append_ok appended with ⟨_, nowFull⟩ | ⟨entries, _, based, _, _, lower, _⟩
    · exact absurd nowFull full
    · have counted := holds.counted.resolve_left full
      have since := holds.since
      have unwrapped : state.log.length % 2 ^ 32 = state.log.length := by
        by_contra wrapped
        have behind : state.log.length % 2 ^ 32 + 2 ^ 32 ≤ state.log.length := by omega
        replace room := room.resolve_right (by omega)
        cases last : state.index.entries.getLast? with
        | none =>
            simp only [OffsetIndex.lastIndexed, last, Option.map_none, Option.getD_none] at counted
            omega
        | some entry =>
            simp only [OffsetIndex.lastIndexed, last, Option.map_some, Option.getD_some] at counted
            have ascending := next.ascending
            rw [entries] at ascending
            have below := (List.pairwise_append.mp ascending).2.2 entry (List.mem_of_getLast? last) _
              (List.mem_singleton_self _)
            have position : entry.position < state.log.length % 2 ^ 32 := below.2
            omega
      refine ⟨based.trans holds.based, .inr ?_, ?_⟩
      · simp only [OffsetIndex.lastIndexed, entries, List.getLast?_append, List.getLast?_singleton,
          Option.some_or, Option.map_some, Option.getD_some]
        exact unwrapped
      · intro new isBase entry member
        rw [entries] at member
        rcases List.mem_append.mp member with old | same
        · exact earlier new entry old
        · simp only [List.mem_singleton] at same
          subst same
          refine ⟨news, new, [], by simp, ?_, ?_⟩
          · rw [← holds.bytes]
            exact unwrapped
          · rw [isBase]
            simp only [holds.based] at lower ⊢
            omega

theorem CleanHolds.carry {base : Int} {roll : RollPolicy} {state next : CleanedSegment}
    {news : List Bytes} (holds : CleanHolds base roll state news) (sameLog : next.log = state.log)
    (sameIndex : next.index = state.index) (since : next.sinceLastIndex = state.sinceLastIndex) :
    CleanHolds base roll next news where
  bytes := sameLog ▸ holds.bytes
  based := sameIndex ▸ holds.based
  named := sameIndex ▸ holds.named
  counted := by simpa only [sameLog, sameIndex, since] using holds.counted
  since := since ▸ holds.since
  within := by simpa only [sameLog, since] using holds.within

theorem clean_holds_concat {base : Int} {roll : RollPolicy} {state next : CleanedSegment}
    {news : List Bytes} {new : Bytes} (holds : CleanHolds base roll state news)
    (room : roll.indexIntervalBytes + 2 ^ 31 + 12 ≤ 2 ^ 32 ∨ state.log.length < 2 ^ 32)
    (short : new.length < 2 ^ 31 + 12)
    (written : next.log = state.log ++ new)
    (indexed : (¬ (0 < state.log.length ∧ roll.indexIntervalBytes ≤ state.sinceLastIndex) ∧
        next.index = state.index ∧ next.sinceLastIndex = state.sinceLastIndex + new.length) ∨
      (state.index.append (baseOf new) (state.log.length % 2 ^ 32) = .ok next.index ∧
        next.sinceLastIndex = new.length)) :
    CleanHolds base roll next (news ++ [new]) := by
  have bytes : next.log = (news ++ [new]).flatten := by simp [written, holds.bytes]
  have length : next.log.length = state.log.length + new.length := by simp [written]
  have within := holds.within
  rcases indexed with ⟨notDue, sameIndex, since⟩ | ⟨appended, since⟩
  · refine ⟨bytes, by rw [sameIndex, holds.based], ?_, ?_, by omega, by omega⟩
    · rw [sameIndex]
      exact fun entry member => names_batch_append [new] (holds.named entry member)
    · rw [sameIndex, length, since]
      exact holds.counted.imp_right fun counted => by omega
  · obtain ⟨based, counted, named⟩ := clean_index_step holds room appended
    refine ⟨bytes, based, named new rfl, ?_, by omega, by omega⟩
    rw [length, since]
    exact counted.imp_right fun last => by omega

theorem records_of_decoded {batch : Bytes} {raw : List Record} (complete : CheckedBatch batch)
    (decoded : decodeRecords batch = .ok raw) :
    recordsOf batch = raw.map (·.resolve (headerOf batch)) := by
  simp only [recordsOf, logRecordsOf, complete.parsed, decoded, except_ok_bind]
  rfl

theorem plain_of_decoded {batch : Bytes} {raw : List Record} (intact : IntactBatch batch)
    (decoded : decodeRecords batch = .ok raw) : (headerOf batch).compression = compressionNone := by
  unfold decodeRecords at decoded
  simp only [intact.parsed, except_ok_bind] at decoded
  split at decoded
  · cases decoded
  · next known => simpa using known

theorem well_formed_of_decoded {batch : Bytes} {raw : List Record} (formed : FormedBatch batch)
    (decoded : decodeRecords batch = .ok raw) : WellFormedBatch batch (recordsOf batch) := by
  obtain ⟨records, wellFormed⟩ := formed.formed (plain_of_decoded formed.toIntactBatch decoded)
  exact records_of_formed wellFormed ▸ wellFormed

theorem FormedBatch.wellFormed {batch : Bytes} (formed : FormedBatch batch) {record : LogRecord}
    (member : record ∈ recordsOf batch) : WellFormedBatch batch (recordsOf batch) := by
  cases decoded : decodeRecords batch with
  | error failure =>
      simp [recordsOf, logRecordsOf, formed.toIntactBatch.parsed, except_ok_bind, decoded] at member
  | ok raw => exact well_formed_of_decoded formed decoded

theorem ascending_records {start : Int} {batches : List Bytes} (ascending : Ascending start batches)
    (formed : ∀ batch ∈ batches, FormedBatch batch) :
    (batches.flatMap recordsOf).Pairwise fun earlier later => earlier.offset < later.offset := by
  induction batches generalizing start with
  | nil => exact List.Pairwise.nil
  | cons batch batches ih =>
      obtain ⟨_, _, later⟩ := ascending
      have first := formed batch List.mem_cons_self
      have others : ∀ other ∈ batches, FormedBatch other := fun other member =>
        formed other (List.mem_cons_of_mem _ member)
      rw [List.flatMap_cons]
      apply List.pairwise_append.mpr
      refine ⟨?_, ih later others, ?_⟩
      · cases records : recordsOf batch with
        | nil => exact List.Pairwise.nil
        | cons record rest =>
            have inFirst : record ∈ recordsOf batch := by simp [records]
            exact records ▸ (first.wellFormed inFirst).fit.ordered
      · intro earlier inFirst record inOthers
        obtain ⟨other, member, inOther⟩ := List.mem_flatMap.mp inOthers
        have below := (well_formed_within (first.wellFormed inFirst) inFirst).2
        have above := (well_formed_within ((others other member).wellFormed inOther) inOther).1
        have behind := (start_le_base later member).1
        omega

instance (base : Int) (records : List LogRecord) : Decidable (RecordsFit base records) :=
  decidable_of_iff (records.Pairwise (fun earlier later => earlier.offset < later.offset) ∧
      (∀ record ∈ records, base ≤ record.offset) ∧
      (∀ record ∈ records, record.offset - base < 2 ^ 31) ∧
      (∀ record ∈ records, FitsSigned 64 record.timestamp) ∧
      kBatchHeaderSize + (records.map recordBound).sum < 2 ^ 31)
    ⟨fun ⟨ordered, lower, upper, timestamps, small⟩ => ⟨ordered, lower, upper, timestamps, small⟩,
      fun fit => ⟨fit.ordered, fit.lower, fit.upper, fit.timestamps, fit.small⟩⟩

theorem WellFormedBatch.restamped {batch : Bytes} (formed : WellFormedBatch batch (recordsOf batch))
    {base : Int} (range : FitsSigned 64 base) :
    WellFormedBatch (stamped batch base) (recordsOf (stamped batch base)) := by
  have moved := formed.stamp base range
  rw [← records_of_formed moved] at moved
  exact moved

/-- A whole batch whose records, if they decode, are in order and in range:
all that its rewriting relies on. -/
structure OrderedBatch (batch : Bytes) : Prop extends CheckedBatch batch where
  fit : ∀ raw, decodeRecords batch = .ok raw → RecordsFit (baseOf batch) (recordsOf batch)
  range : ∀ record ∈ recordsOf batch, record.offset < 2 ^ 63

instance (batch : Bytes) : Decidable (OrderedBatch batch) :=
  decidable_of_iff ((totalSizeOf batch = .ok batch.length ∧ verifyCrc batch = .ok true) ∧
      ((decodeRecords batch).isOk = true → RecordsFit (baseOf batch) (recordsOf batch)) ∧
      ∀ record ∈ recordsOf batch, record.offset < 2 ^ 63)
    ⟨fun ⟨⟨sized, checked⟩, fit, range⟩ =>
        ⟨⟨sized, checked⟩, fun _ decoded => fit (by rw [decoded]; rfl), range⟩,
      fun ordered =>
        ⟨⟨ordered.sized, ordered.checked⟩, fun decodes => by
          cases decoded : decodeRecords batch with
          | error failure => simp [decoded, Except.isOk, Except.toBool] at decodes
          | ok raw => exact ordered.fit raw decoded, ordered.range⟩⟩

theorem FormedBatch.ordered {batch : Bytes} (formed : FormedBatch batch) (range : lastOf batch < 2 ^ 63) :
    OrderedBatch batch where
  toCheckedBatch := formed.toIntactBatch.complete
  fit := fun _ decoded => (well_formed_of_decoded formed decoded).fit
  range := by
    intro record member
    cases decoded : decodeRecords batch with
    | error failure => simp [recordsOf, logRecordsOf, formed.toIntactBatch.parsed, decoded] at member
    | ok raw =>
        have inside := well_formed_within (well_formed_of_decoded formed decoded) member
        omega

theorem rewrite_fresh (rules : RetainRules) {batch : Bytes} {raw : List Record}
    (oldFit : RecordsFit (baseOf batch) (recordsOf batch))
    (same : recordsOf batch = raw.map (·.resolve (headerOf batch))) :
    ∃ final newBase, rewriteRecords rules (headerOf batch) {} raw = .ok final ∧
      RecordsFit newBase ((recordsOf batch).filter rules.keeps) ∧
      BuilderHolds newBase final.builder ((recordsOf batch).filter rules.keeps) ∧
      (∀ record ∈ ((recordsOf batch).filter rules.keeps).head?, record.offset = newBase) ∧
      final.newBase = ((recordsOf batch).filter rules.keeps).head?.map (·.offset) ∧
      final.recordsKept = ((recordsOf batch).filter rules.keeps).length := by
  let kept := (recordsOf batch).filter rules.keeps
  let newBase := (kept.head?.map (·.offset)).getD (baseOf batch)
  have sub : kept.Sublist (recordsOf batch) := List.filter_sublist
  have ordered := oldFit.ordered.sublist sub
  have begins : ∀ record ∈ kept.head?, record.offset = newBase := by
    intro record isFirst
    simp only [newBase, Option.mem_def.mp isFirst, Option.map_some, Option.getD_some]
  have lower : ∀ record ∈ kept, newBase ≤ record.offset := by
    intro record member
    cases split : kept with
    | nil => simp [split] at member
    | cons first rest =>
        rw [← begins first (by simp [split])]
        rw [split] at member ordered
        rcases List.mem_cons.mp member with rfl | behind
        · exact le_refl _
        · exact ((List.pairwise_cons.mp ordered).1 record behind).le
  have above : baseOf batch ≤ newBase := by
    cases split : kept.head? with
    | none => simp [newBase, split]
    | some first =>
        rw [← begins first split]
        exact oldFit.lower first (sub.subset (List.mem_of_mem_head? split))
  have fit : RecordsFit newBase kept := records_fit_sublist oldFit sub lower above
  have keptIs : kept = [] ++ (raw.map (·.resolve (headerOf batch))).filter rules.keeps := by
    rw [List.nil_append, ← same]
  have fresh : BuilderHolds newBase ({} : RewrittenBatch).builder [] := builder_holds_fresh newBase
  obtain ⟨final, ran, holds, based, count⟩ := rewrite_records_spec rules (headerOf batch) fresh rfl
    (keptIs ▸ fit) (keptIs ▸ begins)
  rw [← keptIs] at holds based
  refine ⟨final, newBase, ran, fit, holds, begins, based, ?_⟩
  rw [count, ← same]
  simp

/-- The header of a batch counts its records and spans them exactly. -/
structure HeaderTells (batch : Bytes) (records : List LogRecord) : Prop where
  base : some (baseOf batch) = records.head?.map (·.offset)
  last : some (lastOf batch) = records.getLast?.map (·.offset)
  count : (headerOf batch).recordCount = records.length
  first : some (headerOf batch).firstTimestamp = records.head?.map (·.timestamp)
  newest : some (timestampOf batch) = (records.map (·.timestamp)).max?

theorem built_header_tells {base : Int} {builder : RecordBatchBuilder} {records : List LogRecord}
    (holds : BuilderHolds base builder records) (fit : RecordsFit base records) (occupied : records ≠ [])
    (begins : ∀ record ∈ records.head?, record.offset = base) (range : FitsSigned 64 base) :
    HeaderTells (stamped (builtBytes builder) base) records := by
  have header := header_of_stamped_in_range (builtBytes builder) base range
  rw [header_of_built builder (builder_header_fits holds fit occupied)] at header
  have isFirst := List.head?_eq_some_head occupied
  have isLast := List.getLast?_eq_getLast_of_ne_nil occupied
  refine ⟨?_, ?_, ?_, ?_, ?_⟩
  · rw [isFirst, Option.map_some, begins _ isFirst, baseOf, header]
  · rw [isLast, Option.map_some, lastOf, header, BatchHeader.lastOffset, holds.lastDelta _ isLast]
    simp
  · rw [header, holds.count]
  · rw [isFirst, Option.map_some, header, ← holds.first _ isFirst]
  · rw [timestampOf, header]
    exact holds.carries.newest_max occupied

/-- A rewrite of a batch that decodes: it is dropped when it keeps none of its
records, else a batch of those it keeps is written, with or without an entry. -/
theorem rewrite_batch_eq {roll : RollPolicy} {rules : RetainRules} {state : CleanedSegment}
    {scanned : ScannedBatch} {raw : List Record} (ordered : OrderedBatch scanned.bytes)
    (header : scanned.header = headerOf scanned.bytes)
    (decoded : decodeRecords scanned.bytes = .ok raw) :
    ∃ counted : CleanedSegment, counted.log = state.log ∧ counted.index = state.index ∧
      counted.sinceLastIndex = state.sinceLastIndex ∧
      counted.recordsKept = state.recordsKept + ((recordsOf scanned.bytes).filter rules.keeps).length ∧
      (((recordsOf scanned.bytes).filter rules.keeps = [] ∧
          rewriteBatch roll rules state scanned = .ok counted) ∨
        ∃ new, WellFormedBatch new ((recordsOf scanned.bytes).filter rules.keeps) ∧
          HeaderTells new ((recordsOf scanned.bytes).filter rules.keeps) ∧
          (∀ record ∈ ((recordsOf scanned.bytes).filter rules.keeps).head?, baseOf new = record.offset) ∧
          new.length ≤ kBatchHeaderSize + ((recordsOf scanned.bytes).map recordBound).sum ∧
          rewriteBatch roll rules state scanned =
            if 0 < state.log.length ∧ roll.indexIntervalBytes ≤ state.sinceLastIndex then do
              let index ← state.index.append (baseOf new) (state.log.length % 2 ^ 32)
              return { counted with
                log := state.log ++ new, index := index, sinceLastIndex := new.length }
            else return { counted with
              log := state.log ++ new, sinceLastIndex := state.sinceLastIndex + new.length }) := by
  have oldFit := ordered.fit raw decoded
  have same := records_of_decoded ordered.toCheckedBatch decoded
  obtain ⟨rewritten, newBase, done, fit, built, begins, based, count⟩ := rewrite_fresh rules oldFit same
  simp only [rewriteBatch, decoded, header, done, except_ok_bind]
  let counted : CleanedSegment := { state with
    recordsKept := state.recordsKept + rewritten.recordsKept
    recordsDropped := state.recordsDropped + rewritten.recordsDropped }
  refine ⟨counted, rfl, rfl, rfl, by rw [← count], ?_⟩
  cases split : ((recordsOf scanned.bytes).filter rules.keeps).head? with
  | none =>
      left
      refine ⟨List.head?_eq_none_iff.mp split, ?_⟩
      simp only [based, split, Option.map_none]
      rfl
  | some first =>
      right
      have starts : first.offset = newBase := begins first split
      have occupied : (recordsOf scanned.bytes).filter rules.keeps ≠ [] := by
        rintro empty
        simp [empty] at split
      have firstOld := List.mem_of_mem_filter (List.mem_of_mem_head? split)
      have lower := oldFit.lower first firstOld
      have upper := ordered.range first firstOld
      have baseFits : FitsSigned 64 newBase := by
        have low : FitsSigned 64 (baseOf scanned.bytes) :=
          field_int_fits 64 0 scanned.bytes rfl (by norm_num)
        unfold FitsSigned at low ⊢
        omega
      have formedNew := build_stamped_well_formed built fit occupied baseFits
      have newStarts : baseOf (stamped (builtBytes rewritten.builder) newBase) = newBase := by
        rw [baseOf, header_of_stamped_in_range _ _ baseFits]
      have nonempty : rewritten.builder.count ≠ 0 := by
        rw [built.count]
        exact fun none => occupied (List.length_eq_zero_iff.mp none)
      have long : kBatchHeaderSize ≤ (builtBytes rewritten.builder).length := by
        rw [built_length]
        omega
      have inside : (((recordsOf scanned.bytes).filter rules.keeps).map recordBound).sum ≤
          ((recordsOf scanned.bytes).map recordBound).sum :=
        ((List.filter_sublist).map recordBound).sum_le_sum (fun _ _ => Nat.zero_le _)
      have held := built.size
      refine ⟨stamped (builtBytes rewritten.builder) newBase, formedNew,
        built_header_tells built fit occupied begins baseFits, ?_, ?_, ?_⟩
      · intro record isFirst
        cases isFirst
        rw [newStarts, starts]
      · rw [stamped_length _ _ long, built_length]
        omega
      · simp only [based, split, Option.map_some, build_eq _ nonempty, except_ok_bind, starts,
          stamp_base_offset_eq _ newBase long, newStarts]
        rfl

theorem rewrite_batch_cases {roll : RollPolicy} {rules : RetainRules} {state next : CleanedSegment}
    {scanned : ScannedBatch} (ordered : OrderedBatch scanned.bytes)
    (header : scanned.header = headerOf scanned.bytes)
    (rewrote : rewriteBatch roll rules state scanned = .ok next) :
    next.recordsKept = state.recordsKept + ((recordsOf scanned.bytes).filter rules.keeps).length ∧
      (((recordsOf scanned.bytes).filter rules.keeps = [] ∧ next.log = state.log ∧
          next.index = state.index ∧ next.sinceLastIndex = state.sinceLastIndex) ∨
        ∃ new, WellFormedBatch new ((recordsOf scanned.bytes).filter rules.keeps) ∧
          HeaderTells new ((recordsOf scanned.bytes).filter rules.keeps) ∧
          (∀ record ∈ ((recordsOf scanned.bytes).filter rules.keeps).head?, baseOf new = record.offset) ∧
          new.length ≤ kBatchHeaderSize + ((recordsOf scanned.bytes).map recordBound).sum ∧
          next.log = state.log ++ new ∧
          ((¬ (0 < state.log.length ∧ roll.indexIntervalBytes ≤ state.sinceLastIndex) ∧
              next.index = state.index ∧ next.sinceLastIndex = state.sinceLastIndex + new.length) ∨
            (state.index.append (baseOf new) (state.log.length % 2 ^ 32) = .ok next.index ∧
              next.sinceLastIndex = new.length))) := by
  have decodes := rewrote
  obtain ⟨raw, decoded, _⟩ := except_bind_ok decodes
  obtain ⟨counted, sameLog, sameIndex, since, count, done⟩ :=
    @rewrite_batch_eq roll rules state scanned raw ordered header decoded
  rcases done with ⟨emptied, ran⟩ | ⟨new, formed, tells, begins, size, ran⟩
  · rw [rewrote] at ran
    cases ran
    exact ⟨count, .inl ⟨emptied, sameLog, sameIndex, since⟩⟩
  · rw [rewrote] at ran
    split at ran
    · obtain ⟨index, appended, made⟩ := except_bind_ok ran.symm
      cases made
      exact ⟨count, .inr ⟨new, formed, tells, begins, size, rfl, .inr ⟨appended, rfl⟩⟩⟩
    · next notDue =>
      cases ran
      exact ⟨count, .inr ⟨new, formed, tells, begins, size, rfl, .inl ⟨notDue, sameIndex, rfl⟩⟩⟩

def rewriteBound (batches : List Bytes) : Nat :=
  (batches.map fun batch => kBatchHeaderSize + ((recordsOf batch).map recordBound).sum).sum

theorem rewrite_bound_cons (batch : Bytes) (batches : List Bytes) :
    rewriteBound (batch :: batches) =
      kBatchHeaderSize + ((recordsOf batch).map recordBound).sum + rewriteBound batches := by
  simp [rewriteBound]

/-- The batches a rewrite of whole batches leaves, wherever they stood; while
positions fit an entry, the index names them. -/
theorem rewrite_batches_writes {roll : RollPolicy} {rules : RetainRules} {state final : CleanedSegment}
    {olds : List Bytes} {position : Nat} (ordered : ∀ batch ∈ olds, OrderedBatch batch)
    (rewrote : rewriteBatches roll rules state (scannedAt position olds) = .ok final) :
    ∃ news : List Bytes, final.log = state.log ++ news.flatten ∧
      (∀ batch ∈ news, WellFormedBatch batch (recordsOf batch) ∧ HeaderTells batch (recordsOf batch)) ∧
      news.flatMap recordsOf = (olds.flatMap recordsOf).filter rules.keeps ∧
      final.recordsKept = state.recordsKept + ((olds.flatMap recordsOf).filter rules.keeps).length ∧
      final.log.length ≤ state.log.length + rewriteBound olds ∧
      ((∀ batch ∈ olds, FormedBatch batch) → Rewritten rules olds news) ∧
      ∀ base before, CleanHolds base roll state before →
        (roll.indexIntervalBytes + 2 ^ 31 + 12 ≤ 2 ^ 32 ∨ final.log.length ≤ 2 ^ 32) →
          CleanHolds base roll final (before ++ news) := by
  induction olds generalizing state position with
  | nil =>
      cases rewrote
      exact ⟨[], by simp, by simp, rfl, rfl, by simp, fun _ => .nil, fun _ before holds _ => by
        simpa using holds⟩
  | cons old olds ih =>
      simp only [scannedAt, rewriteBatches] at rewrote
      obtain ⟨next, first, rest⟩ := except_bind_ok rewrote
      have header : (ScannedBatch.mk (headerOf old) old position).header = headerOf old := rfl
      obtain ⟨raw, decoded, _⟩ := except_bind_ok first
      obtain ⟨count, made⟩ := rewrite_batch_cases (ordered old (by simp)) header first
      obtain ⟨news, bytes, formedNews, records, total, size, becomes, later⟩ := ih
        (fun batch member => ordered batch (by simp [member])) rest
      rw [rewrite_bound_cons]
      have counted : final.recordsKept = state.recordsKept +
          (((old :: olds).flatMap recordsOf).filter rules.keeps).length := by
        rw [total, count]
        simp [Nat.add_assoc]
      rcases made with
        ⟨emptied, sameLog, sameIndex, since⟩ | ⟨new, formed, tells, begins, short, written, indexed⟩
      · rw [sameLog] at size
        refine ⟨news, by rw [bytes, sameLog], formedNews, by simp [records, emptied], counted, by omega,
          ?_, ?_⟩
        · intro olds
          obtain ⟨oldFormed, others⟩ := List.forall_mem_cons.mp olds
          exact .dropped (well_formed_of_decoded oldFormed decoded) emptied (becomes others)
        intro base before holds room
        exact later base before (holds.carry sameLog sameIndex since) room
      · have same := records_of_formed formed
        have occupied := formed.toIntactBatch.positive
        have longer : next.log.length = state.log.length + new.length := by simp [written]
        simp only at short
        refine ⟨new :: news, by simp [bytes, written], ?_, by simp [records, same], counted, by omega, ?_, ?_⟩
        · rw [← same] at formed tells
          exact List.forall_mem_cons.mpr ⟨⟨formed, tells⟩, formedNews⟩
        · intro olds
          obtain ⟨oldFormed, others⟩ := List.forall_mem_cons.mp olds
          exact .kept (well_formed_of_decoded oldFormed decoded) formed begins (becomes others)
        · intro base before holds room
          have fits : roll.indexIntervalBytes + 2 ^ 31 + 12 ≤ 2 ^ 32 ∨ state.log.length < 2 ^ 32 := by
            refine room.imp_right fun short => ?_
            rw [bytes, written] at short
            simp only [List.length_append] at short
            omega
          rw [List.append_cons]
          exact later base _ (clean_holds_concat holds fits (intact_length_lt formed.toIntactBatch) written
            indexed) room

theorem clean_holds_fresh {base : Int} {roll : RollPolicy} {index : OffsetIndex}
    (empty : index.entries = []) (based : index.baseOffset = base) :
    CleanHolds base roll
      { log := [], index, sinceLastIndex := 0, recordsKept := 0, recordsDropped := 0 } [] where
  bytes := rfl
  based := based
  named := by simp [empty]
  counted := .inr (by simp [OffsetIndex.lastIndexed, empty])
  since := by simp
  within := by simp

theorem rewrite_segment_spec {dir : String} {contents : Bytes} {base : Int} {roll : RollPolicy}
    {rules : RetainRules} {cleaned : CleanedSegment} {olds : List Bytes}
    (scanned : scanSegment contents = .ok (scannedAt 0 olds))
    (room : roll.indexIntervalBytes + 2 ^ 31 + 12 ≤ 2 ^ 32 ∨ rewriteBound olds ≤ 2 ^ 32)
    (formed : ∀ batch ∈ olds, FormedBatch batch ∧ lastOf batch < 2 ^ 63)
    (rewrote : rewriteSegment dir contents base roll rules = .ok cleaned) :
    ∃ news, Rewritten rules olds news ∧ cleaned.log = news.flatten ∧ cleaned.index.baseOffset = base ∧
      (∀ entry ∈ cleaned.index.entries, NamesBatch base news entry) ∧
      cleaned.recordsKept = ((olds.flatMap recordsOf).filter rules.keeps).length := by
  obtain ⟨index, created, rewrote⟩ := except_bind_ok rewrote
  obtain ⟨empty, based⟩ := create_index_ok created
  simp only [scanned, except_ok_bind] at rewrote
  obtain ⟨news, bytes, _, _, count, size, becomes, later⟩ := rewrite_batches_writes
    (fun batch member => (formed batch member).1.ordered (formed batch member).2) rewrote
  have holds := later base [] (clean_holds_fresh empty based) (room.imp_right fun short => by
    simp only [List.length_nil] at size
    omega)
  exact ⟨news, becomes fun batch member => (formed batch member).1, holds.bytes, holds.based, holds.named,
    by simpa using count⟩

end DariyaKyu.Storage

import DariyaKyu.Cli.Consume
import DariyaKyu.Library.Gaps
import DariyaKyu.Storage.CleanedView
import DariyaKyu.Storage.DecodedBody

/-!
`inspectPartition` of `cli/dump.cpp`: what a partition directory holds, read without
a broker and without the log's own startup. Every segment is opened as a sealed one
and read from front to back; what is printed is kept as values. The sizes of the
index files, which only tell a trimmed one from one that is not, are an argument.
-/

namespace DariyaKyu.Cli

set_option autoImplicit false

open Storage FrameWalk GuardedRun

/-- A line under a batch; most records have none. -/
inductive DumpNote where
  | away (count : Int)
  | tombstone (offset : Int)
  deriving DecidableEq, Repr

structure BatchLine where
  position : Nat
  header : BatchHeader
  totalSize : Nat
  crc : Bool
  notes : List DumpNote
  deriving DecidableEq, Repr

/-- What the loops over a segment keep; the notes are those of the batch they are at. -/
structure SegmentScan where
  lines : List BatchLine := []
  notes : List DumpNote := []
  holes : Nat := 0
  tombstones : Nat := 0
  expected : Int

def SegmentScan.note (header : BatchHeader) (state : SegmentScan) (record : Record) : SegmentScan :=
  let offset := record.offsetFrom header.baseOffset
  let state :=
    if offset ≠ state.expected then
      { state with notes := state.notes ++ [.away (offset - state.expected)], holes := state.holes + 1 }
    else state
  let state :=
    if record.value.isNone then
      { state with notes := state.notes ++ [.tombstone offset], tombstones := state.tombstones + 1 }
    else state
  { state with expected := offset + 1 }

def inspectBatch (log : FileHandle) (state : SegmentScan) (position : Nat) (found : BatchAt) :
    Except Error (Turn SegmentScan) := do
  let bytes := log.readAt position found.totalSize
  let crc ← verifyCrc bytes
  let records ← decodeRecords bytes
  let noted := records.foldl (SegmentScan.note found.header) state
  return .next { noted with
    lines := noted.lines ++ [⟨position, found.header, found.totalSize, crc, noted.notes⟩]
    notes := [] }

structure SegmentDump where
  gap : Option Int
  trimmed : Bool
  baseOffset : Int
  nextOffset : Int
  sizeBytes : Nat
  entryCount : Nat
  indexBytes : Nat
  lines : List BatchLine
  holes : Nat
  tombstones : Nat
  trailing : Nat

def gapBefore (previousEnd : Option Int) (baseOffset : Int) : Option Int :=
  match previousEnd with
  | none => none
  | some ends => if ends < baseOffset then some (baseOffset - ends) else none

def inspectSegment (dir : String) (indexBytes : Int → Nat) (previousEnd : Option Int) (files : SegmentFiles) :
    Except Error SegmentDump := do
  let segment ← SealedSegment.open 0 (segmentLogPath dir files.baseOffset) files.baseOffset files.bytes files.index
  let (position, scan) ← walk (batchAt segment.log segment.sizeBytes) BatchAt.totalSize (inspectBatch segment.log)
    (segment.sizeBytes + 1) 0 { expected := segment.baseOffset }
  return {
    gap := gapBefore previousEnd files.baseOffset
    trimmed := indexBytes files.baseOffset = segment.index.entries.length * kEntrySize
    baseOffset := segment.baseOffset
    nextOffset := segment.nextOffset
    sizeBytes := segment.sizeBytes
    entryCount := segment.index.entries.length
    indexBytes := indexBytes files.baseOffset
    lines := scan.lines
    holes := scan.holes
    tombstones := scan.tombstones
    trailing := segment.sizeBytes - position }

def inspectSegments (dir : String) (indexBytes : Int → Nat) :
    Option Int → List SegmentFiles → Except Error (List SegmentDump)
  | _, [] => .ok []
  | previousEnd, files :: rest => do
      let dump ← inspectSegment dir indexBytes previousEnd files
      let dumps ← inspectSegments dir indexBytes (some dump.nextOffset) rest
      return dump :: dumps

structure PartitionDump where
  segments : List SegmentDump
  logStartOffset : Int
  logEndOffset : Int
  totalBytes : Nat
  totalHoles : Nat
  segmentGaps : Nat

def PartitionDump.total (logStartOffset : Int) (segments : List SegmentDump) : PartitionDump where
  segments := segments
  logStartOffset := logStartOffset
  logEndOffset := (segments.getLast?.map (·.nextOffset)).getD 0
  totalBytes := (segments.map (·.sizeBytes)).sum
  totalHoles := (segments.map (·.holes)).sum
  segmentGaps := segments.countP (·.gap.isSome)

/-- The segments are listed by base offset; without any there is nothing to tell. -/
def inspectPartition (dir : String) (indexBytes : Int → Nat) (files : PartitionDir) :
    Except Error (Option PartitionDump) :=
  match files.segments with
  | [] => .ok none
  | first :: _ => do
      let segments ← inspectSegments dir indexBytes none files.segments
      return some (.total first.baseOffset segments)

def offsetsOf (batches : List Bytes) : List Int := (batches.flatMap recordsOf).map (·.offset)

def LogRecord.deletes (record : LogRecord) : Bool := record.value.isNone

def notesFrom : Int → List LogRecord → List DumpNote
  | _, [] => []
  | expected, record :: records =>
      (if record.offset ≠ expected then [.away (record.offset - expected)] else []) ++
        (if LogRecord.deletes record then [.tombstone record.offset] else []) ++
        notesFrom (record.offset + 1) records

def DumpNote.gap : DumpNote → Option Int
  | .away count => some count
  | .tombstone _ => none

def DumpNote.deleted : DumpNote → Option Int
  | .away _ => none
  | .tombstone offset => some offset

theorem notes_gaps (expected : Int) (records : List LogRecord) :
    (notesFrom expected records).filterMap DumpNote.gap = Gaps.gaps expected (records.map (·.offset)) := by
  induction records generalizing expected with
  | nil => rfl
  | cons record records ih =>
      simp only [notesFrom, List.filterMap_append, ih, List.map_cons, Gaps.gaps]
      split <;> split <;> simp [DumpNote.gap]

theorem notes_deleted (expected : Int) (records : List LogRecord) :
    (notesFrom expected records).filterMap DumpNote.deleted =
      (records.filter LogRecord.deletes).map (·.offset) := by
  induction records generalizing expected with
  | nil => rfl
  | cons record records ih =>
      simp only [notesFrom, List.filterMap_append, ih, List.filter_cons]
      split <;> split <;> simp [DumpNote.deleted]

theorem note_records (header : BatchHeader) (raw : List Record) (state : SegmentScan) :
    raw.foldl (SegmentScan.note header) state =
      let records := raw.map (·.resolve header)
      { state with
        notes := state.notes ++ notesFrom state.expected records
        holes := state.holes + (Gaps.gaps state.expected (records.map (·.offset))).length
        tombstones := state.tombstones + (records.filter LogRecord.deletes).length
        expected := Gaps.endOf state.expected (records.map (·.offset)) } := by
  induction raw generalizing state with
  | nil => simp [notesFrom, Gaps.gaps, Gaps.endOf]
  | cons record raw ih =>
      rw [List.foldl_cons, ih]
      simp only [List.map_cons, notesFrom, Gaps.gaps, Gaps.endOf, List.filter_cons]
      by_cases hole : record.offsetFrom header.baseOffset = state.expected <;>
        cases deleted : record.value.isNone <;>
        simp [SegmentScan.note, Record.resolve, LogRecord.deletes, hole, deleted] <;> omega

/-- The lines of batches that can be read, the first of which stands here. -/
def linesFrom : Nat → Int → List Bytes → List BatchLine
  | _, _, [] => []
  | position, expected, batch :: batches =>
      ⟨position, headerOf batch, batch.length, true, notesFrom expected (recordsOf batch)⟩ ::
        linesFrom (position + batch.length) (Gaps.endOf expected ((recordsOf batch).map (·.offset))) batches

/-- What the loops over a segment have come to behind these batches. -/
def SegmentScan.behind (state : SegmentScan) (position : Nat) (batches : List Bytes) : SegmentScan where
  lines := state.lines ++ linesFrom position state.expected batches
  notes := []
  holes := state.holes + (Gaps.gaps state.expected (offsetsOf batches)).length
  tombstones := state.tombstones + ((batches.flatMap recordsOf).filter LogRecord.deletes).length
  expected := Gaps.endOf state.expected (offsetsOf batches)

@[simp] theorem offsets_nil : offsetsOf [] = [] := rfl

theorem offsets_cons (batch : Bytes) (batches : List Bytes) :
    offsetsOf (batch :: batches) = (recordsOf batch).map (·.offset) ++ offsetsOf batches := by
  simp [offsetsOf]

theorem behind_nil (state : SegmentScan) (position : Nat) (fresh : state.notes = []) :
    state.behind position [] = state := by
  simp [SegmentScan.behind, linesFrom, Gaps.gaps, Gaps.endOf, ← fresh]

theorem behind_cons (state : SegmentScan) (position : Nat) (batch : Bytes) (batches : List Bytes) :
    state.behind position (batch :: batches) =
      (state.behind position [batch]).behind (position + batch.length) batches := by
  simp only [SegmentScan.behind, linesFrom, offsets_cons, offsets_nil, List.append_nil, Gaps.gaps_append,
    Gaps.end_append, List.flatMap_cons, List.flatMap_nil, List.filter_append, List.length_append, Nat.add_assoc,
    List.append_assoc, List.singleton_append]

theorem inspect_batch_spec {log : FileHandle} {before rest batch : Bytes} (readable : Readable batch)
    (contents : log.bytes = before ++ (batch ++ rest)) (state : SegmentScan) (fresh : state.notes = []) :
    inspectBatch log state before.length ⟨headerOf batch, before.length, batch.length⟩ =
      .ok (.next (state.behind before.length [batch])) := by
  have decodes := readable.decodes
  simp only [logRecordsOf, readable.toIntactBatch.parsed, except_ok_bind] at decodes
  rcases except_bind_ok decodes with ⟨raw, decoded, resolved⟩
  have same : raw.map (·.resolve (headerOf batch)) = recordsOf batch := Except.ok.inj resolved
  have bytes : log.readAt before.length batch.length = batch := by
    rw [FileHandle.readAt, contents, List.drop_left' rfl, List.take_left' rfl]
  simp only [inspectBatch, bytes, readable.checked, decoded, except_ok_bind, note_records, same]
  simp [SegmentScan.behind, linesFrom, offsetsOf, fresh, pure, Except.pure]

theorem inspect_batches {log : FileHandle} {before after : List Bytes} (holds : HoldsBatches log (before ++ after))
    (readable : ∀ batch ∈ after, Readable batch) (state : SegmentScan) (fresh : state.notes = []) :
    visitAll BatchAt.totalSize (inspectBatch log) before.flatten.length state
        (framesAt before.flatten.length after) =
      .ok ((before ++ after).flatten.length, state.behind before.flatten.length after) := by
  induction after generalizing before state with
  | nil =>
      rw [behind_nil state _ fresh, List.append_nil]
      rfl
  | cons batch after ih =>
      rcases holds.front with ⟨rest, contents⟩
      have split : log.bytes = before.flatten ++ (batch ++ (after.flatten ++ rest)) := by
        rw [← contents]
        simp
      have here := inspect_batch_spec (readable batch List.mem_cons_self) split state fresh
      have shifted : before ++ batch :: after = (before ++ [batch]) ++ after := by simp
      have whole : HoldsBatches log ((before ++ [batch]) ++ after) := shifted ▸ holds
      have later := ih whole (fun other member => readable other (List.mem_cons_of_mem _ member))
        (state.behind before.flatten.length [batch]) rfl
      have size : (before ++ [batch]).flatten.length = before.flatten.length + batch.length := by simp
      rw [size] at later
      simp only [framesAt, visitAll, here]
      rw [behind_cons state _ batch after, shifted]
      exact later

/-- What two segment objects over one file tell alike. -/
structure SameContents (opened segment : SegmentBase) : Prop where
  size : opened.log.size = segment.log.bytes.length
  base : opened.baseOffset = segment.baseOffset
  next : opened.nextOffset = segment.nextOffset
  entries : opened.index.entries = segment.index.entries

/-- The segment's files can be opened as those of a sealed one, and say the same. -/
structure OpensAlone (segment : SegmentBase) : Prop where
  opens : ∀ fd path, ∃ opened,
    SealedSegment.open fd path segment.baseOffset segment.log.bytes (some segment.index) = .ok opened ∧
      HoldsBatches opened.log (batchesIn segment) ∧ SameContents opened segment
  ascending : Ascending segment.baseOffset (batchesIn segment)
  ends : segment.nextOffset = endOffset segment.baseOffset (batchesIn segment)

theorem sealed_opens_alone {segment : SealedSegment} (holds : SealedHolds segment (batchesIn segment)) :
    OpensAlone segment where
  opens := by
    intro fd path
    rcases reopen_sealed_spec holds fd path with ⟨opened, isOpened, again, same, -⟩
    exact ⟨opened, isOpened, again.toHoldsBatches, again.full.trans (congrArg _ same.bytes), same.base, same.next,
      same.entries⟩
  ascending := holds.ascending
  ends := holds.ends

theorem active_opens_alone {dir : String} {active : ActiveSegment}
    (settled : ActiveSettled dir active (batchesIn active.toSegmentBase)) : OpensAlone active.toSegmentBase where
  opens := by
    intro fd path
    have named := undangling_named settled.toActiveHolds (settled_seals settled).1
    rcases open_sealed_spec (holds_contents settled.intact settled.whole fd path) settled.consecutive.ascending
      settled.segmentHolds.based named with ⟨isOpened, again⟩
    exact ⟨_, isOpened, again.toHoldsBatches, again.full, rfl, settled.ends.symm, rfl⟩
  ascending := settled.consecutive.ascending
  ends := settled.ends

def segmentDump (indexBytes : Int → Nat) (previousEnd : Option Int) (segment : SegmentBase) : SegmentDump where
  gap := gapBefore previousEnd segment.baseOffset
  trimmed := indexBytes segment.baseOffset = segment.index.entries.length * kEntrySize
  baseOffset := segment.baseOffset
  nextOffset := segment.nextOffset
  sizeBytes := segment.log.bytes.length
  entryCount := segment.index.entries.length
  indexBytes := indexBytes segment.baseOffset
  lines := linesFrom 0 segment.baseOffset (batchesIn segment)
  holes := (Gaps.gaps segment.baseOffset (offsetsOf (batchesIn segment))).length
  tombstones := (((batchesIn segment).flatMap recordsOf).filter LogRecord.deletes).length
  trailing := segment.log.bytes.length - (batchesIn segment).flatten.length

theorem inspect_segment_spec {segment : SegmentBase} (alone : OpensAlone segment)
    (readable : ∀ batch ∈ batchesIn segment, Readable batch) (dir : String) (indexBytes : Int → Nat)
    (previousEnd : Option Int) :
    inspectSegment dir indexBytes previousEnd segment.files = .ok (segmentDump indexBytes previousEnd segment) := by
  rcases alone.opens 0 (segmentLogPath dir segment.baseOffset) with ⟨opened, isOpened, holds, same⟩
  have whole : HoldsBatches opened.log ([] ++ batchesIn segment) := holds
  have walked := walk_batches whole (inspectBatch opened.log) { expected := opened.baseOffset }
  have inspected := inspect_batches whole readable { expected := opened.baseOffset } rfl
  simp only [List.flatten_nil, List.length_nil, List.nil_append] at walked inspected
  simp only [inspectSegment, SegmentBase.files, isOpened, except_ok_bind, SegmentBase.sizeBytes, walked, inspected]
  simp [segmentDump, SegmentScan.behind, same.size, same.base, same.next, same.entries, pure, Except.pure]

theorem inspected_plain {log : FileHandle} {before after : List Bytes} (holds : HoldsBatches log (before ++ after))
    {state : SegmentScan} {result : Nat × SegmentScan}
    (inspected : visitAll BatchAt.totalSize (inspectBatch log) before.flatten.length state
      (framesAt before.flatten.length after) = .ok result) :
    ∀ batch ∈ after, (headerOf batch).compression = compressionNone := by
  induction after generalizing before state with
  | nil => simp
  | cons batch after ih =>
      rcases holds.front with ⟨rest, contents⟩
      have bytes : log.readAt before.flatten.length batch.length = batch := by
        have split : log.bytes = before.flatten ++ (batch ++ (after.flatten ++ rest)) := by
          rw [← contents]
          simp
        rw [FileHandle.readAt, split, List.drop_left' rfl, List.take_left' rfl]
      have intact := holds.intact batch (by simp)
      simp only [framesAt, visitAll, inspectBatch, bytes, intact.checked, except_ok_bind] at inspected
      cases decoded : decodeRecords batch with
      | error failure => simp [decoded] at inspected
      | ok raw =>
          simp only [decoded, except_ok_bind, pure, Except.pure] at inspected
          have size : (before ++ [batch]).flatten.length = before.flatten.length + batch.length := by simp
          have shifted : before ++ batch :: after = (before ++ [batch]) ++ after := by simp
          have whole : HoldsBatches log ((before ++ [batch]) ++ after) := shifted ▸ holds
          rw [← size] at inspected
          have later := ih whole inspected
          intro other member
          rcases List.mem_cons.mp member with rfl | behind
          · by_contra compressed
            rcases compressed_refused intact.parsed compressed with ⟨what, refused⟩
            cases decoded.symm.trans refused
          · exact later other behind

theorem inspect_segment_plain {segment : SegmentBase} (alone : OpensAlone segment) {dir : String}
    {indexBytes : Int → Nat} {previousEnd : Option Int} {dump : SegmentDump}
    (inspected : inspectSegment dir indexBytes previousEnd segment.files = .ok dump) :
    ∀ batch ∈ batchesIn segment, (headerOf batch).compression = compressionNone := by
  rcases alone.opens 0 (segmentLogPath dir segment.baseOffset) with ⟨opened, isOpened, holds, same⟩
  have whole : HoldsBatches opened.log ([] ++ batchesIn segment) := holds
  have walked := walk_batches whole (inspectBatch opened.log) { expected := opened.baseOffset }
  simp only [List.flatten_nil, List.length_nil] at walked
  simp only [inspectSegment, SegmentBase.files, isOpened, except_ok_bind, SegmentBase.sizeBytes, walked] at inspected
  rcases except_bind_ok inspected with ⟨result, visited, -⟩
  exact inspected_plain whole visited

def segmentDumps (indexBytes : Int → Nat) : Option Int → List SegmentBase → List SegmentDump
  | _, [] => []
  | previousEnd, segment :: rest =>
      segmentDump indexBytes previousEnd segment :: segmentDumps indexBytes (some segment.nextOffset) rest

theorem inspect_segments_spec {segments : List SegmentBase} (alone : ∀ segment ∈ segments, OpensAlone segment)
    (readable : ∀ batch ∈ segments.flatMap batchesIn, Readable batch) (dir : String) (indexBytes : Int → Nat)
    (previousEnd : Option Int) :
    inspectSegments dir indexBytes previousEnd (segments.map SegmentBase.files) =
      .ok (segmentDumps indexBytes previousEnd segments) := by
  induction segments generalizing previousEnd with
  | nil => rfl
  | cons segment segments ih =>
      have here := inspect_segment_spec (alone segment List.mem_cons_self)
        (fun batch member => readable batch (List.mem_append_left _ member)) dir indexBytes previousEnd
      have later := ih (fun other member => alone other (List.mem_cons_of_mem _ member))
        (fun batch member => readable batch (List.mem_append_right _ member)) (some segment.nextOffset)
      simp only [List.map_cons, inspectSegments, here, except_ok_bind, segmentDump, later]
      rfl

theorem inspect_segments_plain {segments : List SegmentBase} (alone : ∀ segment ∈ segments, OpensAlone segment)
    {dir : String} {indexBytes : Int → Nat} {previousEnd : Option Int} {dumps : List SegmentDump}
    (inspected : inspectSegments dir indexBytes previousEnd (segments.map SegmentBase.files) = .ok dumps) :
    ∀ batch ∈ segments.flatMap batchesIn, (headerOf batch).compression = compressionNone := by
  induction segments generalizing previousEnd dumps with
  | nil => simp
  | cons segment segments ih =>
      rcases except_bind_ok inspected with ⟨dump, here, inspected⟩
      rcases except_bind_ok inspected with ⟨rest, later, -⟩
      intro batch member
      rcases List.mem_append.mp member with inside | behind
      · exact inspect_segment_plain (alone segment List.mem_cons_self) here batch inside
      · exact ih (fun other member => alone other (List.mem_cons_of_mem _ member)) later batch behind

/-- Every segment begins at or above where the one before it ends. -/
def InOrder : Int → List SegmentBase → Prop
  | _, [] => True
  | ends, segment :: rest => ends ≤ segment.baseOffset ∧ InOrder segment.nextOffset rest

def endOfAll : Int → List SegmentBase → Int
  | ends, [] => ends
  | _, segment :: rest => endOfAll segment.nextOffset rest

/-- The records of readable batches in order rise up to the end of the last one. -/
theorem offsets_rise {start : Int} {batches : List Bytes} (ascending : Ascending start batches)
    (readable : ∀ batch ∈ batches, Readable batch) :
    Gaps.Rising start (offsetsOf batches) ∧ Gaps.endOf start (offsetsOf batches) = endOffset start batches := by
  induction batches generalizing start with
  | nil => exact ⟨trivial, rfl⟩
  | cons batch batches ih =>
      rcases ascending with ⟨below, -, later⟩
      rcases ih later (fun other member => readable other (List.mem_cons_of_mem _ member)) with ⟨rises, ends⟩
      have whole := readable batch List.mem_cons_self
      rcases whole.last with ⟨last, isLast, lastOffset⟩
      have own : Gaps.Rising (baseOf batch) ((recordsOf batch).map (·.offset)) := by
        refine Gaps.rising_of_ordered (List.pairwise_map.mpr whole.fit.ordered) ?_
        intro number member
        rcases List.mem_map.mp member with ⟨record, inside, rfl⟩
        exact whole.fit.lower record inside
      have ownEnd : Gaps.endOf start ((recordsOf batch).map (·.offset)) = lastOf batch + 1 := by
        have found : ((recordsOf batch).map (·.offset)).getLast? = some last.offset := by
          rw [List.getLast?_map, Option.mem_def.mp isLast]
          rfl
        rw [Gaps.end_of_last found, lastOffset]
        rfl
      rw [offsets_cons, Gaps.rising_append, Gaps.end_append, ownEnd]
      exact ⟨⟨Gaps.rising_mono below own, rises⟩, ends⟩

theorem notes_append (expected : Int) (first second : List LogRecord) :
    notesFrom expected (first ++ second) =
      notesFrom expected first ++ notesFrom (Gaps.endOf expected (first.map (·.offset))) second := by
  induction first generalizing expected with
  | nil => rfl
  | cons record first ih => simp only [List.cons_append, notesFrom, ih, List.map_cons, Gaps.endOf, List.append_assoc]

theorem lines_notes (position : Nat) (expected : Int) (batches : List Bytes) :
    (linesFrom position expected batches).flatMap (·.notes) = notesFrom expected (batches.flatMap recordsOf) := by
  induction batches generalizing position expected with
  | nil => rfl
  | cons batch batches ih => simp only [linesFrom, List.flatMap_cons, notes_append, ih]

theorem lines_batches (position : Nat) (expected : Int) (batches : List Bytes) :
    (linesFrom position expected batches).map (fun line => (line.header, line.totalSize, line.crc)) =
      batches.map fun batch => (headerOf batch, batch.length, true) := by
  induction batches generalizing position expected with
  | nil => rfl
  | cons batch batches ih => simp only [linesFrom, List.map_cons, ih]

/-- How many offsets are told to be missing, in front of a segment and in it. -/
def SegmentDump.missing (dump : SegmentDump) : Int :=
  dump.gap.getD 0 + ((dump.lines.flatMap (·.notes)).filterMap DumpNote.gap).sum

def SegmentDump.breaks (dump : SegmentDump) : Nat := dump.holes + if dump.gap.isSome then 1 else 0

theorem gap_before_missing {ends base : Int} (le : ends ≤ base) :
    (gapBefore (some ends) base).getD 0 = base - ends := by
  simp only [gapBefore]
  split
  · rfl
  · simp only [Option.getD_none]
    omega

theorem segment_dump_missing (indexBytes : Int → Nat) {ends : Int} {segment : SegmentBase}
    (le : ends ≤ segment.baseOffset) (alone : OpensAlone segment)
    (readable : ∀ batch ∈ batchesIn segment, Readable batch) :
    (segmentDump indexBytes (some ends) segment).missing + (offsetsOf (batchesIn segment)).length =
      segment.nextOffset - ends := by
  have sum := Gaps.gaps_sum segment.baseOffset (offsetsOf (batchesIn segment))
  have reach := (offsets_rise alone.ascending readable).2
  have stops := alone.ends
  simp only [SegmentDump.missing, segmentDump, lines_notes, notes_gaps, gap_before_missing le]
  simp only [offsetsOf] at *
  omega

/-- Each time that some are missing it is one of them at least. -/
theorem segment_dump_breaks (indexBytes : Int → Nat) (ends : Int) {segment : SegmentBase} (alone : OpensAlone segment)
    (readable : ∀ batch ∈ batchesIn segment, Readable batch) :
    let dump := segmentDump indexBytes (some ends) segment
    (dump.breaks : Int) ≤ dump.missing ∧ (dump.breaks = 0 → dump.missing = 0) := by
  have positive := Gaps.gaps_positive (offsets_rise alone.ascending readable).1
  have few := Gaps.length_le_sum positive
  simp only [SegmentDump.missing, SegmentDump.breaks, segmentDump, lines_notes, notes_gaps]
  simp only [offsetsOf] at few ⊢
  unfold gapBefore
  dsimp only
  split
  · simp only [Option.isSome_some, if_true, Option.getD_some, Nat.cast_add, Nat.cast_one]
    exact ⟨by omega, nofun⟩
  · simp only [Option.isSome_none, Bool.false_eq_true, if_false, Option.getD_none, Nat.add_zero, zero_add]
    refine ⟨few, fun none_left => ?_⟩
    rw [List.eq_nil_of_length_eq_zero none_left]
    rfl

structure DumpsTell (ends : Int) (segments : List SegmentBase) (dumps : List SegmentDump) : Prop where
  missing : (dumps.map SegmentDump.missing).sum + (offsetsOf (segments.flatMap batchesIn)).length =
    endOfAll ends segments - ends
  breaks : ((dumps.map SegmentDump.breaks).sum : Int) ≤ (dumps.map SegmentDump.missing).sum
  unbroken : (dumps.map SegmentDump.breaks).sum = 0 → (dumps.map SegmentDump.missing).sum = 0
  rises : Gaps.Rising ends (offsetsOf (segments.flatMap batchesIn))
  within : Gaps.endOf ends (offsetsOf (segments.flatMap batchesIn)) ≤ endOfAll ends segments
  notes : ((dumps.flatMap (·.lines)).flatMap (·.notes)).filterMap DumpNote.deleted =
    (((segments.flatMap batchesIn).flatMap recordsOf).filter LogRecord.deletes).map (·.offset)
  batches : (dumps.flatMap (·.lines)).map (fun line => (line.header, line.totalSize, line.crc)) =
    (segments.flatMap batchesIn).map fun batch => (headerOf batch, batch.length, true)

theorem offsets_append (first second : List Bytes) :
    offsetsOf (first ++ second) = offsetsOf first ++ offsetsOf second := by
  simp [offsetsOf]

theorem segment_dumps_tell (indexBytes : Int → Nat) {ends : Int} {segments : List SegmentBase}
    (inOrder : InOrder ends segments) (alone : ∀ segment ∈ segments, OpensAlone segment)
    (readable : ∀ batch ∈ segments.flatMap batchesIn, Readable batch) :
    DumpsTell ends segments (segmentDumps indexBytes (some ends) segments) := by
  induction segments generalizing ends with
  | nil =>
      exact
        { missing := by simp [segmentDumps, endOfAll]
          breaks := by simp [segmentDumps]
          unbroken := fun _ => rfl
          rises := trivial
          within := le_refl ends
          notes := rfl
          batches := rfl }
  | cons segment segments ih =>
      rcases inOrder with ⟨le, later⟩
      have isAlone := alone segment List.mem_cons_self
      have own : ∀ batch ∈ batchesIn segment, Readable batch :=
        fun batch member => readable batch (List.mem_append_left _ member)
      have rest := ih later (fun other member => alone other (List.mem_cons_of_mem _ member))
        (fun batch member => readable batch (List.mem_append_right _ member))
      have missing := segment_dump_missing indexBytes le isAlone own
      rcases segment_dump_breaks indexBytes ends isAlone own with ⟨breaks, unbroken⟩
      rcases offsets_rise isAlone.ascending own with ⟨rises, reach⟩
      have stops := isAlone.ends
      have below : Gaps.endOf ends (offsetsOf (batchesIn segment)) ≤ segment.nextOffset := by
        have early := Gaps.end_mono le (offsetsOf (batchesIn segment))
        omega
      constructor
      case missing =>
        have others := rest.missing
        simp only [segmentDumps, List.map_cons, List.sum_cons, List.flatMap_cons, offsets_append, List.length_append,
          endOfAll, Nat.cast_add] at *
        omega
      case breaks =>
        have others := rest.breaks
        simp only [segmentDumps, List.map_cons, List.sum_cons, Nat.cast_add] at *
        omega
      case unbroken =>
        have others := rest.unbroken
        simp only [segmentDumps, List.map_cons, List.sum_cons] at *
        intro whole
        rw [unbroken (by omega), others (by omega)]
        rfl
      case rises =>
        rw [List.flatMap_cons, offsets_append, Gaps.rising_append]
        exact ⟨Gaps.rising_mono le rises, Gaps.rising_mono below rest.rises⟩
      case within =>
        rw [List.flatMap_cons, offsets_append, Gaps.end_append]
        exact le_trans (Gaps.end_mono below _) rest.within
      case notes =>
        have others := rest.notes
        simp only [segmentDumps, List.flatMap_cons, List.flatMap_append, List.filterMap_append, segmentDump,
          lines_notes, notes_deleted, List.filter_append, List.map_append] at *
        rw [others]
      case batches =>
        have others := rest.batches
        simp only [segmentDumps, List.flatMap_cons, List.map_append, segmentDump, lines_batches] at *
        rw [others]

def PartitionDump.lines (dump : PartitionDump) : List BatchLine := dump.segments.flatMap (·.lines)

def PartitionDump.missing (dump : PartitionDump) : Int := (dump.segments.map SegmentDump.missing).sum

/-- What is told of a log's directory is what the log holds. -/
structure PartitionDump.Tells (dump : PartitionDump) (log : Log) : Prop where
  begins : dump.logStartOffset = log.logStartOffset
  ends : dump.logEndOffset = log.logEndOffset
  batches : dump.lines.map (fun line => (line.header, line.totalSize, line.crc)) =
    log.batches.map fun batch => (headerOf batch, batch.length, true)
  tombstones : (dump.lines.flatMap (·.notes)).filterMap DumpNote.deleted =
    (log.records.filter LogRecord.deletes).map (·.offset)
  missing : dump.missing + log.records.length = log.logEndOffset - log.logStartOffset
  complete : dump.totalHoles = 0 ∧ dump.segmentGaps = 0 ↔
    ∀ offset, log.logStartOffset ≤ offset → offset < log.logEndOffset → ∃ record ∈ log.records, record.offset = offset

def segmentsOf (log : Log) : List SegmentBase := log.sealedMap ++ [log.active.toSegmentBase]

section Partition

variable {log : Log}

theorem segments_files : log.files.segments = (segmentsOf log).map SegmentBase.files := by
  simp [Log.files, segmentsOf]

theorem segments_batches : (segmentsOf log).flatMap batchesIn = log.batches := by
  simp [segmentsOf, Log.batches]

theorem segments_alone (settled : LogSettled log) : ∀ segment ∈ segmentsOf log, OpensAlone segment := by
  intro segment member
  rcases List.mem_append.mp member with old | active
  · exact sealed_opens_alone (settled.sealedHolds segment old)
  · rw [List.mem_singleton.mp active]
    exact active_opens_alone settled.settled

theorem linked_in_order {active : SegmentBase} {segments : List SealedSegment} {ends : Int}
    (linked : Linked (· ≤ ·) active.baseOffset segments) (le : ends ≤ nextBase active.baseOffset segments) :
    InOrder ends (segments ++ [active]) ∧ endOfAll ends (segments ++ [active]) = active.nextOffset := by
  induction segments generalizing ends with
  | nil => exact ⟨⟨le, trivial⟩, rfl⟩
  | cons segment segments ih =>
      rcases linked with ⟨-, close, later⟩
      rcases ih later close with ⟨inOrder, reach⟩
      exact ⟨⟨le, inOrder⟩, reach⟩

theorem dumps_from_first (indexBytes : Int → Nat) (first : SegmentBase) (rest : List SegmentBase) :
    segmentDumps indexBytes none (first :: rest) = segmentDumps indexBytes (some first.baseOffset) (first :: rest) := by
  simp [segmentDumps, segmentDump, gapBefore]

theorem breaks_sum (dumps : List SegmentDump) :
    (dumps.map SegmentDump.breaks).sum = (dumps.map (·.holes)).sum + dumps.countP (·.gap.isSome) := by
  induction dumps with
  | nil => rfl
  | cons dump dumps ih =>
      simp only [List.map_cons, List.sum_cons, ih, List.countP_cons, SegmentDump.breaks]
      omega

theorem log_records (settled : LogSettled log) : log.records = log.batches.flatMap recordsOf := by
  rw [Log.records, records_in_all settled.sealedHolds, records_in_active settled, Log.batches,
    List.flatMap_append]

theorem last_dump (indexBytes : Int → Nat) (previousEnd : Option Int) (segments : List SegmentBase)
    (active : SegmentBase) :
    (segmentDumps indexBytes previousEnd (segments ++ [active])).getLast?.map (·.nextOffset) =
      some active.nextOffset := by
  induction segments generalizing previousEnd with
  | nil => rfl
  | cons segment segments ih =>
      have later := ih (some segment.nextOffset)
      rw [List.cons_append, segmentDumps, List.getLast?_cons]
      cases last : (segmentDumps indexBytes (some segment.nextOffset) (segments ++ [active])).getLast? with
      | none => simp [last] at later
      | some dump => simpa [last] using later

theorem segments_in_order (settled : LogSettled log) :
    InOrder log.logStartOffset (segmentsOf log) ∧ endOfAll log.logStartOffset (segmentsOf log) = log.logEndOffset := by
  rw [settled.ends]
  exact linked_in_order settled.linked (le_refl log.logStartOffset)

theorem first_segment (log : Log) :
    ∃ first rest, segmentsOf log = first :: rest ∧ first.baseOffset = log.logStartOffset := by
  unfold segmentsOf Log.logStartOffset
  cases log.sealedMap with
  | nil => exact ⟨_, _, rfl, rfl⟩
  | cons first rest => exact ⟨_, _, rfl, rfl⟩

theorem inspect_log (dir : String) (indexBytes : Int → Nat) :
    inspectPartition dir indexBytes log.files = (do
      let dumps ← inspectSegments dir indexBytes none ((segmentsOf log).map SegmentBase.files)
      return some (.total log.logStartOffset dumps)) := by
  rcases first_segment log with ⟨first, rest, split, begins⟩
  rw [inspectPartition, segments_files, split, ← begins]
  rfl

/-- Whether every offset has its record is a question of how many there are. -/
theorem records_cover_iff (settled : LogSettled log)
    (rises : Gaps.Rising log.logStartOffset (offsetsOf log.batches))
    (within : Gaps.endOf log.logStartOffset (offsetsOf log.batches) ≤ log.logEndOffset) :
    (∀ offset, log.logStartOffset ≤ offset → offset < log.logEndOffset →
      ∃ record ∈ log.records, record.offset = offset) ↔
      (log.records.length : Int) = log.logEndOffset - log.logStartOffset := by
  have covers := Gaps.covers_iff rises within
  simp only [offsetsOf, List.length_map, List.mem_map] at covers
  rw [log_records settled]
  exact covers.symm

theorem total_tells (settled : LogSettled log) {dumps : List SegmentDump}
    (tell : DumpsTell log.logStartOffset (segmentsOf log) dumps)
    (last : dumps.getLast?.map (·.nextOffset) = some log.active.nextOffset) :
    (PartitionDump.total log.logStartOffset dumps).Tells log := by
  have records := log_records settled
  have reach := (segments_in_order settled).2
  have missing := tell.missing
  have within := tell.within
  have rises := tell.rises
  rw [segments_batches, reach] at missing within
  rw [segments_batches] at rises
  have counted : (offsetsOf log.batches).length = log.records.length := by simp [offsetsOf, records]
  rw [counted] at missing
  constructor
  case begins => rfl
  case ends =>
    rw [settled.ends]
    simp [PartitionDump.total, last]
  case batches =>
    rw [← segments_batches]
    exact tell.batches
  case tombstones =>
    rw [records, ← segments_batches]
    exact tell.notes
  case missing => exact missing
  case complete =>
    have breaks := breaks_sum dumps
    have few := tell.breaks
    have unbroken := tell.unbroken
    rw [records_cover_iff settled rises within]
    simp only [PartitionDump.total]
    constructor
    · rintro ⟨holes, gaps⟩
      have none_missing := unbroken (by omega)
      omega
    · intro full
      have none_broken : (dumps.map SegmentDump.breaks).sum = 0 := by omega
      omega

def logDump (indexBytes : Int → Nat) (log : Log) : PartitionDump :=
  .total log.logStartOffset (segmentDumps indexBytes (some log.logStartOffset) (segmentsOf log))

theorem dump_tells (settled : LogSettled log) (readable : ∀ batch ∈ log.batches, Readable batch)
    (dir : String) (indexBytes : Int → Nat) :
    inspectPartition dir indexBytes log.files = .ok (some (logDump indexBytes log)) ∧
      (logDump indexBytes log).Tells log := by
  have alone := segments_alone settled
  have inside : ∀ batch ∈ (segmentsOf log).flatMap batchesIn, Readable batch := by rwa [segments_batches]
  have inspected := inspect_segments_spec alone inside dir indexBytes none
  have tell := segment_dumps_tell indexBytes (segments_in_order settled).1 alone inside
  have last := last_dump indexBytes (some log.logStartOffset) log.sealedMap log.active.toSegmentBase
  have same : segmentDumps indexBytes none (segmentsOf log) =
      segmentDumps indexBytes (some log.logStartOffset) (segmentsOf log) := by
    rcases first_segment log with ⟨first, rest, split, begins⟩
    rw [split, ← begins, dumps_from_first]
  refine ⟨?_, total_tells settled tell last⟩
  rw [inspect_log, inspected, same]
  rfl

end Partition

/-- Of a log made by appends, rolls, retention, cleaning and restarts the dump tells
the batches, the tombstones and how many offsets have no record; it stops at a
compressed batch, and at nothing else. -/
theorem dump_tells_iff {tp : TopicPartition} {dir : String} {config : LogConfig} {created final : Log}
    (named : StorableName tp) (storable : config.Storable)
    (room : config.roll.indexIntervalBytes + 2 ^ 31 + 12 ≤ 2 ^ 32) (made : Log.create tp dir config = .ok created)
    (reached : Reaches Log.step Log.Admits created final) (indexBytes : Int → Nat) :
    ((∃ dump, inspectPartition dir indexBytes final.files = .ok dump) ↔
        ∀ batch ∈ final.batches, (headerOf batch).compression = compressionNone) ∧
      ∀ dump, inspectPartition dir indexBytes final.files = .ok dump → ∃ told, dump = some told ∧ told.Tells final := by
  rcases cleanable_reached named storable room made reached with ⟨cleanable, settled⟩
  have plain_readable : (∀ batch ∈ final.batches, (headerOf batch).compression = compressionNone) →
      ∀ batch ∈ final.batches, Readable batch := by
    intro plain batch member
    rcases (cleanable.formed batch member).formed (plain batch member) with ⟨records, whole⟩
    rw [Readable, records_of_formed whole]
    exact whole
  have stops : ∀ dump, inspectPartition dir indexBytes final.files = .ok dump →
      ∀ batch ∈ final.batches, (headerOf batch).compression = compressionNone := by
    intro dump inspected
    rw [inspect_log] at inspected
    rcases except_bind_ok inspected with ⟨dumps, told, -⟩
    have plain := inspect_segments_plain (segments_alone settled) told
    rwa [segments_batches] at plain
  refine ⟨⟨fun ⟨dump, inspected⟩ => stops dump inspected, ?_⟩, ?_⟩
  · intro plain
    exact ⟨_, (dump_tells settled (plain_readable plain) dir indexBytes).1⟩
  · intro dump inspected
    rcases dump_tells settled (plain_readable (stops dump inspected)) dir indexBytes with ⟨again, tells⟩
    cases inspected.symm.trans again
    exact ⟨_, rfl, tells⟩

/-- A record is cleaned out of the end of a segment. -/
theorem dump_tells_iff_cleaned :
    ∃ (final : Log) (dump : PartitionDump), final.config.compacted = true ∧
      inspectPartition "data/t-0" (fun _ => 80) final.files = .ok (some dump) ∧ dump.Tells final ∧
        dump.missing = 1 := by
  obtain ⟨created, final, made, reached, checked⟩ := found_from_creation Log.step Log.Admits id
    ⟨[116], 0⟩ "data/t-0" { twoBatchConfig with cleanup := .compact }
    (fun log => decide (log.config.compacted = true ∧ log.logStartOffset = 0 ∧ log.logEndOffset = 5 ∧
      log.records.length = 4 ∧ ∀ batch ∈ log.batches, (headerOf batch).compression = compressionNone))
    (fiveRecords [97, 98, 98, 99, 100] ++ [.clean 10 0 0]) (by decide +kernel)
  rcases decide_eq_true_eq.mp checked with ⟨compacts, begins, ends, records, plain⟩
  have named : StorableName ⟨[116], 0⟩ := ⟨by decide, by decide, by decide, by decide⟩
  have storable : ({ twoBatchConfig with cleanup := .compact } : LogConfig).Storable :=
    { storable_two_batch_config with }
  rcases dump_tells_iff named storable (by decide) made reached (fun _ => 80) with ⟨told_iff, tells⟩
  rcases told_iff.mpr plain with ⟨dump, inspected⟩
  rcases tells dump inspected with ⟨told, rfl, agrees⟩
  have missing := agrees.missing
  rw [begins, ends, records] at missing
  exact ⟨final, told, compacts, inspected, agrees, by omega⟩

def Full (batch : Bytes) : Prop := ((recordsOf batch).length : Int) = lastOf batch - baseOf batch + 1

/-- Batches in a row have a record for every offset when each of them has. -/
theorem full_iff {start : Int} {batches : List Bytes} (consecutive : Consecutive start batches)
    (readable : ∀ batch ∈ batches, Readable batch) :
    ((batches.flatMap recordsOf).length : Int) ≤ endOffset start batches - start ∧
      (((batches.flatMap recordsOf).length : Int) = endOffset start batches - start ↔
        ∀ batch ∈ batches, Full batch) := by
  induction batches generalizing start with
  | nil => simp [endOffset]
  | cons batch batches ih =>
      rcases consecutive with ⟨begins, spans, later⟩
      rcases ih later (fun other member => readable other (List.mem_cons_of_mem _ member)) with ⟨few, all⟩
      have own : Ascending (baseOf batch) [batch] := ⟨le_refl _, spans, trivial⟩
      rcases offsets_rise own (by simpa using readable batch List.mem_cons_self) with ⟨rises, reach⟩
      have room := Gaps.length_le rises (le_of_eq reach)
      simp only [offsets_cons, offsets_nil, List.append_nil, List.length_map, endOffset, List.foldl_cons,
        List.foldl_nil] at room
      rw [List.flatMap_cons, List.length_append, end_offset_cons, Nat.cast_add, List.forall_mem_cons, ← all, Full]
      constructor
      · omega
      · constructor
        · intro same
          exact ⟨by omega, by omega⟩
        · rintro ⟨here, rest⟩
          omega

section Deleting

variable {log : Log}

theorem no_gaps (indexBytes : Int → Nat) (active : SegmentBase) {segments : List SealedSegment} {ends : Int}
    (linked : Linked (· = ·) active.baseOffset segments) (same : ends = nextBase active.baseOffset segments) :
    (segmentDumps indexBytes (some ends) (segments ++ [active])).countP (·.gap.isSome) = 0 := by
  induction segments generalizing ends with
  | nil =>
      subst same
      simp [segmentDumps, segmentDump, gapBefore, nextBase]
  | cons segment segments ih =>
      rcases linked with ⟨-, close, later⟩
      subst same
      rw [List.cons_append, segmentDumps, List.countP_cons, ih later close]
      simp [segmentDump, gapBefore, nextBase]

theorem whole_dumps (indexBytes : Int → Nat) {segments : List SegmentBase}
    (whole : ∀ segment ∈ segments, WholeSegment segment) (previousEnd : Option Int) :
    (∀ dump ∈ segmentDumps indexBytes previousEnd segments, dump.trailing = 0) ∧
      ((segmentDumps indexBytes previousEnd segments).map (·.sizeBytes)).sum =
        (segments.flatMap batchesIn).flatten.length := by
  induction segments generalizing previousEnd with
  | nil => simp [segmentDumps]
  | cons segment segments ih =>
      have bytes := (whole segment List.mem_cons_self).bytes
      rcases ih (fun other member => whole other (List.mem_cons_of_mem _ member)) (some segment.nextOffset)
        with ⟨trailing, sizes⟩
      constructor
      · intro dump member
        rcases List.mem_cons.mp member with rfl | behind
        · simp [segmentDump, bytes]
        · exact trailing dump behind
      · simp only [segmentDumps, List.map_cons, List.sum_cons, sizes, segmentDump, bytes, List.flatMap_cons,
          List.flatten_append, List.length_append]

end Deleting

/-- On a topic that deletes nothing is told to be missing between segments and nothing
to be left over behind one; a hole is a batch that was sent with one. -/
theorem dump_of_deleting_log {tp : TopicPartition} {dir : String} {config : LogConfig} {created final : Log}
    (named : StorableName tp) (storable : config.Storable) (deletes : config.compacted = false)
    (made : Log.create tp dir config = .ok created)
    (reached : Reaches Log.step (fun _ action => ProducesReadable action) created final) (indexBytes : Int → Nat) :
    ∃ dump, inspectPartition dir indexBytes final.files = .ok (some dump) ∧ dump.Tells final ∧
      dump.segmentGaps = 0 ∧ (∀ segment ∈ dump.segments, segment.trailing = 0) ∧
      dump.totalBytes = final.batches.flatten.length ∧
      (dump.totalHoles = 0 ↔ ∀ batch ∈ final.batches, Full batch) := by
  obtain ⟨whole, empty⟩ := created_whole named storable deletes made
  have holds := reached.invariant Log.step _ ConsumeHolds ⟨whole, by simp [empty]⟩
    (fun _ _ _ holds produces taken => consume_step holds produces taken)
  rcases dump_tells holds.toLogSettled holds.readable dir indexBytes with ⟨inspected, tells⟩
  have gaps : (logDump indexBytes final).segmentGaps = 0 :=
    no_gaps indexBytes final.active.toSegmentBase holds.joined rfl
  rcases whole_dumps indexBytes holds.segments (some final.logStartOffset) with ⟨trailing, sizes⟩
  refine ⟨_, inspected, tells, gaps, trailing, ?_, ?_⟩
  · rw [← segments_batches]
    exact sizes
  · rcases log_consecutive holds.tiled with ⟨consecutive, reach⟩
    rcases offsets_rise consecutive.ascending holds.readable with ⟨rises, ends⟩
    have covers := records_cover_iff holds.toLogSettled rises (le_of_eq (ends.trans reach))
    have complete := tells.complete
    rw [covers] at complete
    simp only [gaps, and_true] at complete
    rw [complete, ← (full_iff consecutive holds.readable).2, ← log_records holds.toLogSettled, reach]

theorem dump_of_deleting_log_five_records :
    ∃ (final : Log) (dump : PartitionDump), final.sealedMap.length = 1 ∧
      inspectPartition "t-0" (fun _ => 80) final.files = .ok (some dump) ∧ dump.Tells final ∧
      dump.segmentGaps = 0 ∧ dump.totalBytes = final.batches.flatten.length ∧ dump.totalHoles = 0 := by
  obtain ⟨created, final, made, reached, checked⟩ := found_from_creation Log.step
    (fun _ action => ProducesReadable action) id ⟨[116], 0⟩ "t-0" twoBatchConfig
    (fun log => decide (log.sealedMap.length = 1 ∧ ∀ batch ∈ log.batches,
      ((recordsOf batch).length : Int) = lastOf batch - baseOf batch + 1)) fiveLines (by decide +kernel)
  rcases of_decide_eq_true checked with ⟨rolled, full⟩
  rcases dump_of_deleting_log ⟨by decide, by decide, by decide, by decide⟩ storable_two_batch_config rfl made reached
    (fun _ => 80) with ⟨dump, inspected, tells, gaps, -, bytes, holes⟩
  exact ⟨final, dump, rolled, inspected, tells, gaps, bytes, holes.mpr full⟩

end DariyaKyu.Cli

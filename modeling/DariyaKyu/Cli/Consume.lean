import DariyaKyu.Cli.Client
import DariyaKyu.Server.Fetch
import DariyaKyu.Storage.WholeLogs

/-!
The consumer of `apps/dariyakyu_cli.cpp`: it fetches from where it stands, prints
the complete batches of the answer and moves behind the last of them, until an
answer is empty. The broker answers with a range that begins with the batch the
offset is in and may end in the middle of one. The client refuses an answer that
is larger than a frame, and `printf` ends a value at its first zero byte. Lines
printed before an exception are not kept.
-/

namespace DariyaKyu.Cli

set_option autoImplicit false

open Storage Protocol Server FrameWalk

structure FetchView where
  error : ErrorCode
  highWatermark : Int
  logStartOffset : Int
  records : Bytes

def fetchView (log : Log) (asked : FetchAsked) : Except Error FetchView := do
  let answer := fetchAnswer asked log.highWatermark log.logStartOffset
    (log.read asked.fetchOffset asked.maxBytes)
  Client.takes (fetchReplyBytes log.tp.topic answer.records.length)
  return {
    error := answer.error
    highWatermark := answer.highWatermark
    logStartOffset := answer.logStartOffset
    records := log.rangeBytes asked.fetchOffset answer.records }

/-- A line of output: the offset, and the value or nothing. -/
structure Printed where
  offset : Int
  value : Bytes
  deriving DecidableEq, Repr

/-- What `%.*s` puts out of a value. -/
def untilNul (value : Bytes) : Bytes := value.takeWhile (· ≠ 0)

def LogRecord.line (record : LogRecord) : Printed := ⟨record.offset, record.value.getD []⟩

def LogRecord.printed (record : LogRecord) : Printed := ⟨record.offset, untilNul (record.value.getD [])⟩

def completeBatchAt (records : Bytes) (position : Nat) : Except Error (Option Bytes) :=
  if records.length ≤ position then .ok none
  else do
    let remaining := records.drop position
    let total ← ActiveSegment.orElseCorrupt ((totalSizeOf remaining).map some) none
    match total with
    | none => return none
    | some total => return if remaining.length < total then none else some (remaining.take total)

structure Printing where
  printed : List Printed
  offset : Int

def printBatch (state : Printing) (_ : Nat) (batch : Bytes) : Except Error (Turn Printing) := do
  let header ← parseHeader batch
  let records ← decodeRecords batch
  return .next
    { printed := state.printed ++
        records.map fun record => ⟨record.offsetFrom header.baseOffset, untilNul (record.value.getD [])⟩
      offset := header.lastOffset + 1 }

def printBatches (records : Bytes) (offset : Int) : Except Error Printing := do
  let (_, state) ← walk (completeBatchAt records) List.length printBatch (records.length + 1) 0
    ⟨[], offset⟩
  return state

structure Consumed where
  printed : List Printed
  exitCode : Nat

/-- `doConsume` without `follow`, from where it has its start offset; `none` when
the rounds run out. -/
def doConsume (log : Log) (maxBytes : Nat) : Nat → Int → List Printed → Option (Except Error Consumed)
  | 0, _, _ => none
  | rounds + 1, offset, printed =>
      match fetchView log { fetchOffset := offset, maxBytes := maxBytes } with
      | .error failure => some (.error failure)
      | .ok answer =>
          if answer.error = .offsetOutOfRange then
            if offset < answer.logStartOffset then doConsume log maxBytes rounds answer.logStartOffset printed
            else some (.ok ⟨printed, 1⟩)
          else if answer.error ≠ .none then some (.ok ⟨printed, 1⟩)
          else if answer.records = [] then some (.ok ⟨printed, 0⟩)
          else
            match printBatches answer.records offset with
            | .error failure => some (.error failure)
            | .ok state => doConsume log maxBytes rounds state.offset (printed ++ state.printed)

/-- Every record from an offset on is printed once and with its whole value, in the
order of the offsets, and nothing else is. -/
structure DeliversFrom (log : Log) (start : Int) (printed : List Printed) : Prop where
  complete : ∀ record ∈ log.batches.flatMap recordsOf, start ≤ record.offset →
    LogRecord.line record ∈ printed
  only : ∀ line ∈ printed, start ≤ line.offset ∧
    ∃ record ∈ log.batches.flatMap recordsOf, LogRecord.line record = line
  increasing : printed.Pairwise fun earlier later => earlier.offset < later.offset

section OneAnswer

abbrev Readable (batch : Bytes) : Prop := WellFormedBatch batch (recordsOf batch)

theorem complete_batch_at (front : Bytes) {batch : Bytes} (intact : IntactBatch batch) (rest : Bytes) :
    completeBatchAt (front ++ (batch ++ rest)) front.length = .ok (some batch) := by
  have inside : ¬ (front ++ (batch ++ rest)).length ≤ front.length := by
    have positive := intact.positive
    simp only [List.length_append]
    omega
  have sized : totalSizeOf (batch ++ rest) = .ok batch.length := by
    rw [total_size_of_append batch rest (Nat.le_trans (by decide) intact.long), intact.sized]
  rw [completeBatchAt, if_neg inside, List.drop_left]
  simp [sized, ActiveSegment.orElseCorrupt, Except.map, pure, Except.pure]

theorem cut_batch_at (front : Bytes) {batch : Bytes} (intact : IntactBatch batch) {kept : Nat}
    (cut : kept < batch.length) :
    completeBatchAt (front ++ batch.take kept) front.length = .ok none := by
  unfold completeBatchAt
  split
  · rfl
  · simp only [List.drop_left]
    cases sized : totalSizeOf (batch.take kept) with
    | error failure =>
        obtain ⟨what, rfl⟩ := total_size_of_error sized
        simp [ActiveSegment.orElseCorrupt, Except.map, pure, Except.pure]
    | ok total =>
        have enough := (total_size_of_ok sized).1
        rw [← total_size_of_append _ (batch.drop kept) enough, List.take_append_drop, intact.sized] at sized
        cases sized
        simp [ActiveSegment.orElseCorrupt, Except.map, pure, Except.pure, cut]

theorem print_batch_spec {batch : Bytes} (readable : Readable batch) (state : Printing) (position : Nat) :
    printBatch state position batch = .ok (.next
      ⟨state.printed ++ (recordsOf batch).map LogRecord.printed, lastOf batch + 1⟩) := by
  have parsed := readable.toIntactBatch.parsed
  have decodes := readable.decodes
  simp only [logRecordsOf, parsed, except_ok_bind] at decodes
  obtain ⟨raw, decoded, resolved⟩ := except_bind_ok decodes
  have records := Except.ok.inj resolved
  simp only [printBatch, parsed, decoded, except_ok_bind]
  rw [← records, List.map_map]
  rfl

/-- The batches that fit into so many bytes, one behind the other. -/
def fitting : Nat → List Bytes → List Bytes
  | _, [] => []
  | bytes, batch :: batches =>
      if bytes < batch.length then [] else batch :: fitting (bytes - batch.length) batches

theorem fitting_front (bytes : Nat) (batches : List Bytes) : fitting bytes batches <+: batches := by
  induction batches generalizing bytes with
  | nil => exact List.nil_prefix
  | cons batch batches ih =>
      unfold fitting
      split
      · exact List.nil_prefix
      · exact List.prefix_cons_inj batch |>.mpr (ih _)

theorem fitting_bytes (bytes : Nat) (batches : List Bytes) :
    (fitting bytes batches).flatten.length ≤ (batches.flatten.take bytes).length := by
  have inside := (fitting_front bytes batches).flatten.length_le
  have within : (fitting bytes batches).flatten.length ≤ bytes := by
    clear inside
    induction batches generalizing bytes with
    | nil => simp [fitting]
    | cons batch batches ih =>
        unfold fitting
        split
        · simp
        · have rest := ih (bytes - batch.length)
          simp only [List.flatten_cons, List.length_append]
          omega
  rw [List.length_take]
  exact le_min within inside

/-- The batches that fit into an answer stand in it one behind the other, and no
complete one stands behind them. -/
theorem answer_laid {batches : List Bytes} (intact : ∀ batch ∈ batches, IntactBatch batch)
    (front : Bytes) (bytes : Nat) :
    LaidOut (completeBatchAt (front ++ batches.flatten.take bytes)) List.length front.length
      (fitting bytes batches) := by
  induction batches generalizing front bytes with
  | nil => simp [fitting, LaidOut, completeBatchAt]
  | cons batch batches ih =>
      have first := intact batch List.mem_cons_self
      by_cases cut : bytes < batch.length
      · have piece : (batch :: batches).flatten.take bytes = batch.take bytes := by
          rw [List.flatten_cons, List.take_append_of_le_length (by omega)]
        rw [piece, fitting, if_pos cut]
        exact cut_batch_at front first cut
      · have piece : (batch :: batches).flatten.take bytes =
            batch ++ batches.flatten.take (bytes - batch.length) := by
          rw [List.flatten_cons, List.take_append, List.take_of_length_le (by omega)]
        rw [piece, fitting, if_neg cut]
        refine ⟨complete_batch_at front first _, ?_⟩
        have later := ih (fun other member => intact other (List.mem_cons_of_mem _ member))
          (front ++ batch) (bytes - batch.length)
        rwa [List.length_append, List.append_assoc] at later

theorem walk_answer {σ : Type} {visit : σ → Nat → Bytes → Except Error (Turn σ)}
    (advance : σ → Bytes → σ) {batches : List Bytes} (intact : ∀ batch ∈ batches, IntactBatch batch)
    (goes : ∀ batch ∈ batches, ∀ state position,
      visit state position batch = .ok (.next (advance state batch))) (bytes : Nat) (state : σ) :
    ∃ position, walk (completeBatchAt (batches.flatten.take bytes)) List.length visit
        ((batches.flatten.take bytes).length + 1) 0 state =
      .ok (position, (fitting bytes batches).foldl advance state) := by
  have inside := (fitting_front bytes batches).subset
  have count := count_le_bytes fun batch member => (intact batch (inside member)).positive
  have within := fitting_bytes bytes batches
  have walked := walk_laid_out _ _ visit state (answer_laid intact [] bytes)
    (show _ < (batches.flatten.take bytes).length + 1 by omega)
  rw [visit_all_fold _ _ _ _ _ advance fun batch member => goes batch (inside member)] at walked
  exact ⟨_, walked⟩

def Printing.behind (state : Printing) (batch : Bytes) : Printing :=
  ⟨state.printed ++ (recordsOf batch).map LogRecord.printed, lastOf batch + 1⟩

theorem printing_behind_all (batches : List Bytes) (state : Printing) :
    batches.foldl Printing.behind state =
      ⟨state.printed ++ (batches.flatMap recordsOf).map LogRecord.printed,
        endOffset state.offset batches⟩ := by
  induction batches generalizing state with
  | nil => simp [endOffset]
  | cons batch batches ih =>
      rw [List.foldl_cons, ih, end_offset_cons]
      simp [Printing.behind]

theorem print_batches_spec {batches : List Bytes} (readable : ∀ batch ∈ batches, Readable batch)
    (bytes : Nat) (offset : Int) :
    printBatches (batches.flatten.take bytes) offset =
      .ok ⟨((fitting bytes batches).flatMap recordsOf).map LogRecord.printed,
        endOffset offset (fitting bytes batches)⟩ := by
  obtain ⟨position, walked⟩ := walk_answer Printing.behind
    (fun batch member => (readable batch member).toIntactBatch)
    (fun batch member state position => print_batch_spec (readable batch member) state position)
    bytes ⟨[], offset⟩
  rw [printBatches, walked, printing_behind_all]
  rfl

end OneAnswer

section WholeLog

variable {log : Log}

/-- A read inside the log: the batches of one segment from the one that holds the
offset on, the last of them perhaps cut off, but the first one whole. -/
theorem read_inside (holds : TiledHolds log) {offset : Int} (starts : log.logStartOffset ≤ offset)
    (ends : offset < log.logEndOffset) (maxBytes : Nat) :
    ∃ before owner behind earlier batch after range,
      log.sealedMap ++ [log.active.toSegmentBase] = before ++ owner :: behind ∧
      batchesIn owner = earlier ++ batch :: after ∧ baseOf batch ≤ offset ∧ offset ≤ lastOf batch ∧
      log.read offset maxBytes = .ok ⟨.none, range⟩ ∧
      range.length = max batch.length (min maxBytes (batch :: after).flatten.length) ∧
      log.rangeBytes offset range = (batch :: after).flatten.take range.length := by
  obtain ⟨owner, before, behind, segments, isOwner, whole, base, above, answered⟩ :=
    log_answers holds starts ends maxBytes
  have within : log.batches = before.flatMap batchesIn ++ batchesIn owner ++ behind.flatMap batchesIn := by
    rw [log_batches_segments, segments]
    simp
  obtain ⟨earlier, batch, after, _, _, split, _, holdsBase, reaches, read, bytes⟩ :=
    slice_of_segment whole within base above answered
  refine ⟨before, owner, behind, earlier, batch, after, _, segments, split, holdsBase, reaches, read, rfl, ?_⟩
  simp only [Log.rangeBytes, isOwner, Option.map_some, Option.getD_some, bytes]

/-- The name of a partition that has been stored has a length of 16 bits. -/
theorem topic_short (holds : LogHolds log) : log.tp.topic.length < 2 ^ 15 := by
  obtain ⟨bytes, _, decoded⟩ := holds.stored
  unfold decodePartitionMeta at decoded
  obtain ⟨⟨magic, input⟩, _, decoded⟩ := except_bind_ok decoded
  simp only at decoded
  split at decoded
  · cases decoded
  obtain ⟨⟨version, input⟩, _, decoded⟩ := except_bind_ok decoded
  simp only at decoded
  split at decoded
  · cases decoded
  obtain ⟨⟨topicLength, input⟩, isLength, decoded⟩ := except_bind_ok decoded
  have bounded := read_int16_fits isLength
  simp only at decoded
  split at decoded
  · cases decoded
  obtain ⟨⟨topic, input⟩, isTopic, decoded⟩ := except_bind_ok decoded
  obtain ⟨_, length, _⟩ := BufferReader.read_bytes_ok isTopic
  obtain ⟨⟨partition, input⟩, _, decoded⟩ := except_bind_ok decoded
  simp only at decoded
  split at decoded
  · cases decoded
  -- the eight fields of the configuration
  iterate 8 obtain ⟨_, _, decoded⟩ := except_bind_ok decoded
  split at decoded
  · have isTp := congrArg (·.tp.topic) (Except.ok.inj decoded)
    simp only at isTp
    unfold FitsSigned at bounded
    rw [← isTp, length]
    omega
  · cases decoded

def batchesFrom (offset : Int) (batches : List Bytes) : List Bytes :=
  batches.dropWhile fun batch => decide (lastOf batch < offset)

/-- Behind a front that is wholly in front of an offset, they are the others. -/
theorem batches_from_end {offset : Int} {front rest : List Bytes} (below : ∀ batch ∈ front, lastOf batch < offset)
    (reaches : ∀ batch ∈ rest.head?, offset ≤ lastOf batch) : batchesFrom offset (front ++ rest) = rest := by
  rw [batchesFrom, List.dropWhile_append_of_pos fun batch member => by simpa using below batch member]
  cases rest with
  | nil => rfl
  | cons batch rest =>
      have first := reaches batch rfl
      rw [List.dropWhile_cons_of_neg]
      simpa using first

theorem batches_from_all {offset : Int} {batches : List Bytes} (reaches : ∀ batch ∈ batches, offset ≤ lastOf batch) :
    batchesFrom offset batches = batches :=
  @batches_from_end offset [] batches (by simp) fun batch isFirst => reaches batch (List.mem_of_mem_head? isFirst)

theorem batches_from_shorter {offset next : Int} (forward : offset ≤ next) (batches : List Bytes) :
    (batchesFrom next batches).flatten.length ≤ (batchesFrom offset batches).flatten.length := by
  induction batches with
  | nil => exact le_rfl
  | cons batch batches ih =>
      unfold batchesFrom at ih ⊢
      by_cases below : lastOf batch < offset
      · rwa [List.dropWhile_cons_of_pos (by simp; omega), List.dropWhile_cons_of_pos (by simpa using below)]
      · have whole : (batch :: batches).dropWhile (fun batch => decide (lastOf batch < offset)) = batch :: batches :=
          List.dropWhile_cons_of_neg (by simpa using below)
        rw [whole]
        exact (List.dropWhile_suffix _).sublist.flatten.length_le

/-- The reply with so many bytes of records is not larger than a frame. -/
def ReplyFits (topic : Bytes) (recordBytes : Nat) : Prop := fetchReplyBytes topic recordBytes ≤ kMaxFrameBytes

theorem ReplyFits.less {topic : Bytes} {more less : Nat} (fits : ReplyFits topic more) (fewer : less ≤ more) :
    ReplyFits topic less := by
  unfold ReplyFits fetchReplyBytes at fits ⊢
  omega

/-- A name with a length of 16 bits leaves room for what the programs ask for at a time. -/
theorem reply_fits_short {topic : Bytes} (short : topic.length < 2 ^ 15) {recordBytes : Nat}
    (few : recordBytes ≤ 2 ^ 20) : ReplyFits topic recordBytes := by
  unfold ReplyFits fetchReplyBytes kMaxFrameBytes
  omega

theorem no_bytes (log : Log) (offset : Int) : log.rangeBytes offset {} = [] := by
  unfold Log.rangeBytes
  cases log.owner offset <;> simp [FileHandle.readAt]

theorem fetch_at_end (log : Log) (short : log.tp.topic.length < 2 ^ 15) (maxBytes : Nat) :
    ∃ answer, fetchView log { fetchOffset := log.logEndOffset, maxBytes := maxBytes } = .ok answer ∧
      answer.error = .none ∧ answer.records = [] := by
  have fits : fetchReplyBytes log.tp.topic 0 ≤ kMaxFrameBytes := reply_fits_short short (Nat.zero_le _)
  have read : log.read log.logEndOffset maxBytes = .ok ⟨.none, {}⟩ := by simp [Log.read]
  simp only [fetchView, fetchAnswer, read, errorCodeFor, if_true, takes_iff.mpr fits, except_ok_bind]
  exact ⟨_, rfl, rfl, no_bytes log _⟩

/-- Every batch that reaches an offset fits into a reply, and so does as much as is
asked for, or else all that a segment has from there on. -/
structure AnswersFit (topic : Bytes) (log : Log) (maxBytes : Nat) (start : Int) : Prop where
  batches : ∀ batch ∈ log.batches, start ≤ lastOf batch → ReplyFits topic batch.length
  asked : ReplyFits topic maxBytes ∨ ∀ segment ∈ log.sealedMap ++ [log.active.toSegmentBase],
    ReplyFits topic (batchesFrom start (batchesIn segment)).flatten.length

/-- The answers from an offset on fit if the first one does and those behind it do. -/
theorem answers_fit_round (topic : Bytes) {offset next : Int} {maxBytes size : Nat} {before behind : List SegmentBase}
    {owner : SegmentBase} {batch : Bytes} {after : List Bytes}
    (segments : log.sealedMap ++ [log.active.toSegmentBase] = before ++ owner :: behind)
    (first : batchesFrom offset (batchesIn owner) = batch :: after) (reaches : offset ≤ lastOf batch)
    (isSize : size = max batch.length (min maxBytes (batch :: after).flatten.length)) (forward : offset ≤ next)
    (inFront : ∀ segment ∈ before, batchesFrom offset (batchesIn segment) = [])
    (beyond : ∀ segment ∈ behind, batchesFrom next (batchesIn segment) = batchesFrom offset (batchesIn segment))
    (parts : ∀ other ∈ log.batches, offset ≤ lastOf other → other.length ≤ size ∨ next ≤ lastOf other) :
    AnswersFit topic log maxBytes offset ↔ ReplyFits topic size ∧ AnswersFit topic log maxBytes next := by
  have isOwner : owner ∈ log.sealedMap ++ [log.active.toSegmentBase] := by simp [segments]
  have held : batch ∈ log.batches := by
    have inOwner : batch ∈ batchesIn owner :=
      (List.dropWhile_suffix _).subset (first ▸ List.mem_cons_self : batch ∈ batchesFrom offset (batchesIn owner))
    rw [log_batches_segments]
    exact List.mem_flatMap.mpr ⟨owner, isOwner, inOwner⟩
  constructor
  · intro fits
    refine ⟨?_, fun other member far => fits.batches other member (le_trans forward far), ?_⟩
    · have alone := fits.batches batch held reaches
      rcases fits.asked with asked | rest
      · have both : ReplyFits topic (max batch.length maxBytes) := by
          rcases le_total batch.length maxBytes with below | above
          · rwa [max_eq_right below]
          · rwa [max_eq_left above]
        exact both.less (isSize ▸ max_le_max le_rfl (min_le_left _ _))
      · have remaining := rest owner isOwner
        rw [first] at remaining
        refine remaining.less (isSize ▸ max_le ?_ (min_le_right _ _))
        simp
    · exact fits.asked.imp id fun rest segment member => (rest segment member).less (batches_from_shorter forward _)
  · rintro ⟨now, later⟩
    refine ⟨?_, ?_⟩
    · intro other member far
      rcases parts other member far with small | further
      · exact now.less small
      · exact later.batches other member further
    · rcases later.asked with asked | rest
      · exact .inl asked
      rcases le_total maxBytes (batch :: after).flatten.length with limited | remaining
      · left
        rw [min_eq_left limited] at isSize
        exact now.less (isSize ▸ le_max_right _ _)
      right
      intro segment member
      rw [segments] at member
      rcases List.mem_append.mp member with front | ownerOrBehind
      · rw [inFront segment front]
        exact now.less (Nat.zero_le _)
      rcases List.mem_cons.mp ownerOrBehind with rfl | farther
      · rw [first]
        rw [min_eq_right remaining] at isSize
        exact now.less (isSize ▸ le_max_right _ _)
      · rw [← beyond segment farther]
        exact rest segment (by rw [segments]; simp [farther])

/-- One round of reading on: the answer begins with the batch the offset is in, and
behind the batches that are complete in it the log goes on. -/
structure ReadsRound (log : Log) (offset : Int) (maxBytes : Nat) (range : FileRange)
    (answered : List Bytes) (bytes : Nat) : Prop where
  read : log.read offset maxBytes = .ok ⟨.none, range⟩
  occupied : range.length ≠ 0
  answer : log.rangeBytes offset range = answered.flatten.take bytes
  held : ∀ batch ∈ answered, batch ∈ log.batches
  complete : fitting bytes answered ≠ []
  goesOn : batchesFrom offset log.batches = fitting bytes answered ++
    batchesFrom (endOffset offset (fitting bytes answered)) log.batches
  begins : log.logStartOffset ≤ endOffset offset (fitting bytes answered)
  remains : endOffset offset (fitting bytes answered) ≤ log.logEndOffset
  fits : ∀ topic, AnswersFit topic log maxBytes offset ↔
    ReplyFits topic range.length ∧ AnswersFit topic log maxBytes (endOffset offset (fitting bytes answered))

theorem read_round (holds : TiledHolds log) (intact : ∀ batch ∈ log.batches, IntactBatch batch)
    {offset : Int} (starts : log.logStartOffset ≤ offset) (ends : offset < log.logEndOffset)
    (maxBytes : Nat) : ∃ range answered bytes, ReadsRound log offset maxBytes range answered bytes := by
  obtain ⟨consecutive, reachesEnd⟩ := log_consecutive holds
  obtain ⟨before, owner, behind, earlier, batch, after, range, segments, split, base, reaches, read, isSize, answer⟩ :=
    read_inside holds starts ends maxBytes
  have whole : batch.length ≤ range.length := isSize ▸ le_max_left _ _
  have within : log.batches =
      before.flatMap batchesIn ++ earlier ++ (batch :: after ++ behind.flatMap batchesIn) := by
    rw [log_batches_segments, segments]
    simp [split]
  have inside : ∀ other ∈ batch :: after, other ∈ log.batches := by
    intro other member
    rw [within]
    exact List.mem_append_right _ (List.mem_append_left _ member)
  have positive := (intact batch (inside batch List.mem_cons_self)).positive
  -- the whole batches of the answer, and what is left of the log behind them
  obtain ⟨left, parts⟩ := fitting_front range.length (batch :: after)
  have complete : fitting range.length (batch :: after) ≠ [] := by simp [fitting, Nat.not_lt.mpr whole]
  have room := le_trans (fitting_bytes range.length (batch :: after)) (List.length_take_le _ _)
  suffices rest : batchesFrom offset log.batches = fitting range.length (batch :: after) ++
        batchesFrom (endOffset offset (fitting range.length (batch :: after))) log.batches ∧
      log.logStartOffset ≤ endOffset offset (fitting range.length (batch :: after)) ∧
      endOffset offset (fitting range.length (batch :: after)) ≤ log.logEndOffset ∧
      ∀ topic, AnswersFit topic log maxBytes offset ↔ ReplyFits topic range.length ∧
        AnswersFit topic log maxBytes (endOffset offset (fitting range.length (batch :: after))) from
    ⟨range, batch :: after, range.length, read, by omega, answer, inside, complete, rest.1, rest.2.1, rest.2.2.1,
      rest.2.2.2⟩
  generalize fitting range.length (batch :: after) = taken at parts complete room ⊢
  have shape : log.batches =
      (before.flatMap batchesIn ++ earlier ++ taken) ++ (left ++ behind.flatMap batchesIn) := by
    rw [within, ← parts]
    simp
  have below : ∀ other ∈ before.flatMap batchesIn ++ earlier, lastOf other < offset := by
    rw [within] at consecutive
    obtain ⟨front, begins, _⟩ := consecutive_append.mp consecutive
    intro other member
    have upTo := last_lt_end front.ascending member
    omega
  have here : batchesFrom offset log.batches = taken ++ (left ++ behind.flatMap batchesIn) := by
    rw [within] at consecutive ⊢
    rw [batches_from_end below fun first isFirst => by cases isFirst; exact reaches, ← parts,
      List.append_assoc]
  have whole_log := consecutive
  rw [shape] at consecutive reachesEnd
  obtain ⟨front, rest⟩ := consecutive_append.mp consecutive
  have next : endOffset log.logStartOffset (before.flatMap batchesIn ++ earlier ++ taken) = endOffset offset taken := by
    rw [end_offset_append, end_offset_occupied _ offset complete]
  have begins := start_le_end front.ascending
  have remains := start_le_end rest.ascending
  rw [end_offset_append] at reachesEnd
  rw [reachesEnd] at remains
  rw [next] at rest begins remains
  have farther : ∀ other ∈ left ++ behind.flatMap batchesIn, endOffset offset taken ≤ lastOf other := by
    intro other member
    obtain ⟨above, spans⟩ := start_le_base rest.ascending member
    omega
  have later : batchesFrom (endOffset offset taken) log.batches = left ++ behind.flatMap batchesIn := by
    rw [shape]
    apply batches_from_end
    · intro other member
      rw [← next]
      exact last_lt_end front.ascending member
    · exact fun first isFirst => farther first (List.mem_of_mem_head? isFirst)
  have forward : offset ≤ endOffset offset taken := by
    obtain ⟨first, rest, rfl⟩ := List.exists_cons_of_ne_nil complete
    obtain ⟨rfl, _⟩ := List.cons.inj parts
    have upTo := last_lt_end front.ascending (List.mem_append_right _ List.mem_cons_self)
    omega
  refine ⟨by rw [later, here], begins, remains, fun topic =>
    answers_fit_round topic segments ?_ reaches isSize forward ?_ ?_ ?_⟩
  · rw [split]
    exact batches_from_end (fun other member => below other (List.mem_append_right _ member))
      fun first isFirst => by cases isFirst; exact reaches
  · intro segment member
    apply List.dropWhile_eq_nil_iff.mpr
    intro other inSegment
    simpa using below other (List.mem_append_left _ (List.mem_flatMap.mpr ⟨segment, member, inSegment⟩))
  · intro segment member
    have all : ∀ other ∈ batchesIn segment, endOffset offset taken ≤ lastOf other := fun other inSegment =>
      farther other (List.mem_append_right _ (List.mem_flatMap.mpr ⟨segment, member, inSegment⟩))
    rw [batches_from_all all, batches_from_all fun other inSegment => le_trans forward (all other inSegment)]
  · intro other member far
    rw [shape] at member
    rcases List.mem_append.mp member with inFront | behindIt
    · rcases List.mem_append.mp inFront with passed | here
      · have upTo := below other passed
        omega
      · exact .inl (le_trans (List.sublist_flatten_of_mem here).length_le room)
    · exact .inr (farther other behindIt)

theorem batches_from_log_end (holds : TiledHolds log) : batchesFrom log.logEndOffset log.batches = [] := by
  obtain ⟨consecutive, reachesEnd⟩ := log_consecutive holds
  apply List.dropWhile_eq_nil_iff.mpr
  intro batch member
  have below := last_lt_end consecutive.ascending member
  simp only [decide_eq_true_eq]
  omega

theorem ReadsRound.fewer {offset : Int} {maxBytes : Nat} {range : FileRange} {answered : List Bytes}
    {bytes rounds : Nat} (round : ReadsRound log offset maxBytes range answered bytes)
    (enough : (batchesFrom offset log.batches).length < rounds + 1) :
    (batchesFrom (endOffset offset (fitting bytes answered)) log.batches).length < rounds := by
  have positive := List.length_pos_iff.mpr round.complete
  rw [round.goesOn, List.length_append] at enough
  omega

theorem answers_fit_at_end (holds : TiledHolds log) {topic : Bytes} (short : topic.length < 2 ^ 15) (maxBytes : Nat) :
    AnswersFit topic log maxBytes log.logEndOffset := by
  obtain ⟨consecutive, reachesEnd⟩ := log_consecutive holds
  have below : ∀ batch ∈ log.batches, lastOf batch < log.logEndOffset := fun batch member =>
    reachesEnd ▸ last_lt_end consecutive.ascending member
  refine ⟨fun batch member reaches => absurd (below batch member) (not_lt.mpr reaches), .inr ?_⟩
  intro segment member
  have none : batchesFrom log.logEndOffset (batchesIn segment) = [] := by
    apply List.dropWhile_eq_nil_iff.mpr
    intro batch inSegment
    have held : batch ∈ log.batches := by
      rw [log_batches_segments]
      exact List.mem_flatMap.mpr ⟨segment, member, inSegment⟩
    simpa using below batch held
  rw [none]
  exact reply_fits_short short (Nat.zero_le _)

/-- With as little as the programs ask for at a time, only a batch can be too large. -/
theorem answers_fit_short {topic : Bytes} (short : topic.length < 2 ^ 15) {maxBytes : Nat} (few : maxBytes ≤ 2 ^ 20)
    {start : Int} : AnswersFit topic log maxBytes start ↔
      ∀ batch ∈ log.batches, start ≤ lastOf batch → ReplyFits topic batch.length :=
  ⟨fun fits => fits.batches, fun batches => ⟨batches, .inl (reply_fits_short short few)⟩⟩

theorem ReadsRound.fetched {offset : Int} {maxBytes : Nat} {range : FileRange} {answered : List Bytes} {bytes : Nat}
    (round : ReadsRound log offset maxBytes range answered bytes) (fits : ReplyFits log.tp.topic range.length) :
    ∃ answer, fetchView log { fetchOffset := offset, maxBytes := maxBytes } = .ok answer ∧ answer.error = .none ∧
      answer.records = answered.flatten.take bytes := by
  simp only [fetchView, fetchAnswer, round.read, errorCodeFor, if_true, takes_iff.mpr fits, except_ok_bind]
  exact ⟨_, rfl, rfl, round.answer⟩

theorem ReadsRound.refused {offset : Int} {maxBytes : Nat} {range : FileRange} {answered : List Bytes} {bytes : Nat}
    (round : ReadsRound log offset maxBytes range answered bytes) (large : ¬ ReplyFits log.tp.topic range.length) :
    ∃ failure, fetchView log { fetchOffset := offset, maxBytes := maxBytes } = .error failure := by
  simp only [fetchView, fetchAnswer, round.read, if_true]
  cases taken : Client.takes (fetchReplyBytes log.tp.topic range.length) with
  | ok => exact absurd (takes_iff.mp taken) large
  | error failure => exact ⟨failure, rfl⟩

theorem ReadsRound.something {offset : Int} {maxBytes : Nat} {range : FileRange} {answered : List Bytes} {bytes : Nat}
    (round : ReadsRound log offset maxBytes range answered bytes)
    (intact : ∀ batch ∈ log.batches, IntactBatch batch) : answered.flatten.take bytes ≠ [] := by
  intro nothing
  have room := fitting_bytes bytes answered
  have front := (fitting_front bytes answered).subset
  have count := count_le_bytes fun batch member => (intact batch (round.held batch (front member))).positive
  have complete := List.length_pos_iff.mpr round.complete
  rw [nothing, List.length_nil] at room
  omega

/-- The consumer prints the records of every batch that is not wholly in front
of the offset it starts from. -/
theorem consume_prints (holds : TiledHolds log) (readable : ∀ batch ∈ log.batches, Readable batch)
    (maxBytes : Nat) {rounds : Nat} {offset : Int} (printed : List Printed)
    (starts : log.logStartOffset ≤ offset) (ends : offset ≤ log.logEndOffset)
    (fits : AnswersFit log.tp.topic log maxBytes offset)
    (enough : (batchesFrom offset log.batches).length < rounds) :
    doConsume log maxBytes rounds offset printed = some (.ok
      ⟨printed ++ ((batchesFrom offset log.batches).flatMap recordsOf).map LogRecord.printed, 0⟩) := by
  induction rounds generalizing offset printed with
  | zero => cases enough
  | succ rounds ih =>
      have intact : ∀ batch ∈ log.batches, IntactBatch batch :=
        fun batch member => (readable batch member).toIntactBatch
      by_cases caughtUp : offset = log.logEndOffset
      · subst caughtUp
        obtain ⟨answer, fetched, fine, nothing⟩ := fetch_at_end log (topic_short holds.toLogHolds) maxBytes
        simp [doConsume, fetched, fine, nothing, batches_from_log_end holds]
      · obtain ⟨range, answered, bytes, round⟩ := read_round holds intact starts (by omega) maxBytes
        obtain ⟨now, behind⟩ := (round.fits _).mp fits
        obtain ⟨answer, fetched, fine, records⟩ := round.fetched now
        have inside : ∀ batch ∈ answered, Readable batch :=
          fun batch member => readable batch (round.held batch member)
        have prints := print_batches_spec inside bytes offset
        have later := ih (printed ++ ((fitting bytes answered).flatMap recordsOf).map LogRecord.printed)
          round.begins round.remains behind (round.fewer enough)
        simp only [doConsume, fetched, fine, records, round.something intact, prints, later]
        rw [round.goesOn]
        simp

/-- Where an answer does not fit, it throws when it comes to that. -/
theorem consume_refused (holds : TiledHolds log) (readable : ∀ batch ∈ log.batches, Readable batch)
    (maxBytes : Nat) {rounds : Nat} {offset : Int} (printed : List Printed)
    (starts : log.logStartOffset ≤ offset) (ends : offset ≤ log.logEndOffset)
    (large : ¬ AnswersFit log.tp.topic log maxBytes offset)
    (enough : (batchesFrom offset log.batches).length < rounds) :
    ∃ failure, doConsume log maxBytes rounds offset printed = some (.error failure) := by
  induction rounds generalizing offset printed with
  | zero => cases enough
  | succ rounds ih =>
      have intact : ∀ batch ∈ log.batches, IntactBatch batch :=
        fun batch member => (readable batch member).toIntactBatch
      have before : offset ≠ log.logEndOffset := by
        rintro rfl
        exact large (answers_fit_at_end holds (topic_short holds.toLogHolds) maxBytes)
      obtain ⟨range, answered, bytes, round⟩ := read_round holds intact starts (by omega) maxBytes
      by_cases now : ReplyFits log.tp.topic range.length
      · obtain ⟨answer, fetched, fine, records⟩ := round.fetched now
        have inside : ∀ batch ∈ answered, Readable batch :=
          fun batch member => readable batch (round.held batch member)
        have prints := print_batches_spec inside bytes offset
        obtain ⟨failure, thrown⟩ := ih (printed ++ ((fitting bytes answered).flatMap recordsOf).map LogRecord.printed)
          round.begins round.remains (fun behind => large ((round.fits _).mpr ⟨now, behind⟩)) (round.fewer enough)
        refine ⟨failure, ?_⟩
        simp only [doConsume, fetched, fine, records, round.something intact, prints, thrown]
        simp
      · obtain ⟨failure, refused⟩ := round.refused now
        exact ⟨failure, by simp only [doConsume, refused]⟩

end WholeLog

section Delivery

variable {start : Int} {batches : List Bytes}

theorem record_within {batch : Bytes} (readable : Readable batch) {record : LogRecord}
    (member : record ∈ recordsOf batch) : baseOf batch ≤ record.offset ∧ record.offset ≤ lastOf batch :=
  well_formed_within readable member

theorem mem_batches_from (consecutive : Consecutive start batches) {offset : Int} {batch : Bytes} :
    batch ∈ batchesFrom offset batches ↔ batch ∈ batches ∧ offset ≤ lastOf batch := by
  induction batches generalizing start with
  | nil => simp [batchesFrom]
  | cons first batches ih =>
      obtain ⟨_, spans, later⟩ := consecutive
      unfold batchesFrom
      by_cases below : lastOf first < offset
      · rw [List.dropWhile_cons_of_pos (by simpa using below)]
        have tail := ih later
        rw [batchesFrom] at tail
        rw [tail, List.mem_cons]
        constructor
        · exact fun ⟨member, reaches⟩ => ⟨.inr member, reaches⟩
        · rintro ⟨rfl | member, reaches⟩
          · omega
          · exact ⟨member, reaches⟩
      · rw [List.dropWhile_cons_of_neg (by simpa using below)]
        constructor
        · intro member
          refine ⟨member, ?_⟩
          rcases List.mem_cons.mp member with same | behind
          · rw [same]
            omega
          · have above := start_le_base later.ascending behind
            omega
        · exact fun both => both.1

def StartsOnRecords (log : Log) (start : Int) : Prop :=
  ∀ batch ∈ log.batches, baseOf batch ≤ start → start ≤ lastOf batch →
    ∀ record ∈ recordsOf batch, start ≤ record.offset

/-- No record from an offset on has a zero byte in its value. -/
def TextFrom (log : Log) (start : Int) : Prop :=
  ∀ record ∈ log.batches.flatMap recordsOf, start ≤ record.offset → 0 ∉ record.value.getD []

theorem until_nul_eq_iff (value : Bytes) : untilNul value = value ↔ 0 ∉ value := by
  rw [untilNul, List.takeWhile_eq_self_iff]
  constructor
  · intro nonzero inside
    simpa using nonzero 0 inside
  · intro absent byte inside
    have nonzero : byte ≠ 0 := by
      rintro rfl
      exact absent inside
    simpa using nonzero

/-- A record comes out whole if it has no zero byte. -/
theorem printed_eq_line_iff (record : LogRecord) :
    LogRecord.printed record = LogRecord.line record ↔ 0 ∉ record.value.getD [] := by
  rw [← until_nul_eq_iff]
  simp [LogRecord.printed, LogRecord.line]

theorem same_record {records : List LogRecord} (rising : records.Pairwise fun early late => early.offset < late.offset)
    {first second : LogRecord} (isFirst : first ∈ records) (isSecond : second ∈ records)
    (same : first.offset = second.offset) : first = second := by
  have symmetric : Std.Symm fun one other : LogRecord => one.offset = other.offset → one = other :=
    ⟨fun _ _ apart equal => (apart equal.symm).symm⟩
  have apart : records.Pairwise fun one other => one.offset = other.offset → one = other :=
    rising.imp fun below equal => absurd equal (ne_of_lt below)
  exact apart.forall_of_forall (fun _ _ _ => rfl) isFirst isSecond same

/-- What is printed from an offset on is what it should be exactly if nothing in
front of the offset is in its batch and no value has a zero byte. -/
theorem prints_iff {log : Log} (consecutive : Consecutive log.logStartOffset log.batches)
    (readable : ∀ batch ∈ log.batches, Readable batch) (offset : Int) :
    DeliversFrom log offset
        (((batchesFrom offset log.batches).flatMap recordsOf).map LogRecord.printed) ↔
      StartsOnRecords log offset ∧ TextFrom log offset := by
  have formed : ∀ batch ∈ log.batches, FormedBatch batch := by
    intro batch member
    have wellFormed := readable batch member
    exact ⟨wellFormed.toIntactBatch, fun _ => ⟨_, wellFormed⟩⟩
  have rising := ascending_records consecutive.ascending formed
  have fromLog : ((batchesFrom offset log.batches).flatMap recordsOf).Sublist (log.batches.flatMap recordsOf) :=
    (List.dropWhile_sublist _).flatMap recordsOf
  constructor
  · intro delivers
    constructor
    · intro batch member _ reaches record inside
      have from_ := (mem_batches_from consecutive).mpr ⟨member, reaches⟩
      have printed : LogRecord.printed record ∈
          ((batchesFrom offset log.batches).flatMap recordsOf).map LogRecord.printed :=
        List.mem_map_of_mem (List.mem_flatMap.mpr ⟨batch, from_, inside⟩)
      exact (delivers.only _ printed).1
    · intro record inLog behind
      obtain ⟨shown, isShown, same⟩ := List.mem_map.mp (delivers.complete record inLog behind)
      have isRecord : shown = record :=
        same_record rising (fromLog.subset isShown) inLog (congrArg Printed.offset same)
      rw [isRecord] at same
      exact (printed_eq_line_iff record).mp same
  · rintro ⟨startsOn, text⟩
    refine ⟨?_, ?_, ?_⟩
    · intro record inLog behind
      obtain ⟨batch, member, inside⟩ := List.mem_flatMap.mp inLog
      have upTo := (record_within (readable batch member) inside).2
      have from_ := (mem_batches_from consecutive).mpr ⟨member, le_trans behind upTo⟩
      rw [← (printed_eq_line_iff record).mpr (text record inLog behind)]
      exact List.mem_map_of_mem (List.mem_flatMap.mpr ⟨batch, from_, inside⟩)
    · intro line isLine
      obtain ⟨record, inFrom, rfl⟩ := List.mem_map.mp isLine
      obtain ⟨batch, fromBatch, inside⟩ := List.mem_flatMap.mp inFrom
      obtain ⟨member, reaches⟩ := (mem_batches_from consecutive).mp fromBatch
      have above := (record_within (readable batch member) inside).1
      have behind : offset ≤ record.offset := by
        by_cases holdsStart : baseOf batch ≤ offset
        · exact startsOn batch member holdsStart reaches record inside
        · exact le_trans (Int.le_of_lt (Int.not_le.mp holdsStart)) above
      have inLog := List.mem_flatMap.mpr ⟨batch, member, inside⟩
      exact ⟨behind, record, inLog, ((printed_eq_line_iff record).mpr (text record inLog behind)).symm⟩
    · rw [List.pairwise_map]
      exact rising.sublist fromLog

end Delivery

/-- Appends of well-formed batches that do not fail, and every other action on a
log that deletes. -/
def ProducesReadable : LogAction → Prop
  | .append batchBytes _ _ fault => Readable batchBytes ∧ fault = none
  | .clean _ _ _ => False
  | _ => True

theorem ProducesReadable.plain {action : LogAction} (produces : ProducesReadable action) :
    action.Plain := by
  cases action with
  | append => exact ⟨produces.1.toIntactBatch, produces.2⟩
  | clean => exact produces
  | maybeRoll | applyRetention | sweepGraveyard | reopen => trivial

/-- A log that deletes whose batches can all be read. -/
structure ConsumeHolds (log : Log) : Prop extends WholeHolds log where
  readable : ∀ batch ∈ log.batches, Readable batch

/-- What is behind an action that a log takes, seen from what it holds. -/
theorem appending_of_step {log next : Log} {action : LogAction} (taken : Log.step action log = some next) :
    ∃ appended answers, Appending.step action ⟨log, log.batches, []⟩ = some ⟨next, appended, answers⟩ ∧
      ((∃ batchBytes rollMs clockMs fault, action = .append batchBytes rollMs clockMs fault) ∨
        appended = log.batches) := by
  cases action with
  | append batchBytes rollMs clockMs fault =>
      simp only [Appending.step, taken]
      cases log.append batchBytes rollMs clockMs fault with
      | returned | threw | ruined => exact ⟨_, _, rfl, .inl ⟨_, _, _, _, rfl⟩⟩
  | maybeRoll | applyRetention | sweepGraveyard | clean | reopen =>
      simp only [Appending.step, taken]
      exact ⟨_, _, rfl, .inr rfl⟩

theorem consume_step {log next : Log} {action : LogAction} (holds : ConsumeHolds log)
    (produces : ProducesReadable action) (taken : Log.step action log = some next) :
    ConsumeHolds next := by
  obtain ⟨appended, answers, moved, quiet⟩ := appending_of_step taken
  obtain ⟨whole, gone, kept⟩ := appending_step holds.toWholeHolds ⟨[], rfl⟩ produces.plain moved
  refine ⟨whole, ?_⟩
  intro batch member
  rcases quiet with ⟨batchBytes, rollMs, clockMs, fault, rfl⟩ | same
  · obtain ⟨readable, rfl⟩ := produces
    rcases append_moves holds.toLogSettled readable.toIntactBatch rollMs clockMs taken with
      ⟨same, _⟩ | ⟨range, grown, _⟩
    · exact holds.readable batch (same ▸ member)
    · rw [grown] at member
      rcases List.mem_append.mp member with old | new
      · exact holds.readable batch old
      · rw [List.mem_singleton.mp new]
        exact readable.restamped range
  · apply holds.readable
    simp only at kept
    rw [← same, kept]
    exact List.mem_append_right _ member

/-- Over a log of well-formed batches the consumer ends with every record from its
offset on printed, once and in order, and nothing else, exactly if the batch that
holds the offset has no record in front of it, no value has a zero byte and every
answer fits into a frame. -/
theorem consumer_delivers_iff {tp : TopicPartition} {dir : String} {config : LogConfig}
    {created final : Log} (named : StorableName tp) (storable : config.Storable)
    (deletes : config.compacted = false) (made : Log.create tp dir config = .ok created)
    (reached : GuardedRun.Reaches Log.step (fun _ action => ProducesReadable action) created final)
    {start : Int} (starts : final.logStartOffset ≤ start) (ends : start ≤ final.logEndOffset)
    (maxBytes : Nat) :
    (∃ printed, (∀ rounds, final.batches.length < rounds →
        doConsume final maxBytes rounds start [] = some (.ok ⟨printed, 0⟩)) ∧
      DeliversFrom final start printed) ↔
      StartsOnRecords final start ∧ TextFrom final start ∧ AnswersFit final.tp.topic final maxBytes start := by
  obtain ⟨whole, empty⟩ := created_whole named storable deletes made
  have holds := reached.invariant Log.step _ ConsumeHolds ⟨whole, by simp [empty]⟩
    (fun _ _ _ holds produces taken => consume_step holds produces taken)
  have consecutive := (log_consecutive holds.tiled).1
  have fewer : (batchesFrom start final.batches).length ≤ final.batches.length :=
    (List.dropWhile_sublist _).length_le
  rw [← and_assoc, ← prints_iff consecutive holds.readable start]
  by_cases fits : AnswersFit final.tp.topic final maxBytes start
  · have prints : ∀ rounds, final.batches.length < rounds →
        doConsume final maxBytes rounds start [] = some (.ok
          ⟨((batchesFrom start final.batches).flatMap recordsOf).map LogRecord.printed, 0⟩) := fun rounds enough =>
      consume_prints holds.tiled holds.readable maxBytes [] starts ends fits (Nat.lt_of_le_of_lt fewer enough)
    constructor
    · rintro ⟨printed, ended, delivers⟩
      have both := (ended _ (Nat.lt_succ_self _)).symm.trans (prints _ (Nat.lt_succ_self _))
      cases both
      exact ⟨delivers, fits⟩
    · exact fun delivers => ⟨_, prints, delivers.1⟩
  · constructor
    · rintro ⟨printed, ended, -⟩
      obtain ⟨failure, refused⟩ := consume_refused holds.tiled holds.readable maxBytes [] starts ends fits
        (Nat.lt_succ_of_le fewer)
      rw [ended _ (Nat.lt_succ_self _)] at refused
      cases refused
    · exact fun delivers => absurd delivers.2 fits

instance (action : LogAction) : Decidable (ProducesReadable action) :=
  match action with
  | .append batchBytes _ _ fault => inferInstanceAs (Decidable (Readable batchBytes ∧ fault = none))
  | .clean _ _ _ => inferInstanceAs (Decidable False)
  | .maybeRoll _ | .applyRetention _ | .sweepGraveyard _ | .reopen _ _ =>
      inferInstanceAs (Decidable True)

instance (log : Log) (start : Int) : Decidable (StartsOnRecords log start) :=
  inferInstanceAs (Decidable (∀ batch ∈ log.batches, baseOf batch ≤ start → start ≤ lastOf batch →
    ∀ record ∈ recordsOf batch, start ≤ record.offset))

instance (log : Log) (start : Int) : Decidable (TextFrom log start) :=
  inferInstanceAs (Decidable (∀ record ∈ log.batches.flatMap recordsOf, _ → 0 ∉ record.value.getD []))

instance (topic : Bytes) (recordBytes : Nat) : Decidable (ReplyFits topic recordBytes) :=
  inferInstanceAs (Decidable (_ ≤ _))

instance (topic : Bytes) (log : Log) (maxBytes : Nat) (start : Int) : Decidable (AnswersFit topic log maxBytes start) :=
  decidable_of_iff _ ⟨fun both => ⟨both.1, both.2⟩, fun fits => And.intro fits.batches fits.asked⟩

def pairBatch : Bytes :=
  match ({} : RecordBatchBuilder).append 10 none (some [118]) [] >>=
      (·.append 10 none (some [119]) []) with
  | .error _ => []
  | .ok builder => builtBytes builder

def fiveLines : List LogAction :=
  [.append pairBatch 0 0 none, .append pairBatch 0 0 none,
    .append (recordBatchOf 10 none (some [118])) 0 0 none]

theorem consumer_delivers_iff_second_batch :
    ∃ (final : Log) (printed : List Printed), final.logEndOffset = 5 ∧
      (∀ rounds, final.batches.length < rounds →
        doConsume final 64 rounds 2 [] = some (.ok ⟨printed, 0⟩)) ∧
      DeliversFrom final 2 printed := by
  obtain ⟨created, final, made, reached, checked⟩ := found_from_creation Log.step
    (fun _ action => ProducesReadable action) id ⟨[116], 0⟩ "t-0" twoBatchConfig
    (fun log => decide (log.logStartOffset ≤ 2 ∧ log.logEndOffset = 5 ∧ StartsOnRecords log 2 ∧ TextFrom log 2 ∧
      AnswersFit log.tp.topic log 64 2)) fiveLines (by decide +kernel)
  obtain ⟨starts, ends, plain⟩ := of_decide_eq_true checked
  have delivers := consumer_delivers_iff ⟨by decide, by decide, by decide, by decide⟩
    storable_two_batch_config rfl made reached starts (by rw [ends]; decide) 64
  obtain ⟨printed, ended, delivered⟩ := delivers.mpr plain
  exact ⟨final, printed, ends, ended, delivered⟩

/-- From the second record of a batch on, the consumer prints the first one too. -/
theorem consumer_prints_in_front_of_its_start :
    ¬ ∀ created final : Log, Log.create ⟨[116], 0⟩ "t-0" twoBatchConfig = .ok created →
      GuardedRun.Reaches Log.step (fun _ action => ProducesReadable action) created final →
      ∀ start maxBytes, final.logStartOffset ≤ start → start ≤ final.logEndOffset →
        ∃ printed, (∀ rounds, final.batches.length < rounds →
          doConsume final maxBytes rounds start [] = some (.ok ⟨printed, 0⟩)) ∧
          DeliversFrom final start printed := by
  apply refuted_from_creation Log.step (fun _ action => ProducesReadable action) id ⟨[116], 0⟩ "t-0"
    twoBatchConfig _
    (fun log => !decide (log.logStartOffset ≤ 1 ∧ 1 ≤ log.logEndOffset ∧ log.batches.length < 9) ||
      (doConsume log 4096 9 1 []).all fun ended => ended.toOption.all fun consumed =>
        consumed.printed.all fun line => decide (1 ≤ line.offset))
    _ fiveLines (by decide +kernel)
  intro log delivers
  rw [Bool.or_eq_true, Bool.not_eq_true', decide_eq_false_iff_not]
  by_cases inside : log.logStartOffset ≤ 1 ∧ 1 ≤ log.logEndOffset ∧ log.batches.length < 9
  · obtain ⟨printed, ended, delivered⟩ := delivers 1 4096 inside.1 inside.2.1
    rw [ended 9 inside.2.2]
    exact .inr (by simpa [Except.toOption] using fun line member => (delivered.only line member).1)
  · exact .inl inside

end DariyaKyu.Cli

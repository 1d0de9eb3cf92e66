import DariyaKyu.Server.ResponseCodecs

/-!
The response of a fetch against its decoder. The encoder hands out what it has
built wherever records follow, so that the bytes of an answer lie in several
pieces and the records in none of them; read in order, the pieces are the
encoding of what a client will have received.
-/

namespace DariyaKyu.Server

set_option autoImplicit false

open Protocol Storage PrefixCodec BufferReader

structure ReceivedFetch where
  partition : Int := 0
  error : Int := 0
  highWatermark : Int := 0
  logStartOffset : Int := 0
  records : Bytes

def readFetched : Decoder ReceivedFetch := fun input => do
  let (partition, input) ← input.readInt32
  let (error, input) ← input.readInt16
  let (highWatermark, input) ← input.readInt64
  let (logStartOffset, input) ← input.readInt64
  let (recordsLength, input) ← input.readInt32
  if recordsLength < 0 then .error (.corruptData s!"fetch: records length {recordsLength}")
  else do
    let (records, input) ← input.readBytes recordsLength.toNat
    return (⟨partition, error, highWatermark, logStartOffset, records⟩, input)

def decodeFetchResponse : Decoder (List (TopicOf ReceivedFetch)) := readTopics readFetched

def writeFetched (received : ReceivedFetch) : Except Error Bytes :=
  .ok (writeInt32 received.partition ++ writeInt16 received.error ++ writeInt64 received.highWatermark ++
    writeInt64 received.logStartOffset ++ writeInt32 received.records.length ++ received.records)

def writeFetchResponse : List (TopicOf ReceivedFetch) → Except Error Bytes := writeTopics writeFetched

structure ReceivedFetch.Fits (received : ReceivedFetch) : Prop where
  partition : FitsSigned 32 received.partition
  error : FitsSigned 16 received.error
  highWatermark : FitsSigned 64 received.highWatermark
  logStartOffset : FitsSigned 64 received.logStartOffset
  records : CountFits received.records

theorem fetched_round_trips {received : ReceivedFetch} (fits : ReceivedFetch.Fits received) :
    RoundTrips readFetched writeFetched received := by
  refine ⟨_, rfl, by simp [writeInt32, write_int_occupied], ?_⟩
  simp only [List.append_assoc]
  apply Writes.bind (read_int32_writes fits.partition)
  apply Writes.bind (read_int16_writes fits.error)
  apply Writes.bind (read_int64_writes fits.highWatermark)
  apply Writes.bind (read_int64_writes fits.logStartOffset)
  apply Writes.bind (read_int32_writes fits.records.fits)
  simp only [Int.toNat_natCast]
  apply Writes.passes (by omega)
  exact Writes.last (read_bytes_writes received.records) fun _ => rfl

theorem fetched_reads : Reads IsCorrupt readFetched := by
  apply Reads.bind (read_int_reads 32)
  intro partition
  apply Reads.bind (read_int_reads 16)
  intro error
  apply Reads.bind (read_int_reads 64)
  intro highWatermark
  apply Reads.bind (read_int_reads 64)
  intro logStartOffset
  apply Reads.bind (read_int_reads 32)
  intro recordsLength
  apply Reads.ite
  · exact Reads.fail (corrupt_data _)
  · apply Reads.bind (read_bytes_reads _)
    intro records
    exact Reads.ok _

def FetchedPartition.records (fetched : FetchedPartition) : Bytes :=
  fetched.file.readAt fetched.answer.records.position fetched.answer.records.length

def FetchedPartition.received (fetched : FetchedPartition) : ReceivedFetch :=
  ⟨fetched.answer.partition, fetched.answer.error.number, fetched.answer.highWatermark,
    fetched.answer.logStartOffset, fetched.records⟩

/-- Numbers of their types, and a range of at most `2^31 - 1` bytes that the file has. -/
structure FetchedPartition.Fits (fetched : FetchedPartition) : Prop where
  partition : FitsSigned 32 fetched.answer.partition
  highWatermark : FitsSigned 64 fetched.answer.highWatermark
  logStartOffset : FitsSigned 64 fetched.answer.logStartOffset
  short : fetched.answer.records.length ≤ 2 ^ 31 - 1
  there : fetched.answer.records.length = 0 ∨
    fetched.answer.records.position + fetched.answer.records.length ≤ fetched.file.bytes.length

section Encoding

variable {fetched : FetchedPartition} {topics : List (TopicOf FetchedPartition)} {out : Response}

theorem FetchedPartition.Fits.records_length (fits : fetched.Fits) :
    fetched.records.length = fetched.answer.records.length := by
  have there := fits.there
  simp only [FetchedPartition.records, FileHandle.readAt, List.length_take, List.length_drop]
  omega

theorem error_number_fits (code : ErrorCode) : FitsSigned 16 code.number := by
  cases code <;> decide

theorem FetchedPartition.Fits.received (fits : fetched.Fits) : fetched.received.Fits := by
  have short := fits.short
  have length := fits.records_length
  refine ⟨fits.partition, error_number_fits _, fits.highWatermark, fits.logStartOffset, ?_⟩
  simp only [CountFits, FetchedPartition.received]
  omega

/-- A response as far as it is built, and the buffer that is not in it yet: the
bytes so far, and their number without a look into a file. -/
structure Built (state : Response × Bytes) (bytes : Bytes) : Prop where
  sent : state.1.sent ++ state.2 = bytes
  counted : state.1.totalBytes + state.2.length = bytes.length

theorem Built.wrote {state : Response × Bytes} {bytes : Bytes} (built : Built state bytes) (more : Bytes) :
    Built (state.1, state.2 ++ more) (bytes ++ more) := by
  constructor
  · rw [← List.append_assoc, built.sent]
  · rw [List.length_append, List.length_append, ← Nat.add_assoc, built.counted]

theorem Built.done {state : Response × Bytes} {bytes : Bytes} (built : Built state bytes) :
    (state.1.append state.2).sent = bytes ∧ (state.1.append state.2).totalBytes = bytes.length := by
  rw [sent_append, total_bytes_append]
  exact ⟨built.sent, built.counted⟩

/-- A partition is encoded as what a client will have of it, whether or not its records interrupt the buffer. -/
theorem encode_fetched_built {state : Response × Bytes} {bytes : Bytes} (built : Built state bytes)
    (fits : fetched.Fits) : ∃ written, writeFetched fetched.received = .ok written ∧
      Built (encodeFetched state fetched) (bytes ++ written) := by
  have length := fits.records_length
  have front := built.wrote (fetchedFront fetched.answer)
  refine ⟨fetchedFront fetched.answer ++ fetched.records, ?_, ?_⟩
  · simp only [writeFetched, FetchedPartition.received, fetchedFront, length]
    rfl
  · rw [← List.append_assoc]
    simp only [encodeFetched]
    split
    · next nothing =>
      rw [nothing] at length
      rw [List.length_eq_zero_iff.mp length, List.append_nil]
      exact front
    · obtain ⟨sent, counted⟩ := front.done
      constructor
      · rw [sent_append_range, sent, List.append_nil]
        rfl
      · simp only [total_bytes_append_range, counted, List.length_append, length, List.length_nil, Nat.add_zero]

theorem encode_partitions_built (partitions : List FetchedPartition) (fits : ∀ fetched ∈ partitions, fetched.Fits)
    {state : Response × Bytes} {bytes : Bytes} (built : Built state bytes) :
    ∃ written, (partitions.map (·.received)).mapM writeFetched = .ok written ∧
      Built (partitions.foldl encodeFetched state) (bytes ++ written.flatten) := by
  induction partitions generalizing state bytes with
  | nil => exact ⟨[], rfl, by simpa using built⟩
  | cons fetched rest ih =>
      obtain ⟨isFirst, isRest⟩ := List.forall_mem_cons.mp fits
      obtain ⟨front, wrote, after⟩ := encode_fetched_built built isFirst
      obtain ⟨parts, wroteRest, done⟩ := ih isRest after
      refine ⟨front :: parts, ?_, ?_⟩
      · simp only [List.map_cons, List.mapM_cons, wrote, wroteRest, except_ok_bind]
        rfl
      · rw [List.flatten_cons, ← List.append_assoc]
        exact done

theorem encode_topics_built (topics : List (TopicOf FetchedPartition))
    (names : ∀ topic ∈ topics, topic.name.length < 2 ^ 15)
    (fits : ∀ topic ∈ topics, ∀ fetched ∈ topic.partitions, fetched.Fits) {state : Response × Bytes}
    {bytes : Bytes} (built : Built state bytes) :
    ∃ written ends, (topics.map (TopicOf.over FetchedPartition.received)).mapM (writeTopic writeFetched) =
        .ok written ∧
      topics.foldlM encodeFetchedTopic state = .ok ends ∧ Built ends (bytes ++ written.flatten) := by
  induction topics generalizing state bytes with
  | nil => exact ⟨[], state, rfl, rfl, by simpa using built⟩
  | cons topic rest ih =>
      obtain ⟨short, shortRest⟩ := List.forall_mem_cons.mp names
      obtain ⟨isFirst, isRest⟩ := List.forall_mem_cons.mp fits
      have wroteName := write_string_ok short
      obtain ⟨partitions, wrotePartitions, between⟩ := encode_partitions_built topic.partitions isFirst
        ((built.wrote _).wrote (writeInt32 topic.partitions.length))
      obtain ⟨parts, ends, wroteRest, folded, done⟩ := ih shortRest isRest between
      have wroteTopic : writeTopic writeFetched (TopicOf.over FetchedPartition.received topic) =
          .ok (writeInt16 topic.name.length ++ topic.name ++
            (writeInt32 topic.partitions.length ++ partitions.flatten)) := by
        simp only [writeTopic, writeArray, TopicOf.over, wroteName, wrotePartitions, except_ok_bind,
          List.length_map]
        rfl
      refine ⟨(writeInt16 topic.name.length ++ topic.name ++
        (writeInt32 topic.partitions.length ++ partitions.flatten)) :: parts, ends, ?_, ?_, ?_⟩
      · simp only [List.map_cons, List.mapM_cons, wroteTopic, wroteRest, except_ok_bind]
        rfl
      · rw [List.foldlM_cons]
        simp only [encodeFetchedTopic, wroteName, except_ok_bind]
        exact folded
      · simpa only [List.flatten_cons, List.append_assoc] using done

theorem appended_whole (earlier : Bytes) :
    (({} : Response).append earlier).sent = earlier ∧ (({} : Response).append earlier).totalBytes = earlier.length := by
  rw [sent_append, total_bytes_append]
  exact ⟨rfl, Nat.zero_add _⟩

theorem encode_fetch_response_written (earlier : Bytes) (names : ∀ topic ∈ topics, topic.name.length < 2 ^ 15)
    (fits : ∀ topic ∈ topics, ∀ fetched ∈ topic.partitions, fetched.Fits) :
    ∃ parts response, writeFetchResponse (topics.map (TopicOf.over FetchedPartition.received)) =
        .ok (writeInt32 topics.length ++ parts) ∧
      encodeFetchResponse (({} : Response).append earlier) topics = .ok response ∧
      response.materialise = .ok (earlier ++ (writeInt32 topics.length ++ parts)) ∧
      response.totalBytes = (earlier ++ (writeInt32 topics.length ++ parts)).length := by
  obtain ⟨isEarlier, length⟩ := appended_whole earlier
  have started : Built (({} : Response).append earlier, writeInt32 topics.length)
      (earlier ++ writeInt32 topics.length) :=
    ⟨by rw [isEarlier], by rw [length, List.length_append]⟩
  obtain ⟨parts, ⟨last, buffer⟩, wrote, folded, built⟩ := encode_topics_built topics names fits started
  obtain ⟨sent, counted⟩ := built.done
  have whole := pieces_whole (last.append buffer).segments (by
    rw [← Response.sent, ← Response.totalBytes, sent, counted])
  rw [List.append_assoc] at sent counted
  refine ⟨parts.flatten, last.append buffer, ?_, ?_, ?_, counted⟩
  · simp only [writeFetchResponse, writeTopics, writeArray, wrote, except_ok_bind, List.length_map]
    rfl
  · simp only [encodeFetchResponse, folded, except_ok_bind]
    rfl
  · rw [materialise_whole whole, sent]

theorem received_fit (fits : TopicsFit FetchedPartition.Fits topics) :
    TopicsFit ReceivedFetch.Fits (topics.map (TopicOf.over FetchedPartition.received)) := by
  constructor
  · have countable := fits.countable
    simpa only [CountFits, List.length_map] using countable
  · intro topic member
    obtain ⟨original, isOriginal, rfl⟩ := List.mem_map.mp member
    exact fits.names original isOriginal
  · intro topic member
    obtain ⟨original, isOriginal, rfl⟩ := List.mem_map.mp member
    obtain ⟨countable, all⟩ := fits.partitions original isOriginal
    refine ⟨by simpa only [CountFits, TopicOf.over, List.length_map] using countable, ?_⟩
    intro received inside
    obtain ⟨fetched, isFetched, rfl⟩ := List.mem_map.mp inside
    exact (all fetched isFetched).received

/-- Flattened, the response to a fetch is as long as it says, and a client reads from it what
was answered for each partition, with the bytes of that partition's own range. -/
theorem fetch_response_read_back (earlier : Bytes) (fits : TopicsFit FetchedPartition.Fits topics) :
    ∃ response flat, encodeFetchResponse (({} : Response).append earlier) topics = .ok response ∧
      response.materialise = .ok flat ∧ flat.length = response.totalBytes ∧ earlier <+: flat ∧
      decodeFetchResponse ⟨earlier.length, flat.drop earlier.length⟩ =
        .ok (topics.map (TopicOf.over FetchedPartition.received), ⟨flat.length, []⟩) ∧
      ∀ topic ∈ topics, ∀ fetched ∈ topic.partitions,
        fetched.received.records = [] ↔ fetched.answer.records.length = 0 := by
  obtain ⟨parts, response, wrote, encoded, flat, counted⟩ := encode_fetch_response_written earlier fits.names
    fun topic member => (fits.partitions topic member).2
  obtain ⟨written, wroteAgain, back, _⟩ := RoundTrips.reads_back (read_topics_reads fetched_reads)
    (topics_round_trip (received_fit fits) fun _ => fetched_round_trips)
  have same : writeInt32 topics.length ++ parts = written := Except.ok.inj (wrote.symm.trans wroteAgain)
  rw [same] at flat counted
  refine ⟨response, earlier ++ written, encoded, flat, counted.symm, List.prefix_append earlier written, ?_, ?_⟩
  · have decoded := back earlier.length []
    rw [List.append_nil] at decoded
    rw [List.drop_left, List.length_append]
    exact decoded
  · intro topic member fetched inside
    have length := ((fits.partitions topic member).2 fetched inside).records_length
    rw [← length, List.length_eq_zero_iff]
    rfl

/-- Records, then an empty answer, then records of the same file, behind a correlation id. -/
theorem fetch_response_read_back_mixed :
    let file := FileHandle.ofContents 3 "t-0/0.log" [1, 2, 3, 4, 5]
    ∃ response flat,
      encodeFetchResponse (({} : Response).append [0, 0, 0, 7])
        [⟨[116], [⟨⟨0, .none, 5, 0, ⟨3, 1, 2⟩⟩, file⟩, ⟨⟨1, .offsetOutOfRange, 0, 0, {}⟩, file⟩,
          ⟨⟨2, .none, 5, 0, ⟨3, 4, 1⟩⟩, file⟩]⟩] = .ok response ∧
      response.materialise = .ok flat ∧ flat.length = response.totalBytes ∧
      decodeFetchResponse ⟨4, flat.drop 4⟩ =
        .ok ([⟨[116], [⟨0, 0, 5, 0, [2, 3]⟩, ⟨1, 2, 0, 0, []⟩, ⟨2, 0, 5, 0, [5]⟩]⟩], ⟨flat.length, []⟩) := by
  intro file
  obtain ⟨response, flat, encoded, flattened, length, _, decoded, _⟩ := @fetch_response_read_back
    [⟨[116], [⟨⟨0, .none, 5, 0, ⟨3, 1, 2⟩⟩, file⟩, ⟨⟨1, .offsetOutOfRange, 0, 0, {}⟩, file⟩,
      ⟨⟨2, .none, 5, 0, ⟨3, 4, 1⟩⟩, file⟩]⟩] [0, 0, 0, 7] (by
        constructor
        · decide
        · simp
        · simp only [List.forall_mem_cons, List.not_mem_nil, false_implies, implies_true, and_true]
          refine ⟨by decide, ?_, ?_, ?_⟩
          all_goals constructor
          all_goals decide)
  exact ⟨response, flat, encoded, flattened, length, decoded⟩

theorem uncountable_topics_refused {count : Nat} (many : 2 ^ 31 ≤ count) (below : count < 2 ^ 32 - 1) :
    ∃ response flat, encodeFetchResponse {} (List.replicate count ⟨[], []⟩) = .ok response ∧
      response.materialise = .ok flat ∧ ∃ what, decodeFetchResponse ⟨0, flat⟩ = .error (.corruptData what) := by
  obtain ⟨parts, response, _, encoded, flat, _⟩ := @encode_fetch_response_written
    (List.replicate count ⟨[], []⟩) [] (by
      intro topic member
      rw [List.eq_of_mem_replicate member]
      decide) (by
      intro topic member fetched inside
      rw [List.eq_of_mem_replicate member] at inside
      cases inside)
  refine ⟨response, _, encoded, flat, ?_⟩
  rw [List.nil_append, List.length_replicate]
  obtain ⟨what, refused⟩ := read_element_count_uncountable many below 0 parts "topic"
  refine ⟨what, ?_⟩
  simp only [decodeFetchResponse, readTopics, readArray, refused]
  rfl

/-- More topics than 32 bits can count are not read back. -/
theorem crowded_response_refused :
    ∃ response flat, encodeFetchResponse {} (List.replicate (2 ^ 31) ⟨[], []⟩) = .ok response ∧
      response.materialise = .ok flat ∧ ∃ what, decodeFetchResponse ⟨0, flat⟩ = .error (.corruptData what) :=
  uncountable_topics_refused le_rfl (by norm_num)

end Encoding

end DariyaKyu.Server

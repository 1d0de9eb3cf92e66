import DariyaKyu.Server.Requests

/-!
Where in a frame the batches of a Produce request lie. The reader of a request
starts at the front of the frame, header included, so its position is a place in
the frame; the batches are read one behind the other and never overlap.
-/

namespace DariyaKyu.Server

set_option autoImplicit false

open Protocol BufferReader

def window (frame : Bytes) (start length : Nat) : Bytes := (frame.drop start).take length

theorem window_getElem? (frame : Bytes) {start length place : Nat} (inside : place < length) :
    (window frame start length)[place]? = frame[start + place]? := by
  rw [window, List.getElem?_take_of_lt inside, List.getElem?_drop]

theorem window_congr {first second : Bytes} {start length : Nat}
    (agree : ∀ place, start ≤ place → place < start + length → first[place]? = second[place]?) :
    window first start length = window second start length := by
  apply List.ext_getElem?
  intro place
  by_cases inside : place < length
  · rw [window_getElem? first inside, window_getElem? second inside]
    exact agree _ (by omega) (by omega)
  · simp only [window]
    rw [List.getElem?_take_eq_none (by omega), List.getElem?_take_eq_none (by omega)]

section Reading

variable {frame : Bytes} {input after : BufferReader}

/-- The reader stands in this frame: what it has not read is what comes there. -/
structure StandsIn (frame : Bytes) (input : BufferReader) : Prop where
  rest : input.rest = frame.drop input.position
  within : input.position ≤ frame.length

theorem stands_at_front (frame : Bytes) : StandsIn frame (.ofBytes frame) := ⟨rfl, Nat.zero_le _⟩

theorem read_bytes_stands {count : Nat} {bytes : Bytes} (stands : StandsIn frame input)
    (read : input.readBytes count = .ok (bytes, after)) :
    StandsIn frame after ∧ after.position = input.position + count ∧
      bytes = window frame input.position count := by
  obtain ⟨split, length, position⟩ := read_bytes_ok read
  have total := congrArg List.length split
  rw [stands.rest, List.length_drop, List.length_append, length] at total
  have within := stands.within
  refine ⟨⟨?_, by omega⟩, position, ?_⟩
  · rw [position, ← List.drop_drop, ← stands.rest, split, List.drop_left' length]
  · rw [window, ← stands.rest, split, List.take_left' length]

def GoesOn {α : Type} (frame : Bytes) (read : BufferReader → Except Error (α × BufferReader)) : Prop :=
  ∀ input value after, StandsIn frame input → read input = .ok (value, after) →
    StandsIn frame after ∧ input.position ≤ after.position

theorem read_int_goes_on (bits : Nat) : GoesOn frame (readInt bits) := by
  intro input value after stands read
  obtain ⟨⟨raw, middle⟩, isRaw, made⟩ := except_bind_ok read
  obtain ⟨⟨bytes, left⟩, taken, isNumber⟩ := except_bind_ok isRaw
  obtain ⟨standing, position, _⟩ := read_bytes_stands stands taken
  cases isNumber
  cases made
  exact ⟨standing, by omega⟩

theorem read_string_goes_on : GoesOn frame readString := by
  intro input value after stands read
  obtain ⟨⟨length, middle⟩, isLength, read⟩ := except_bind_ok read
  obtain ⟨standing, forward⟩ := read_int_goes_on 16 _ _ _ stands isLength
  simp only at read
  split at read
  · split at read
    · cases read
    · cases read
      exact ⟨standing, forward⟩
  · obtain ⟨standing, position, _⟩ := read_bytes_stands standing read
    exact ⟨standing, by omega⟩

theorem read_element_count_goes_on (what : String) : GoesOn frame (readElementCount · what) := by
  intro input value after stands read
  obtain ⟨⟨count, middle⟩, isCount, read⟩ := except_bind_ok read
  obtain ⟨⟨length, inner⟩, isLength, ranged⟩ := except_bind_ok isCount
  obtain ⟨standing, forward⟩ := read_int_goes_on 32 _ _ _ stands isLength
  simp only at ranged read
  split at ranged
  · cases ranged
  · cases ranged
    split at read
    · cases read
      exact ⟨standing, forward⟩
    · split at read
      · cases read
      · cases read
        exact ⟨standing, forward⟩

/-- Read one behind the other, each from where the last one ended. -/
def Along {α : Type} (reads : Nat → α → Nat → Prop) : Nat → List α → Nat → Prop
  | start, [], stop => start = stop
  | start, value :: rest, stop => ∃ middle, reads start value middle ∧ Along reads middle rest stop

theorem read_many_along {α : Type} {read : BufferReader → Except Error (α × BufferReader)}
    {reads : Nat → α → Nat → Prop}
    (each : ∀ input value after, StandsIn frame input → read input = .ok (value, after) →
      StandsIn frame after ∧ reads input.position value after.position)
    {count : Nat} {values : List α} (stands : StandsIn frame input)
    (done : readMany read count input = .ok (values, after)) :
    StandsIn frame after ∧ Along reads input.position values after.position := by
  induction count generalizing input values with
  | zero =>
      cases done
      exact ⟨stands, rfl⟩
  | succ count ih =>
      obtain ⟨⟨first, middle⟩, isFirst, done⟩ := except_bind_ok done
      obtain ⟨⟨rest, last⟩, isRest, done⟩ := except_bind_ok done
      cases done
      obtain ⟨standing, reading⟩ := each _ _ _ stands isFirst
      obtain ⟨ends, along⟩ := ih standing isRest
      exact ⟨ends, _, reading, along⟩

theorem read_array_along {α : Type} {read : BufferReader → Except Error (α × BufferReader)}
    {reads : Nat → α → Nat → Prop}
    (each : ∀ input value after, StandsIn frame input → read input = .ok (value, after) →
      StandsIn frame after ∧ reads input.position value after.position)
    {what : String} {values : List α} (stands : StandsIn frame input)
    (done : readArray read what input = .ok (values, after)) :
    StandsIn frame after ∧ ∃ start, input.position ≤ start ∧
      Along reads start values after.position := by
  obtain ⟨⟨count, middle⟩, isCount, done⟩ := except_bind_ok done
  obtain ⟨standing, forward⟩ := read_element_count_goes_on what _ _ _ stands isCount
  obtain ⟨ends, along⟩ := read_many_along each standing done
  exact ⟨ends, _, forward, along⟩

end Reading

/-- Entries between two places of a frame: each holds the bytes where it says
they are, and they lie one behind the other. -/
structure Laid (frame : Bytes) (start : Nat) (entries : List ProduceAsked) (stop : Nat) : Prop where
  ordered : start ≤ stop
  lower : ∀ asked ∈ entries, start ≤ asked.batchOffsetInBody
  upper : ∀ asked ∈ entries, asked.batchOffsetInBody + asked.batch.length ≤ stop
  holds : ∀ asked ∈ entries, window frame asked.batchOffsetInBody asked.batch.length = asked.batch
  separate : entries.Pairwise fun earlier later =>
    earlier.batchOffsetInBody + earlier.batch.length ≤ later.batchOffsetInBody

section Laying

variable {frame : Bytes} {start middle stop : Nat}

theorem laid_nil (ordered : start ≤ stop) : Laid frame start [] stop :=
  ⟨ordered, by simp, by simp, by simp, .nil⟩

theorem Laid.append {first second : List ProduceAsked} (front : Laid frame start first middle)
    (back : Laid frame middle second stop) : Laid frame start (first ++ second) stop where
  ordered := front.ordered.trans back.ordered
  lower := by
    intro asked member
    rcases List.mem_append.mp member with inFirst | inSecond
    · exact front.lower asked inFirst
    · exact front.ordered.trans (back.lower asked inSecond)
  upper := by
    intro asked member
    rcases List.mem_append.mp member with inFirst | inSecond
    · exact (front.upper asked inFirst).trans back.ordered
    · exact back.upper asked inSecond
  holds := by
    intro asked member
    rcases List.mem_append.mp member with inFirst | inSecond
    · exact front.holds asked inFirst
    · exact back.holds asked inSecond
  separate := by
    apply List.pairwise_append.mpr
    refine ⟨front.separate, back.separate, ?_⟩
    intro earlier inFirst later inSecond
    exact (front.upper earlier inFirst).trans (back.lower later inSecond)

theorem Laid.widen {entries : List ProduceAsked} (laid : Laid frame middle entries stop)
    (wider : start ≤ middle) :
    Laid frame start entries stop :=
  { laid with
    ordered := wider.trans laid.ordered
    lower := fun asked member => wider.trans (laid.lower asked member) }

theorem laid_along {α : Type} (entriesOf : α → List ProduceAsked) {values : List α}
    (along : Along (fun start value stop =>
        Laid frame start (entriesOf value) stop) start values stop) :
    Laid frame start (values.flatMap entriesOf) stop := by
  induction values generalizing start with
  | nil => exact laid_nil along.le
  | cons value rest ih =>
      obtain ⟨middle, first, later⟩ := along
      rw [List.flatMap_cons]
      exact first.append (ih later)

variable {input after : BufferReader}

theorem read_produce_asked_laid {asked : ProduceAsked} (stands : StandsIn frame input)
    (read : readProduceAsked input = .ok (asked, after)) :
    StandsIn frame after ∧ Laid frame input.position [asked] after.position := by
  obtain ⟨⟨partition, first⟩, isPartition, read⟩ := except_bind_ok read
  obtain ⟨⟨length, second⟩, isLength, read⟩ := except_bind_ok read
  obtain ⟨standing, forward⟩ := read_int_goes_on 32 _ _ _ stands isPartition
  obtain ⟨standing, further⟩ := read_int_goes_on 32 _ _ _ standing isLength
  simp only at read
  split at read
  · cases read
  obtain ⟨⟨batch, last⟩, isBatch, made⟩ := except_bind_ok read
  obtain ⟨ends, position, bytes⟩ := read_bytes_stands standing isBatch
  obtain ⟨_, size, _⟩ := read_bytes_ok isBatch
  cases made
  refine ⟨ends, ?_, ?_, ?_, ?_, List.pairwise_singleton _ _⟩
  · simp only
    omega
  · simp only [List.mem_singleton, forall_eq]
    exact forward.trans further
  · simp only [List.mem_singleton, forall_eq]
    omega
  · simp only [List.mem_singleton, forall_eq]
    rw [size, bytes]

theorem read_topic_laid {topic : TopicOf ProduceAsked} (stands : StandsIn frame input)
    (read : readTopic readProduceAsked input = .ok (topic, after)) :
    StandsIn frame after ∧ Laid frame input.position topic.partitions after.position := by
  obtain ⟨⟨name, middle⟩, isName, read⟩ := except_bind_ok read
  obtain ⟨⟨partitions, last⟩, arePartitions, made⟩ := except_bind_ok read
  obtain ⟨standing, forward⟩ := read_string_goes_on _ _ _ stands isName
  obtain ⟨ends, start, further, along⟩ := @read_array_along frame _ _ _ _
    (fun start asked stop => Laid frame start [asked] stop)
    (fun _ _ _ => read_produce_asked_laid) _ _ standing arePartitions
  cases made
  have laid := laid_along (fun asked => [asked]) along
  rw [List.flatMap_singleton'] at laid
  exact ⟨ends, laid.widen (forward.trans further)⟩

theorem decode_produce_laid {request : ProduceRequest} (stands : StandsIn frame input)
    (decoded : decodeProduceRequest input = .ok (request, after)) :
    Laid frame input.position (request.topics.flatMap (·.partitions)) frame.length := by
  obtain ⟨⟨acks, first⟩, isAcks, decoded⟩ := except_bind_ok decoded
  obtain ⟨⟨timeoutMs, second⟩, isTimeout, decoded⟩ := except_bind_ok decoded
  obtain ⟨⟨topics, last⟩, areTopics, made⟩ := except_bind_ok decoded
  obtain ⟨standing, forward⟩ := read_int_goes_on 16 _ _ _ stands isAcks
  obtain ⟨standing, further⟩ := read_int_goes_on 32 _ _ _ standing isTimeout
  obtain ⟨ends, start, behind, along⟩ := @read_array_along frame _ _ _ _
    (fun start topic stop => Laid frame start topic.partitions stop)
    (fun _ _ _ => read_topic_laid) _ _ standing areTopics
  cases made
  have laid := (laid_along _ along).widen ((forward.trans further).trans behind)
  have whole := laid.append (@laid_nil frame _ _ ends.within)
  rwa [List.append_nil] at whole

theorem decode_header_stands {header : RequestHeader} {body : BufferReader}
    (decoded : decodeRequestHeader (.ofBytes frame) = .ok (header, body)) : StandsIn frame body := by
  obtain ⟨⟨apiKey, first⟩, isKey, decoded⟩ := except_bind_ok decoded
  obtain ⟨⟨apiVersion, second⟩, isVersion, decoded⟩ := except_bind_ok decoded
  obtain ⟨⟨correlationId, third⟩, isCorrelation, decoded⟩ := except_bind_ok decoded
  obtain ⟨⟨length, fourth⟩, isLength, decoded⟩ := except_bind_ok decoded
  obtain ⟨standing, _⟩ := read_int_goes_on 16 _ _ _ (stands_at_front frame) isKey
  obtain ⟨standing, _⟩ := read_int_goes_on 16 _ _ _ standing isVersion
  obtain ⟨standing, _⟩ := read_int_goes_on 32 _ _ _ standing isCorrelation
  obtain ⟨standing, _⟩ := read_int_goes_on 16 _ _ _ standing isLength
  simp only at decoded
  split at decoded
  · split at decoded
    · cases decoded
    · cases decoded
      exact standing
  · obtain ⟨⟨clientId, last⟩, isClient, made⟩ := except_bind_ok decoded
    cases made
    exact (read_bytes_stands standing isClient).1

end Laying

end DariyaKyu.Server

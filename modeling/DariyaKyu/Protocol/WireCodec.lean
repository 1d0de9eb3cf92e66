import DariyaKyu.Library.PrefixCodec
import DariyaKyu.Protocol.Wire

/-!
What the readers of `common/buffer.cpp` and `protocol/wire.cpp` make of what
their writers wrote. Every reader looks at nothing behind what it takes and
throws nothing but `CorruptData`; a value that its fields can hold is written,
and read back wherever it stands.
-/

namespace DariyaKyu

set_option autoImplicit false

open PrefixCodec

instance : Reader BufferReader UInt8 where
  place input := input.position
  unread input := input.rest
  more input bytes := ⟨input.position, input.rest ++ bytes⟩
  unread_more _ _ := rfl

def IsCorrupt (failure : Error) : Prop := ∃ what, failure = .corruptData what

theorem corrupt_data (what : String) : IsCorrupt (.corruptData what) := ⟨what, rfl⟩

/-- A value is written, as at least one byte, and read back from there. -/
def RoundTrips {α : Type} (read : BufferReader → Except Error (α × BufferReader))
    (write : α → Except Error Bytes) (value : α) : Prop :=
  ∃ written, write value = .ok written ∧ written ≠ [] ∧ Writes read value written

theorem RoundTrips.reads_back {α : Type} {read : BufferReader → Except Error (α × BufferReader)}
    {write : α → Except Error Bytes} {value : α} (reads : Reads IsCorrupt read)
    (trips : RoundTrips read write value) :
    ∃ written, write value = .ok written ∧
      (∀ position rest, read ⟨position, written ++ rest⟩ =
        .ok (value, ⟨position + written.length, rest⟩)) ∧
      ∀ front tail, written = front ++ tail → tail ≠ [] →
        ∀ position, ∃ what, read ⟨position, front⟩ = .error (.corruptData what) := by
  obtain ⟨written, wrote, _, writes⟩ := trips
  refine ⟨written, wrote, ?_, ?_⟩
  · intro position rest
    obtain ⟨after, decoded, isRest, isPlace⟩ := @Writes.consumes _ _ _ _ _ _ _ _ _ reads writes
      ⟨position, written ++ rest⟩ rest rfl
    have moved : after = ⟨position + written.length, rest⟩ := BufferReader.mk.injEq .. ▸ ⟨isPlace, isRest⟩
    rw [decoded, moved]
  · intro front tail isCut lacks position
    obtain ⟨_, refused, what, rfl⟩ := @cut_refused _ _ _ _ _ _ _ _ _ reads writes _ _ isCut lacks
      ⟨position, front⟩ rfl
    exact ⟨what, refused⟩

/-- Bytes that are taken as they are: a part of them is refused, and so are they
with more behind them. -/
structure TakenExactly {α : Type} (decode : Bytes → Except Error α) (bytes : Bytes) : Prop where
  cut : ∀ front tail, bytes = front ++ tail → tail ≠ [] → ∃ what, decode front = .error (.corruptData what)
  extended : ∀ tail, tail ≠ [] → ∃ what, decode (bytes ++ tail) = .error (.corruptData what)

/-- What fills a file, a record's key or a record's value and is accepted. -/
theorem accepted_taken_exactly {α : Type} {read : BufferReader → Except Error (α × BufferReader)} {value : α}
    {trailing : BufferReader → Error} (isBad : ∀ after, IsCorrupt (trailing after)) (reads : Reads IsCorrupt read)
    {bytes : Bytes} (accepted : whole read trailing (.ofBytes bytes) = .ok value) :
    TakenExactly (fun bytes => whole read trailing (.ofBytes bytes)) bytes := by
  constructor
  · rintro front tail rfl lacks
    obtain ⟨_, refused, what, rfl⟩ := @whole_short_refused _ _ _ _ _ read trailing _ (.ofBytes front) value
      reads tail accepted lacks
    exact ⟨what, refused⟩
  · intro tail goesOn
    obtain ⟨_, refused, what, rfl⟩ := whole_long_refused reads isBad accepted goesOn
    exact ⟨what, refused⟩

theorem RoundTrips.whole {α : Type} {read : BufferReader → Except Error (α × BufferReader)}
    {write : α → Except Error Bytes} {value : α} (trailing : BufferReader → Error)
    (trips : RoundTrips read write value) :
    ∃ bytes, write value = .ok bytes ∧ whole read trailing (.ofBytes bytes) = .ok value := by
  obtain ⟨written, wrote, _, writes⟩ := trips
  exact ⟨written, wrote, whole_reads_back writes rfl⟩

section Written

theorem be_nat_injective {bytes other : Bytes} (length : bytes.length = other.length)
    (same : beNat bytes = beNat other) : bytes = other := by
  induction bytes generalizing other with
  | nil => exact (List.length_eq_zero_iff.mp length.symm).symm
  | cons byte rest ih =>
      cases other with
      | nil => cases length
      | cons head tail =>
          have restLength : rest.length = tail.length := Nat.succ.inj length
          have restBound := be_nat_lt rest
          have tailBound := be_nat_lt tail
          rw [be_nat_cons, be_nat_cons, restLength] at same
          rw [restLength] at restBound
          have heads : byte.toNat = head.toNat := by
            have quotients := congrArg (· / 256 ^ tail.length) same
            have positive : 0 < 256 ^ tail.length := by positivity
            simpa only [Nat.mul_comm _ (256 ^ tail.length), Nat.mul_add_div positive,
              Nat.div_eq_of_lt restBound, Nat.div_eq_of_lt tailBound, Nat.add_zero] using quotients
          have tails : beNat rest = beNat tail := by
            rw [heads] at same
            exact Nat.add_left_cancel same
          rw [UInt8.toNat_inj.mp heads, ih restLength tails]

theorem be_bytes_be_nat (bytes : Bytes) : beBytes bytes.length (beNat bytes) = bytes := by
  apply be_nat_injective (be_bytes_length _ _)
  rw [be_nat_be_bytes]
  exact Nat.mod_eq_of_lt (be_nat_lt bytes)

theorem as_unsigned_as_signed {bits raw : Nat} (bound : raw < 2 ^ bits) :
    asUnsigned bits (asSigned bits raw) = raw := by
  have power : ((2 ^ bits : Nat) : Int) = 2 ^ bits := by push_cast; rfl
  unfold asUnsigned asSigned
  split
  · rw [Int.emod_eq_of_lt (by omega) (by omega)]
    omega
  · rw [← power, Int.sub_emod_right, Int.emod_eq_of_lt (by omega) (by omega)]
    omega

end Written

namespace BufferReader

theorem read_uint_taken {bits raw : Nat} (whole : 8 ∣ bits) {input after : BufferReader}
    (read : readUint bits input = .ok (raw, after)) :
    raw < 2 ^ bits ∧ input.rest = beBytes (bits / 8) raw ++ after.rest := by
  obtain ⟨⟨bytes, behind⟩, taken, isNumber⟩ := except_bind_ok read
  obtain ⟨split, length, _⟩ := read_bytes_ok taken
  cases isNumber
  have power : 256 ^ (bits / 8) = 2 ^ bits := by
    rw [show (256 : Nat) = 2 ^ 8 by norm_num, ← pow_mul, Nat.mul_div_cancel' whole]
  constructor
  · rw [← power, ← length]
    exact be_nat_lt bytes
  · rw [split, ← length, be_bytes_be_nat]

theorem read_int_taken {bits : Nat} (whole : 8 ∣ bits) {input after : BufferReader} {value : Int}
    (read : readInt bits input = .ok (value, after)) : input.rest = writeInt bits value ++ after.rest := by
  obtain ⟨⟨raw, between⟩, isRaw, made⟩ := except_bind_ok read
  obtain ⟨bound, front⟩ := read_uint_taken whole isRaw
  cases made
  rw [writeInt, as_unsigned_as_signed bound]
  exact front

theorem read_int_fits {bits : Nat} (whole : 8 ∣ bits) (positive : 0 < bits) {input after : BufferReader} {value : Int}
    (read : readInt bits input = .ok (value, after)) : FitsSigned bits value := by
  obtain ⟨⟨raw, between⟩, isRaw, made⟩ := except_bind_ok read
  cases made
  exact as_signed_fits bits raw positive (read_uint_taken whole isRaw).1

theorem read_bytes_reads (count : Nat) : Reads IsCorrupt fun input : BufferReader => input.readBytes count := by
  constructor
  · intro input value after taken
    obtain ⟨split, length, position⟩ := read_bytes_ok taken
    exact ⟨value, split, length ▸ position⟩
  · intro input value after taken items
    obtain ⟨split, length, position⟩ := read_bytes_ok taken
    have same : (⟨input.position, input.rest ++ items⟩ : BufferReader) =
        ⟨input.position, value ++ (after.rest ++ items)⟩ := by
      rw [split, List.append_assoc]
    simp only [Reader.more]
    rw [same, ← length, read_bytes_append, length, ← position]
  · intro input failure refused
    rcases except_bind_error refused with short | ⟨_, _, refused⟩
    · unfold require at short
      split at short
      · cases short
        exact corrupt_data _
      · cases short
    · cases refused

theorem read_uint_reads (bits : Nat) : Reads IsCorrupt (readUint bits) := by
  apply Reads.bind (read_bytes_reads _)
  intro bytes
  exact Reads.ok _

theorem read_int_reads (bits : Nat) : Reads IsCorrupt (readInt bits) := by
  apply Reads.bind (read_uint_reads _)
  intro raw
  exact Reads.ok _

theorem read_bytes_writes (bytes : Bytes) : Writes (fun input : BufferReader => input.readBytes bytes.length) bytes bytes := by
  rintro ⟨position, unread⟩ rest rfl
  exact ⟨_, read_bytes_append position bytes rest, rfl⟩

theorem read_int_writes (bits : Nat) (whole : 8 ∣ bits) (positive : 0 < bits) {value : Int}
    (fits : FitsSigned bits value) : Writes (readInt bits) value (writeInt bits value) := by
  rintro ⟨position, unread⟩ rest rfl
  exact ⟨_, read_int_write_int bits position whole positive value fits rest, rfl⟩

theorem read_int8_writes {value : Int} (fits : FitsSigned 8 value) :
    Writes readInt8 value (writeInt8 value) :=
  read_int_writes 8 (by decide) (by decide) fits

theorem read_int16_writes {value : Int} (fits : FitsSigned 16 value) :
    Writes readInt16 value (writeInt16 value) :=
  read_int_writes 16 (by decide) (by decide) fits

theorem read_int32_writes {value : Int} (fits : FitsSigned 32 value) :
    Writes readInt32 value (writeInt32 value) :=
  read_int_writes 32 (by decide) (by decide) fits

theorem read_int64_writes {value : Int} (fits : FitsSigned 64 value) :
    Writes readInt64 value (writeInt64 value) :=
  read_int_writes 64 (by decide) (by decide) fits

theorem read_array_length_reads : Reads IsCorrupt readArrayLength := by
  constructor
  · intro input value after decoded
    obtain ⟨⟨length, behind⟩, isLength, decoded⟩ := except_bind_ok decoded
    simp only at decoded
    split at decoded
    · cases decoded
    · cases decoded
      exact (read_int_reads 32).takes isLength
  · intro input value after decoded items
    obtain ⟨⟨length, behind⟩, isLength, decoded⟩ := except_bind_ok decoded
    rw [readArrayLength, readInt32, (read_int_reads 32).steady isLength items]
    simp only at decoded
    split at decoded
    · cases decoded
    · next known =>
      cases decoded
      simp only [except_ok_bind, if_neg known]
  · intro input failure refused
    rcases except_bind_error refused with first | ⟨⟨length, behind⟩, _, refused⟩
    · exact (read_int_reads 32).refuses first
    · simp only at refused
      split at refused
      · cases refused
        exact corrupt_data _
      · cases refused

end BufferReader

namespace Protocol

open BufferReader

theorem read_string_reads : Reads IsCorrupt readString := by
  apply Reads.bind (read_int_reads 16)
  intro length
  apply Reads.ite
  · apply Reads.ite
    · exact Reads.fail (corrupt_data _)
    · exact Reads.ok _
  · exact read_bytes_reads _

theorem read_element_count_reads (what : String) : Reads IsCorrupt (readElementCount · what) := by
  apply Reads.bind read_array_length_reads
  intro count
  simp only
  apply Reads.ite
  · exact Reads.ok _
  · constructor
    · intro input value after decoded
      split at decoded
      · cases decoded
      · cases decoded
        exact ⟨[], rfl, rfl⟩
    · intro input value after decoded items
      split at decoded
      · cases decoded
      · next enough =>
        cases decoded
        have still : ¬ ((Reader.more input items : BufferReader).remaining : Int) < count.toNat := by
          simp only [remaining, Reader.more, List.length_append] at enough ⊢
          omega
        rw [if_neg (by omega)]
    · intro input failure refused
      split at refused
      · cases refused
        exact corrupt_data _
      · cases refused

theorem read_string_taken {input after : BufferReader} {value : Bytes}
    (read : readString input = .ok (value, after)) :
    ∃ written, input.rest = written ++ after.rest ∧
      (writeString value = .ok written ∨ value = [] ∧ written = writeInt16 kNullStringLength) := by
  have short := read_string_short read
  obtain ⟨⟨length, behind⟩, isLength, read⟩ := except_bind_ok read
  have front := read_int_taken ⟨2, rfl⟩ isLength
  simp only at read
  split at read
  · split at read
    · cases read
    · next isNull =>
      cases read
      refine ⟨_, front, .inr ⟨rfl, ?_⟩⟩
      rw [not_not.mp isNull]
      rfl
  · next known =>
    obtain ⟨split, isLong, _⟩ := read_bytes_ok read
    refine ⟨writeInt16 length ++ value, by rw [front, split, List.append_assoc]; rfl, .inl ?_⟩
    rw [write_string_ok short, isLong, Int.toNat_of_nonneg (not_lt.mp known)]

theorem read_element_count_uncountable {count : Nat} (many : 2 ^ 31 ≤ count) (below : count < 2 ^ 32 - 1)
    (position : Nat) (rest : Bytes) (what : String) :
    ∃ text, readElementCount ⟨position, writeInt32 count ++ rest⟩ what = .error (.corruptData text) := by
  have negative : asSigned 32 (asUnsigned 32 (count : Int)) < -1 := by
    unfold asSigned asUnsigned
    split <;> omega
  simp only [readElementCount, readArrayLength, readInt32, writeInt32]
  rw [read_int_written 32 _ ⟨4, rfl⟩]
  simp only [except_ok_bind, if_pos negative]
  exact ⟨_, rfl⟩

section Arrays

variable {α : Type} {read : BufferReader → Except Error (α × BufferReader)} {write : α → Except Error Bytes}

theorem read_many_reads (reads : Reads IsCorrupt read) (count : Nat) :
    Reads IsCorrupt (readMany read count) := by
  induction count with
  | zero => exact Reads.ok _
  | succ count ih =>
      apply Reads.bind reads
      intro value
      apply Reads.bind ih
      intro values
      exact Reads.ok _

theorem read_array_reads (reads : Reads IsCorrupt read) (what : String) :
    Reads IsCorrupt (readArray read what) := by
  apply Reads.bind (read_element_count_reads what)
  intro count
  exact read_many_reads reads count

theorem read_strings_reads (what : String) : Reads IsCorrupt (readStrings · what) :=
  read_array_reads read_string_reads what

theorem read_topic_reads (reads : Reads IsCorrupt read) : Reads IsCorrupt (readTopic read) := by
  apply Reads.bind read_string_reads
  intro name
  apply Reads.bind (read_array_reads reads _)
  intro partitions
  exact Reads.ok _

theorem read_topics_reads (reads : Reads IsCorrupt read) : Reads IsCorrupt (readTopics read) :=
  read_array_reads (read_topic_reads reads) _

theorem read_sized_reads (what : String) : Reads IsCorrupt (readBytes · what) := by
  apply Reads.bind (read_int_reads 32)
  intro length
  apply Reads.ite
  · exact Reads.fail (corrupt_data _)
  · exact read_bytes_reads _

end Arrays

section Seen

variable {α γ : Type} {look : α → γ} {read : BufferReader → Except Error (α × BufferReader)}

def TopicOf.over (look : α → γ) (topic : TopicOf α) : TopicOf γ := ⟨topic.name, topic.partitions.map look⟩

theorem read_many_seen (count : Nat) : readMany (seen look read) count = seen (List.map look) (readMany read count) := by
  induction count with
  | zero => rfl
  | succ count ih =>
      funext input
      simp only [readMany, ih, seen]
      cases read input with
      | error failure => rfl
      | ok given =>
          simp only [except_ok_bind]
          cases readMany read count given.2 with
          | error failure => rfl
          | ok rest => rfl

theorem read_array_seen (what : String) : readArray (seen look read) what = seen (List.map look) (readArray read what) := by
  funext input
  simp only [readArray, read_many_seen, seen]
  cases readElementCount input what with
  | error failure => rfl
  | ok counted => rfl

theorem read_topic_seen : readTopic (seen look read) = seen (TopicOf.over look) (readTopic read) := by
  funext input
  simp only [readTopic, read_array_seen, seen]
  cases readString input with
  | error failure => rfl
  | ok name =>
      simp only [except_ok_bind]
      cases readArray read "partition" name.2 with
      | error failure => rfl
      | ok partitions => rfl

theorem read_topics_seen :
    readTopics (seen look read) = seen (List.map (TopicOf.over look)) (readTopics read) := by
  rw [readTopics, read_topic_seen, read_array_seen]
  rfl

theorem write_topic_over (write : γ → Except Error Bytes) (topic : TopicOf α) :
    writeTopic write (TopicOf.over look topic) = writeTopic (write ∘ look) topic := by
  simp only [writeTopic, writeArray, TopicOf.over, List.mapM_map, List.length_map]

theorem write_topics_over (write : γ → Except Error Bytes) (topics : List (TopicOf α)) :
    writeTopics write (topics.map (TopicOf.over look)) = writeTopics (write ∘ look) topics := by
  have same : writeTopic write ∘ TopicOf.over look = writeTopic (write ∘ look) := by
    funext topic
    exact write_topic_over write topic
  simp only [writeTopics, writeArray, List.mapM_map, List.length_map, same]

end Seen

section Writing

variable {α : Type} {read : BufferReader → Except Error (α × BufferReader)} {write : α → Except Error Bytes}

/-- How many values an array can have, and how many bytes can stand behind a length. -/
def CountFits {α : Type} (values : List α) : Prop := values.length < 2 ^ 31

instance {α : Type} (values : List α) : Decidable (CountFits values) := inferInstanceAs (Decidable (_ < _))

theorem CountFits.fits {values : List α} (countable : CountFits values) :
    FitsSigned 32 (values.length : Int) := by
  unfold CountFits at countable
  unfold FitsSigned
  omega

theorem write_int_occupied {bits : Nat} (whole : 0 < bits / 8) (value : Int) : writeInt bits value ≠ [] := by
  intro nothing
  have length := congrArg List.length nothing
  simp only [writeInt, be_bytes_length, List.length_nil] at length
  omega

theorem string_round_trips {value : Bytes} (short : value.length < 2 ^ 15) :
    RoundTrips readString writeString value := by
  refine ⟨_, write_string_ok short, ?_, ?_⟩
  · exact List.append_ne_nil_of_left_ne_nil (write_int_occupied (by decide) _) _
  · rintro ⟨position, unread⟩ rest rfl
    exact ⟨_, read_string_write (write_string_ok short) position rest, rfl⟩

/-- The values of an array one after the other, each at least a byte. -/
theorem many_round_trips {values : List α} (each : ∀ value ∈ values, RoundTrips read write value) :
    ∃ parts, values.mapM write = .ok parts ∧ values.length ≤ parts.flatten.length ∧
      Writes (readMany read values.length) values parts.flatten := by
  induction values with
  | nil => exact ⟨[], rfl, Nat.zero_le _, Writes.ok _⟩
  | cons first rest ih =>
      obtain ⟨isFirst, isRest⟩ := List.forall_mem_cons.mp each
      obtain ⟨front, wrote, occupied, reads⟩ := isFirst
      obtain ⟨parts, wroteRest, enough, readsRest⟩ := ih isRest
      refine ⟨front :: parts, ?_, ?_, ?_⟩
      · simp only [List.mapM_cons, wrote, wroteRest, except_ok_bind]
        rfl
      · have some := List.length_pos_iff.mpr occupied
        simp only [List.flatten_cons, List.length_append, List.length_cons]
        omega
      · rw [List.flatten_cons]
        apply Writes.bind reads
        exact Writes.last readsRest fun _ => rfl

theorem array_round_trips {values : List α} (what : String) (countable : CountFits values)
    (each : ∀ value ∈ values, RoundTrips read write value) :
    RoundTrips (readArray read what) (writeArray write) values := by
  obtain ⟨parts, wrote, enough, reads⟩ := many_round_trips each
  refine ⟨writeInt32 values.length ++ parts.flatten, by rw [writeArray, wrote]; rfl, ?_, ?_⟩
  · exact List.append_ne_nil_of_left_ne_nil (write_int_occupied (by decide) _) _
  · rintro ⟨position, unread⟩ rest isInput
    simp only [Reader.unread, List.append_assoc] at isInput
    subst isInput
    have room : values.length ≤ (parts.flatten ++ rest).length := by
      rw [List.length_append]
      omega
    have counted := read_element_count_write countable position room what
    obtain ⟨after, decoded, isAfter⟩ := reads ⟨position + 4, parts.flatten ++ rest⟩ rest rfl
    refine ⟨after, ?_, isAfter⟩
    rw [readArray, counted]
    exact decoded

theorem strings_round_trip {values : List Bytes} (what : String) (countable : CountFits values)
    (short : ∀ value ∈ values, value.length < 2 ^ 15) :
    RoundTrips (readStrings · what) writeStrings values :=
  array_round_trips what countable fun value member => string_round_trips (short value member)

/-- Topics that can be written, when all that stands in their partitions can. -/
structure TopicsFit {Partition : Type} (fits : Partition → Prop) (topics : List (TopicOf Partition)) :
    Prop where
  countable : CountFits topics
  names : ∀ topic ∈ topics, topic.name.length < 2 ^ 15
  partitions : ∀ topic ∈ topics, CountFits topic.partitions ∧ ∀ partition ∈ topic.partitions, fits partition

theorem topic_round_trips {topic : TopicOf α} (short : topic.name.length < 2 ^ 15)
    (countable : CountFits topic.partitions)
    (each : ∀ partition ∈ topic.partitions, RoundTrips read write partition) :
    RoundTrips (readTopic read) (writeTopic write) topic := by
  obtain ⟨name, wroteName, occupied, readsName⟩ := string_round_trips short
  obtain ⟨partitions, wrote, _, readsPartitions⟩ := array_round_trips "partition" countable each
  refine ⟨name ++ partitions, ?_, List.append_ne_nil_of_left_ne_nil occupied _, ?_⟩
  · rw [writeTopic, wroteName, except_ok_bind, wrote]
    rfl
  · apply Writes.bind readsName
    exact Writes.last readsPartitions fun _ => rfl

theorem topics_round_trip {fits : α → Prop} {topics : List (TopicOf α)} (fit : TopicsFit fits topics)
    (each : ∀ partition, fits partition → RoundTrips read write partition) :
    RoundTrips (readTopics read) (writeTopics write) topics := by
  apply array_round_trips "topic" fit.countable
  intro topic member
  obtain ⟨countable, all⟩ := fit.partitions topic member
  exact topic_round_trips (fit.names topic member) countable fun partition present =>
    each partition (all partition present)

theorem sized_writes (what : String) {bytes : Bytes} (countable : CountFits bytes) :
    Writes (readBytes · what) bytes (writeBytes bytes) := by
  apply Writes.bind (read_int32_writes countable.fits)
  simp only [Int.toNat_natCast]
  exact Writes.passes (by omega) (read_bytes_writes bytes)

end Writing

end Protocol

end DariyaKyu

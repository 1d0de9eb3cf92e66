import DariyaKyu.Common.Buffer

/-!
`protocol/wire.cpp`: the string encoding every request shares, a 16-bit length
and the bytes, and the count in front of an array. Minus one is the null marker
and reads as the empty string or the empty array.
-/

namespace DariyaKyu.Protocol

set_option autoImplicit false

def kNullStringLength : Int := -1

def writeString (value : Bytes) : Except Error Bytes :=
  if 2 ^ 15 - 1 < value.length then
    .error (.error s!"wire: string of {value.length} bytes does not fit a 16-bit length")
  else .ok (writeInt16 value.length ++ value)

def readString (input : BufferReader) : Except Error (Bytes × BufferReader) := do
  let (length, input) ← input.readInt16
  if length < 0 then
    if length ≠ kNullStringLength then
      .error (.corruptData s!"wire: string length {length}")
    else .ok ([], input)
  else input.readBytes length.toNat

def readElementCount (input : BufferReader) (what : String) : Except Error (Nat × BufferReader) := do
  let (count, input) ← input.readArrayLength
  if count < 0 then .ok (0, input)
  else if input.remaining < count.toNat then
    .error (.corruptData s!"wire: {what} count {count} exceeds the {input.remaining} byte(s) remaining")
  else .ok (count.toNat, input)

def readMany {α : Type} (read : BufferReader → Except Error (α × BufferReader)) :
    Nat → BufferReader → Except Error (List α × BufferReader)
  | 0, input => .ok ([], input)
  | count + 1, input => do
      let (value, input) ← read input
      let (values, input) ← readMany read count input
      return (value :: values, input)

def readArray {α : Type} (read : BufferReader → Except Error (α × BufferReader)) (what : String)
    (input : BufferReader) : Except Error (List α × BufferReader) := do
  let (count, input) ← readElementCount input what
  readMany read count input

def readStrings (input : BufferReader) (what : String) : Except Error (List Bytes × BufferReader) :=
  readArray readString what input

def writeArray {α : Type} (write : α → Except Error Bytes) (values : List α) : Except Error Bytes := do
  let written ← values.mapM write
  return writeInt32 values.length ++ written.flatten

def writeStrings (values : List Bytes) : Except Error Bytes := writeArray writeString values

def writeBytes (bytes : Bytes) : Bytes := writeInt32 bytes.length ++ bytes

def readBytes (input : BufferReader) (what : String) : Except Error (Bytes × BufferReader) := do
  let (length, input) ← input.readInt32
  if length < 0 then .error (.corruptData s!"{what}: length {length}")
  else input.readBytes length.toNat

/-- A topic of a request or of a response, with an entry for each partition. -/
structure TopicOf (Partition : Type) where
  name : Bytes
  partitions : List Partition
  deriving DecidableEq, Repr

def readTopic {Partition : Type} (readPartition : BufferReader → Except Error (Partition × BufferReader))
    (input : BufferReader) : Except Error (TopicOf Partition × BufferReader) := do
  let (name, input) ← readString input
  let (partitions, input) ← readArray readPartition "partition" input
  return (⟨name, partitions⟩, input)

def readTopics {Partition : Type} (readPartition : BufferReader → Except Error (Partition × BufferReader)) :
    BufferReader → Except Error (List (TopicOf Partition) × BufferReader) :=
  readArray (readTopic readPartition) "topic"

def writeTopic {Partition : Type} (writePartition : Partition → Except Error Bytes)
    (topic : TopicOf Partition) : Except Error Bytes := do
  let name ← writeString topic.name
  let partitions ← writeArray writePartition topic.partitions
  return name ++ partitions

def writeTopics {Partition : Type} (writePartition : Partition → Except Error Bytes) :
    List (TopicOf Partition) → Except Error Bytes :=
  writeArray (writeTopic writePartition)

theorem read_string_write {value written : Bytes} (wrote : writeString value = .ok written)
    (position : Nat) (rest : Bytes) :
    readString ⟨position, written ++ rest⟩ = .ok (value, ⟨position + written.length, rest⟩) := by
  unfold writeString at wrote
  split at wrote
  · cases wrote
  · next short =>
    cases wrote
    have fits : FitsSigned 16 value.length := by
      unfold FitsSigned
      omega
    have length : (writeInt16 value.length).length = 2 := by simp [writeInt16, writeInt]
    simp only [readString, List.append_assoc, BufferReader.readInt16, writeInt16]
    rw [BufferReader.read_int_write_int 16 position ⟨2, rfl⟩ (by norm_num) _ fits]
    have notNegative : ¬ (value.length : Int) < 0 := by omega
    simp only [except_ok_bind, notNegative, if_false, Int.toNat_natCast]
    rw [BufferReader.read_bytes_append]
    simp only [writeInt16] at length
    simp only [List.length_append, length]
    norm_num [Nat.add_assoc]

theorem read_int16_fits {input after : BufferReader} {value : Int}
    (read : input.readInt16 = .ok (value, after)) : FitsSigned 16 value := by
  obtain ⟨⟨raw, rest⟩, isRaw, made⟩ := except_bind_ok read
  obtain ⟨⟨bytes, left⟩, taken, isNumber⟩ := except_bind_ok isRaw
  obtain ⟨_, length, _⟩ := BufferReader.read_bytes_ok taken
  have bounded := be_nat_lt bytes
  cases isNumber
  cases made
  rw [length] at bounded
  exact as_signed_fits 16 _ (by decide) bounded

theorem read_string_short {input after : BufferReader} {value : Bytes}
    (read : readString input = .ok (value, after)) : value.length < 2 ^ 15 := by
  obtain ⟨⟨length, input⟩, isLength, read⟩ := except_bind_ok read
  have bounded := read_int16_fits isLength
  simp only at read
  split at read
  · split at read
    · cases read
    · cases read
      decide
  · obtain ⟨_, taken, _⟩ := BufferReader.read_bytes_ok read
    unfold FitsSigned at bounded
    omega

theorem write_string_ok {value : Bytes} (short : value.length < 2 ^ 15) :
    writeString value = .ok (writeInt16 value.length ++ value) := by
  rw [writeString, if_neg (by omega)]

theorem read_element_count_write {count : Nat} (fits : count < 2 ^ 31) (position : Nat) {rest : Bytes}
    (room : count ≤ rest.length) (what : String) :
    readElementCount ⟨position, writeInt32 count ++ rest⟩ what = .ok (count, ⟨position + 4, rest⟩) := by
  have isSigned : FitsSigned 32 count := by
    unfold FitsSigned
    omega
  have notNull : ¬ (count : Int) < -1 := by omega
  have notNegative : ¬ (count : Int) < 0 := by omega
  have enough : ¬ rest.length < count := by omega
  simp only [readElementCount, BufferReader.readArrayLength, BufferReader.readInt32, writeInt32]
  rw [BufferReader.read_int_write_int 32 position ⟨4, rfl⟩ (by norm_num) _ isSigned]
  simp only [except_ok_bind, notNull, if_false, notNegative, BufferReader.remaining, Int.toNat_natCast, enough]

theorem read_many_forall {α : Type} {read : BufferReader → Except Error (α × BufferReader)} {P : α → Prop}
    (each : ∀ input value after, read input = .ok (value, after) → P value) {count : Nat}
    {input after : BufferReader} {values : List α} (done : readMany read count input = .ok (values, after)) :
    ∀ value ∈ values, P value := by
  induction count generalizing input values with
  | zero =>
      cases done
      exact List.forall_mem_nil _
  | succ count ih =>
      obtain ⟨⟨first, input⟩, isFirst, done⟩ := except_bind_ok done
      obtain ⟨⟨rest, input⟩, isRest, done⟩ := except_bind_ok done
      cases done
      exact List.forall_mem_cons.mpr ⟨each _ _ _ isFirst, ih isRest⟩

theorem read_array_forall {α : Type} {read : BufferReader → Except Error (α × BufferReader)} {P : α → Prop}
    (each : ∀ input value after, read input = .ok (value, after) → P value) {what : String}
    {input after : BufferReader} {values : List α} (done : readArray read what input = .ok (values, after)) :
    ∀ value ∈ values, P value := by
  obtain ⟨⟨count, input⟩, _, done⟩ := except_bind_ok done
  exact read_many_forall each done

theorem read_topics_short {Partition : Type} {read : BufferReader → Except Error (Partition × BufferReader)}
    {input after : BufferReader} {topics : List (TopicOf Partition)}
    (done : readTopics read input = .ok (topics, after)) : ∀ topic ∈ topics, topic.name.length < 2 ^ 15 := by
  apply read_array_forall (P := fun topic : TopicOf Partition => topic.name.length < 2 ^ 15) ?_ done
  intro input topic after isTopic
  obtain ⟨⟨name, input⟩, isName, isTopic⟩ := except_bind_ok isTopic
  obtain ⟨⟨partitions, input⟩, _, isTopic⟩ := except_bind_ok isTopic
  cases isTopic
  exact read_string_short isName

theorem write_array_ok {α : Type} {write : α → Except Error Bytes} {values : List α}
    (each : ∀ value ∈ values, ∃ written, write value = .ok written) :
    ∃ written, writeArray write values = .ok written := by
  have all : ∃ parts, values.mapM write = .ok parts := by
    induction values with
    | nil => exact ⟨[], rfl⟩
    | cons first rest ih =>
        obtain ⟨isFirst, isRest⟩ := List.forall_mem_cons.mp each
        obtain ⟨front, wroteFirst⟩ := isFirst
        obtain ⟨parts, wroteRest⟩ := ih isRest
        refine ⟨front :: parts, ?_⟩
        simp only [List.mapM_cons, wroteFirst, wroteRest, except_ok_bind]
        rfl
  obtain ⟨parts, wrote⟩ := all
  exact ⟨_, by rw [writeArray, wrote]; rfl⟩

theorem write_topics_ok {Partition : Type} {write : Partition → Except Error Bytes}
    {topics : List (TopicOf Partition)} (short : ∀ topic ∈ topics, topic.name.length < 2 ^ 15)
    (each : ∀ topic ∈ topics, ∀ partition ∈ topic.partitions, ∃ written, write partition = .ok written) :
    ∃ written, writeTopics write topics = .ok written := by
  apply write_array_ok
  intro topic member
  obtain ⟨partitions, wrote⟩ := write_array_ok (each topic member)
  exact ⟨_, by rw [writeTopic, write_string_ok (short topic member), except_ok_bind, wrote]; rfl⟩

theorem read_element_count_le {written count position : Nat} {rest : Bytes} {what : String}
    {input : BufferReader}
    (read : readElementCount ⟨position, writeInt32 written ++ rest⟩ what = .ok (count, input)) :
    count ≤ written ∧ input = ⟨position + 4, rest⟩ := by
  simp only [readElementCount, BufferReader.readArrayLength, BufferReader.readInt32, writeInt32] at read
  rw [BufferReader.read_int_written 32 position ⟨4, rfl⟩] at read
  have bounded : asSigned 32 (asUnsigned 32 written) ≤ written := by
    unfold asSigned asUnsigned
    split <;> omega
  simp only [except_ok_bind] at read
  split at read
  · cases read
  · simp only [except_ok_bind] at read
    split at read
    · cases read
      exact ⟨Nat.zero_le _, rfl⟩
    · split at read
      · cases read
      · cases read
        exact ⟨by omega, rfl⟩

end DariyaKyu.Protocol

import DariyaKyu.Group.CommitRecord
import DariyaKyu.Protocol.WireCodec

/-!
The key and the value of a committed offset as bytes that mean one thing only:
each is read back, nothing shorter or longer is taken for it, and two keys have
two encodings. The one other way to spell a key is with a null string, which
only a writer other than this one would use.
-/

namespace DariyaKyu.Groups

set_option autoImplicit false

open Protocol PrefixCodec BufferReader

/-- What the fields of a `CommitKey` can hold when its strings have their length written. -/
structure CommitKey.Fits (key : CommitKey) : Prop where
  group : key.group.length < 2 ^ 15
  topic : key.topic.length < 2 ^ 15
  partition : FitsSigned 32 key.partition

structure CommitValue.Fits (value : CommitValue) : Prop where
  nextOffset : FitsSigned 64 value.nextOffset
  reached : 0 ≤ value.nextOffset
  metadata : value.metadata.length < 2 ^ 15
  commitTimestampMs : FitsSigned 64 value.commitTimestampMs

/-- `decodeCommitKey` up to the bytes behind the last field. -/
def readCommitKey (input : BufferReader) : Except Error (CommitKey × BufferReader) := do
  let (version, input) ← input.readInt16
  if version ≠ kCommitVersion then
    .error (.corruptData s!"commit key: version {version}, this build knows {kCommitVersion}")
  else do
    let (group, input) ← readString input
    let (topic, input) ← readString input
    let (partition, input) ← input.readInt32
    return (⟨group, topic, partition⟩, input)

def readCommitValue (input : BufferReader) : Except Error (CommitValue × BufferReader) := do
  let (version, input) ← input.readInt16
  if version ≠ kCommitVersion then
    .error (.corruptData s!"commit value: version {version}, this build knows {kCommitVersion}")
  else do
    let (nextOffset, input) ← input.readInt64
    if nextOffset < 0 then
      .error (.corruptData s!"commit value: negative offset {nextOffset}")
    else do
      let (metadata, input) ← readString input
      let (commitTimestampMs, input) ← input.readInt64
      return (⟨nextOffset, metadata, commitTimestampMs⟩, input)

def keyTrailing (input : BufferReader) : Error :=
  .corruptData s!"commit key: {input.remaining} trailing byte(s)"

def valueTrailing (input : BufferReader) : Error :=
  .corruptData s!"commit value: {input.remaining} trailing byte(s)"

theorem decode_commit_key_whole (bytes : Bytes) :
    decodeCommitKey bytes = whole readCommitKey keyTrailing (.ofBytes bytes) := by
  simp only [decodeCommitKey, whole, readCommitKey, bind_assoc, pure_bind, ite_bind, except_error_bind]
  rfl

theorem decode_commit_value_whole (bytes : Bytes) :
    decodeCommitValue bytes = whole readCommitValue valueTrailing (.ofBytes bytes) := by
  simp only [decodeCommitValue, whole, readCommitValue, bind_assoc, pure_bind, ite_bind, except_error_bind]
  rfl

theorem commit_key_reads : Reads IsCorrupt readCommitKey := by
  apply Reads.bind (read_int_reads 16)
  intro version
  apply Reads.ite
  · exact Reads.fail (corrupt_data _)
  · apply Reads.bind read_string_reads
    intro group
    apply Reads.bind read_string_reads
    intro topic
    apply Reads.bind (read_int_reads 32)
    intro partition
    exact Reads.ok _

theorem commit_value_reads : Reads IsCorrupt readCommitValue := by
  apply Reads.bind (read_int_reads 16)
  intro version
  apply Reads.ite
  · exact Reads.fail (corrupt_data _)
  · apply Reads.bind (read_int_reads 64)
    intro nextOffset
    apply Reads.ite
    · exact Reads.fail (corrupt_data _)
    · apply Reads.bind read_string_reads
      intro metadata
      apply Reads.bind (read_int_reads 64)
      intro commitTimestampMs
      exact Reads.ok _

theorem commit_key_round_trips {key : CommitKey} (fits : key.Fits) :
    RoundTrips readCommitKey encodeCommitKey key := by
  obtain ⟨group, wroteGroup, _, readsGroup⟩ := string_round_trips fits.group
  obtain ⟨topic, wroteTopic, _, readsTopic⟩ := string_round_trips fits.topic
  refine ⟨writeInt16 kCommitVersion ++ group ++ topic ++ writeInt32 key.partition, ?_,
    by simp [writeInt16, write_int_occupied], ?_⟩
  · simp only [encodeCommitKey, wroteGroup, wroteTopic, except_ok_bind]
    rfl
  · simp only [List.append_assoc]
    apply Writes.bind (read_int16_writes (by decide : FitsSigned 16 kCommitVersion))
    apply Writes.passes (not_not.mpr rfl)
    apply Writes.bind readsGroup
    apply Writes.bind readsTopic
    exact Writes.last (read_int32_writes fits.partition) fun _ => rfl

theorem commit_value_round_trips {value : CommitValue} (fits : value.Fits) :
    RoundTrips readCommitValue encodeCommitValue value := by
  obtain ⟨metadata, wrote, _, reads⟩ := string_round_trips fits.metadata
  refine ⟨_, by rw [encodeCommitValue, wrote]; rfl, by simp [writeInt16, write_int_occupied], ?_⟩
  simp only [List.append_assoc]
  apply Writes.bind (read_int16_writes (by decide : FitsSigned 16 kCommitVersion))
  apply Writes.passes (not_not.mpr rfl)
  apply Writes.bind (read_int64_writes fits.nextOffset)
  apply Writes.passes (not_lt.mpr fits.reached)
  apply Writes.bind reads
  exact Writes.last (read_int64_writes fits.commitTimestampMs) fun _ => rfl

/-- A key spelled with a null string: the length of its group or of its topic is
minus one. -/
def SpelledWithNull (bytes : Bytes) : Prop :=
  (∃ rest, bytes = writeInt16 kCommitVersion ++ writeInt16 kNullStringLength ++ rest) ∨
    ∃ group written rest, writeString group = .ok written ∧
      bytes = writeInt16 kCommitVersion ++ written ++ writeInt16 kNullStringLength ++ rest

theorem commit_key_taken {bytes : Bytes} {key : CommitKey} (decoded : decodeCommitKey bytes = .ok key)
    (plain : ¬ SpelledWithNull bytes) : encodeCommitKey key = .ok bytes := by
  rw [decode_commit_key_whole] at decoded
  obtain ⟨after, read, nothing⟩ := whole_ok_iff.mp decoded
  obtain ⟨⟨version, input⟩, isVersion, read⟩ := except_bind_ok read
  simp only at read
  split at read
  · cases read
  next current =>
  obtain rfl := not_not.mp current
  obtain ⟨⟨group, input⟩, isGroup, read⟩ := except_bind_ok read
  obtain ⟨⟨topic, input⟩, isTopic, read⟩ := except_bind_ok read
  obtain ⟨⟨partition, input⟩, isPartition, read⟩ := except_bind_ok read
  cases read
  have front := read_int_taken ⟨2, rfl⟩ isVersion
  obtain ⟨writtenGroup, frontGroup, spelledGroup⟩ := read_string_taken isGroup
  obtain ⟨writtenTopic, frontTopic, spelledTopic⟩ := read_string_taken isTopic
  have last := read_int_taken ⟨4, rfl⟩ isPartition
  simp only [Reader.unread] at nothing
  rw [frontGroup, frontTopic, last, nothing, List.append_nil] at front
  have shape : bytes = writeInt16 kCommitVersion ++ writtenGroup ++ writtenTopic ++ writeInt32 partition := by
    rw [List.append_assoc, List.append_assoc]
    exact front
  rcases spelledGroup with wroteGroup | ⟨_, rfl⟩
  · rcases spelledTopic with wroteTopic | ⟨_, rfl⟩
    · rw [encodeCommitKey, wroteGroup, except_ok_bind, wroteTopic, shape]
      rfl
    · exact absurd (.inr ⟨group, writtenGroup, _, wroteGroup, shape⟩) plain
  · exact absurd (.inl ⟨writtenTopic ++ writeInt32 partition, by rw [shape, List.append_assoc]⟩) plain

theorem commit_key_taken_exactly {bytes : Bytes} {key : CommitKey} (decoded : decodeCommitKey bytes = .ok key) :
    TakenExactly decodeCommitKey bytes := by
  rw [funext decode_commit_key_whole] at decoded ⊢
  exact accepted_taken_exactly (fun _ => corrupt_data _) commit_key_reads decoded

theorem commit_value_taken_exactly {bytes : Bytes} {value : CommitValue}
    (decoded : decodeCommitValue bytes = .ok value) : TakenExactly decodeCommitValue bytes := by
  rw [funext decode_commit_value_whole] at decoded ⊢
  exact accepted_taken_exactly (fun _ => corrupt_data _) commit_value_reads decoded

theorem commit_key_read_back {key : CommitKey} (fits : key.Fits) :
    ∃ bytes, encodeCommitKey key = .ok bytes ∧ decodeCommitKey bytes = .ok key := by
  obtain ⟨bytes, wrote, reads⟩ := (commit_key_round_trips fits).whole keyTrailing
  exact ⟨bytes, wrote, (decode_commit_key_whole bytes).trans reads⟩

theorem commit_value_read_back {value : CommitValue} (fits : value.Fits) :
    ∃ bytes, encodeCommitValue value = .ok bytes ∧ decodeCommitValue bytes = .ok value := by
  obtain ⟨bytes, wrote, reads⟩ := (commit_value_round_trips fits).whole valueTrailing
  exact ⟨bytes, wrote, (decode_commit_value_whole bytes).trans reads⟩

/-- Committed offsets keep their keys and their values apart. -/
theorem commit_records_unambiguous :
    (∀ key : CommitKey, key.Fits → ∃ bytes, encodeCommitKey key = .ok bytes ∧
      decodeCommitKey bytes = .ok key ∧ TakenExactly decodeCommitKey bytes) ∧
    (∀ value : CommitValue, value.Fits → ∃ bytes, encodeCommitValue value = .ok bytes ∧
      decodeCommitValue bytes = .ok value ∧ TakenExactly decodeCommitValue bytes) ∧
    (∀ key other : CommitKey, key.Fits → other.Fits → key ≠ other →
      encodeCommitKey key ≠ encodeCommitKey other) ∧
    ∀ bytes key, decodeCommitKey bytes = .ok key → ¬ SpelledWithNull bytes →
      encodeCommitKey key = .ok bytes := by
  refine ⟨?keys, ?values, ?distinct, fun _ _ => commit_key_taken⟩
  case keys =>
    intro key fits
    obtain ⟨bytes, wrote, reads⟩ := commit_key_read_back fits
    exact ⟨bytes, wrote, reads, commit_key_taken_exactly reads⟩
  case values =>
    intro value fits
    obtain ⟨bytes, wrote, reads⟩ := commit_value_read_back fits
    exact ⟨bytes, wrote, reads, commit_value_taken_exactly reads⟩
  case distinct =>
    intro key other fits fitsOther differ same
    obtain ⟨bytes, wrote, reads⟩ := commit_key_read_back fits
    obtain ⟨bytesOther, wroteOther, readsOther⟩ := commit_key_read_back fitsOther
    rw [wrote, wroteOther, Except.ok.injEq] at same
    rw [same, readsOther, Except.ok.injEq] at reads
    exact differ reads.symm

/-- A position of group `g` in partition 3 of `t`, and the same partition of group `gt`. -/
theorem commit_records_unambiguous_twice :
    (∃ bytes, encodeCommitKey ⟨[103], [116], 3⟩ = .ok bytes ∧ decodeCommitKey bytes = .ok ⟨[103], [116], 3⟩ ∧
      TakenExactly decodeCommitKey bytes) ∧
    (∃ bytes, encodeCommitValue ⟨510, [], 1700000000000⟩ = .ok bytes ∧
      decodeCommitValue bytes = .ok ⟨510, [], 1700000000000⟩ ∧ TakenExactly decodeCommitValue bytes) ∧
    encodeCommitKey ⟨[103], [116], 3⟩ ≠ encodeCommitKey ⟨[103, 116], [], 3⟩ := by
  obtain ⟨keys, values, distinct, _⟩ := commit_records_unambiguous
  refine ⟨keys _ ⟨?_, ?_, ?_⟩, values _ ⟨?_, ?_, ?_, ?_⟩, distinct _ _ ⟨?_, ?_, ?_⟩ ⟨?_, ?_, ?_⟩ ?_⟩
  all_goals decide

end DariyaKyu.Groups

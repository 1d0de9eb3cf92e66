import DariyaKyu.Cli.Assignor
import DariyaKyu.Protocol.WireCodec

/-!
What a member reads of the share that it was sent: the same partitions, brought
together by topic and otherwise in their order. A share that was cut short is not
taken for a smaller one, except that no bytes at all are no partitions.
-/

namespace DariyaKyu.Cli

set_option autoImplicit false

open Dealing Groups Protocol PrefixCodec BufferReader

/-- A list brought into the order of its topics, each topic's entries in the order
they had. -/
structure GroupedByTopic (assigned held : List TopicPartition) : Prop where
  same : held.Perm assigned
  kept : ∀ topic, held.filter (fun tp => decide (tp.topic = topic)) =
    assigned.filter fun tp => decide (tp.topic = topic)
  ordered : held.Pairwise fun earlier later => earlier.topic ≤ later.topic

section Grouping

variable (assigned : List TopicPartition)

theorem filter_spread (topic : Bytes) :
    (spread (byTopic assigned).entries).filter (fun tp => decide (tp.topic = topic)) =
      assigned.filter fun tp => decide (tp.topic = topic) := by
  have eachEntry : ∀ entry : Bytes × List Int,
      (entry.2.map fun partition => (⟨entry.1, partition⟩ : TopicPartition)).filter
          (fun tp => decide (tp.topic = topic)) =
        if entry.1 = topic then entry.2.map fun partition => ⟨entry.1, partition⟩ else [] := by
    intro entry
    split
    · next same => simp [same]
    · next different => simp [different]
  have only := (byTopic assigned).flat_map_only topic
    fun topic partitions => partitions.map fun partition => (⟨topic, partition⟩ : TopicPartition)
  have spelled : ∀ found : Option (List Int),
      (found.map (List.map fun partition => (⟨topic, partition⟩ : TopicPartition))).getD [] =
        (found.getD []).map fun partition => ⟨topic, partition⟩ := by
    intro found
    cases found with
    | none => rfl
    | some partitions => rfl
  have back : ∀ tp ∈ assigned.filter fun tp => decide (tp.topic = topic),
      (⟨topic, tp.partition⟩ : TopicPartition) = id tp := by
    intro tp member
    have isTopic : tp.topic = topic := by simpa using (List.mem_filter.mp member).2
    rw [← isTopic, id]
  rw [spread, List.filter_flatMap]
  simp only [eachEntry, only, spelled, (find_by_topic assigned topic).1, List.map_map]
  exact (List.map_congr_left back).trans (List.map_id _)

theorem spread_perm : (spread (byTopic assigned).entries).Perm assigned := by
  apply List.perm_iff_count.mpr
  intro tp
  have inTopic : ∀ list : List TopicPartition,
      list.count tp = (list.filter fun other => decide (other.topic = tp.topic)).count tp := by
    intro list
    rw [List.count_filter (by simp)]
  rw [inTopic, filter_spread, ← inTopic]

theorem spread_ordered : (spread (byTopic assigned).entries).Pairwise fun earlier later => earlier.topic ≤ later.topic := by
  apply List.pairwise_flatMap.mpr
  constructor
  · intro entry _
    apply List.pairwise_map.mpr
    exact List.pairwise_of_forall fun _ _ => Std.le_refl _
  · apply (byTopic assigned).sorted.imp
    intro first second below tp inFirst other inSecond
    obtain ⟨_, _, rfl⟩ := List.mem_map.mp inFirst
    obtain ⟨_, _, rfl⟩ := List.mem_map.mp inSecond
    exact Std.le_of_lt below

theorem spread_grouped : GroupedByTopic assigned (spread (byTopic assigned).entries) :=
  ⟨spread_perm assigned, filter_spread assigned, spread_ordered assigned⟩

theorem by_topic_length : (byTopic assigned).entries.length ≤ (assigned.map (·.topic)).dedup.length := by
  have keys : ((byTopic assigned).entries.map (·.1)).Nodup := by
    apply List.pairwise_map.mpr
    apply (byTopic assigned).sorted.imp
    intro first second below same
    rw [same] at below
    exact absurd below Std.lt_irrefl
  have among : (byTopic assigned).entries.map (·.1) ⊆ (assigned.map (·.topic)).dedup := by
    intro topic member
    obtain ⟨⟨_, partitions⟩, inside, rfl⟩ := List.mem_map.mp member
    obtain ⟨partition, isPartition⟩ := List.exists_mem_of_ne_nil partitions
      ((find_by_topic assigned _).2 _ ((byTopic assigned).mem_entries.mp inside))
    have listed := (mem_by_topic assigned ⟨_, partition⟩).mp ⟨_, inside, rfl, isPartition⟩
    exact List.mem_dedup.mpr (List.mem_map.mpr ⟨_, listed, rfl⟩)
  have counted := (List.subperm_of_subset keys among).length_le
  rwa [List.length_map] at counted

end Grouping

section Codec

/-- `decodeAssignment` of some bytes, up to those behind the last topic. -/
def readAssigned (input : BufferReader) : Except Error (List TopicPartition × BufferReader) := do
  let (version, input) ← input.readInt16
  if version ≠ kAssignmentVersion then
    .error (.corruptData s!"assignment: version {version}, this client knows {kAssignmentVersion}")
  else do
    let (topicCount, input) ← readElementCount input "topic"
    decodeTopics topicCount input

def assignmentTrailing (input : BufferReader) : Error :=
  .corruptData s!"assignment: {input.remaining} trailing byte(s)"

theorem decode_assignment_whole {bytes : Bytes} (occupied : bytes ≠ []) :
    decodeAssignment bytes = whole readAssigned assignmentTrailing (.ofBytes bytes) := by
  rw [decodeAssignment, if_neg occupied]
  simp only [whole, readAssigned, bind_assoc, ite_bind, except_error_bind]
  rfl

theorem decode_partitions_reads (topic : Bytes) (count : Nat) :
    Reads IsCorrupt (decodePartitions topic count) := by
  induction count with
  | zero => exact Reads.ok _
  | succ count ih =>
      apply Reads.bind (read_int_reads 32)
      intro partition
      apply Reads.bind ih
      intro rest
      exact Reads.ok _

theorem decode_topics_reads (count : Nat) : Reads IsCorrupt (decodeTopics count) := by
  induction count with
  | zero => exact Reads.ok _
  | succ count ih =>
      apply Reads.bind read_string_reads
      intro topic
      apply Reads.bind (read_element_count_reads _)
      intro partitionCount
      apply Reads.bind (decode_partitions_reads _ _)
      intro first
      apply Reads.bind ih
      intro rest
      exact Reads.ok _

theorem assigned_reads : Reads IsCorrupt readAssigned := by
  apply Reads.bind (read_int_reads 16)
  intro version
  apply Reads.ite
  · exact Reads.fail (corrupt_data _)
  · apply Reads.bind (read_element_count_reads _)
    intro topicCount
    exact decode_topics_reads _

theorem encode_topics_short {entries : List (Bytes × List Int)}
    (short : ∀ entry ∈ entries, entry.1.length < 2 ^ 15) : ∃ written, encodeTopics entries = .ok written := by
  induction entries with
  | nil => exact ⟨[], rfl⟩
  | cons entry entries ih =>
      obtain ⟨isShort, later⟩ := List.forall_mem_cons.mp short
      obtain ⟨behind, wrote⟩ := ih later
      exact ⟨_, by rw [encodeTopics, write_string_ok isShort, except_ok_bind, wrote]; rfl⟩

/-- What can be written of a share: names with a length, partitions of 32 bits,
and counts of 32 bits. -/
structure ShareFits (assigned : List TopicPartition) : Prop where
  names : ∀ tp ∈ assigned, tp.topic.length < 2 ^ 15
  partitions : ∀ tp ∈ assigned, FitsSigned 32 tp.partition
  topics : (assigned.map (·.topic)).dedup.length < 2 ^ 31
  each : ∀ topic, (assigned.filter fun tp => decide (tp.topic = topic)).length < 2 ^ 31

theorem share_entries_fit {assigned : List TopicPartition} (fits : ShareFits assigned) :
    ∀ entry ∈ (byTopic assigned).entries, entry.2.length < 2 ^ 31 ∧
      ∀ partition ∈ entry.2, FitsSigned 32 partition := by
  rintro ⟨topic, partitions⟩ inside
  constructor
  · have collected := (find_by_topic assigned topic).1
    rw [(byTopic assigned).mem_entries.mp inside, Option.getD_some] at collected
    rw [collected, List.length_map]
    exact fits.each topic
  · intro partition member
    exact fits.partitions _ ((mem_by_topic assigned ⟨topic, partition⟩).mp ⟨_, inside, rfl, member⟩)

theorem share_names_short {assigned : List TopicPartition} (fits : ShareFits assigned) :
    ∀ entry ∈ (byTopic assigned).entries, entry.1.length < 2 ^ 15 := by
  rintro ⟨topic, partitions⟩ inside
  obtain ⟨partition, member⟩ := List.exists_mem_of_ne_nil partitions
    ((find_by_topic assigned topic).2 _ ((byTopic assigned).mem_entries.mp inside))
  exact fits.names _ ((mem_by_topic assigned ⟨topic, partition⟩).mp ⟨_, inside, rfl, member⟩)

/-- A share is read back by topic; but for no bytes at all, neither a part of its
bytes nor more of them is a share. -/
theorem assignment_reads_back (assigned : List TopicPartition) (fits : ShareFits assigned) :
    decodeAssignment [] = .ok [] ∧
    ∃ bytes held, encodeAssignment assigned = .ok bytes ∧ decodeAssignment bytes = .ok held ∧
      GroupedByTopic assigned held ∧
      (∀ front tail, bytes = front ++ tail → front ≠ [] → tail ≠ [] →
        ∃ what, decodeAssignment front = .error (.corruptData what)) ∧
      ∀ tail, tail ≠ [] → ∃ what, decodeAssignment (bytes ++ tail) = .error (.corruptData what) := by
  obtain ⟨topics, wrote⟩ := encode_topics_short (share_names_short fits)
  obtain ⟨bytes, encoded, occupied⟩ : ∃ bytes, encodeAssignment assigned = .ok bytes ∧ bytes ≠ [] :=
    ⟨_, by rw [encodeAssignment, wrote]; rfl, by simp [writeInt16, write_int_occupied]⟩
  have decoded := decode_assignment_write (share_entries_fit fits)
    ((by_topic_length assigned).trans_lt fits.topics) encoded
  have accepted := decoded
  rw [decode_assignment_whole occupied] at accepted
  have exact_bytes := accepted_taken_exactly (fun _ => corrupt_data _) assigned_reads accepted
  refine ⟨rfl, bytes, _, encoded, decoded, spread_grouped assigned, ?_, ?_⟩
  · intro front tail isCut started lacks
    rw [decode_assignment_whole started]
    exact exact_bytes.cut front tail isCut lacks
  · intro tail goesOn
    rw [decode_assignment_whole (List.append_ne_nil_of_left_ne_nil occupied tail)]
    exact exact_bytes.extended tail goesOn

/-- Two partitions of one topic and one of another between them. -/
theorem assignment_reads_back_interleaved :
    let assigned : List TopicPartition := [⟨[117], 1⟩, ⟨[116], 7⟩, ⟨[117], 0⟩]
    decodeAssignment [] = .ok [] ∧
    ∃ bytes held, encodeAssignment assigned = .ok bytes ∧ decodeAssignment bytes = .ok held ∧
      GroupedByTopic assigned held ∧
      (∀ front tail, bytes = front ++ tail → front ≠ [] → tail ≠ [] →
        ∃ what, decodeAssignment front = .error (.corruptData what)) ∧
      ∀ tail, tail ≠ [] → ∃ what, decodeAssignment (bytes ++ tail) = .error (.corruptData what) := by
  apply assignment_reads_back
  refine ⟨by decide, by decide, by decide, ?_⟩
  intro topic
  exact (List.length_filter_le _ _).trans_lt (by decide)

theorem by_topic_replicate {count : Nat} (some_count : count ≠ 0) (tp : TopicPartition) :
    (byTopic (List.replicate count tp)).entries = [(tp.topic, List.replicate count tp.partition)] := by
  have few := by_topic_length (List.replicate count tp)
  rw [List.map_replicate, List.replicate_dedup some_count, List.length_singleton] at few
  obtain ⟨⟨topic, partitions⟩, inside, isTopic, _⟩ :=
    (mem_by_topic (List.replicate count tp) tp).mpr (List.mem_replicate.mpr ⟨some_count, rfl⟩)
  obtain rfl : tp.topic = topic := isTopic
  have collected := (find_by_topic (List.replicate count tp) tp.topic).1
  rw [(byTopic _).mem_entries.mp inside, Option.getD_some, List.filter_replicate, if_pos (by simp),
    List.map_replicate] at collected
  cases listed : (byTopic (List.replicate count tp)).entries with
  | nil =>
      rw [listed] at inside
      cases inside
  | cons entry rest =>
      rw [listed] at inside few
      have nothing : rest = [] := List.eq_nil_of_length_eq_zero (by rw [List.length_cons] at few; omega)
      subst nothing
      rw [← List.mem_singleton.mp inside, collected]

/-- A share that names one partition more often than 31 bits can count is written
and cannot be read. -/
theorem repeated_share_refused {count : Nat} (many : 2 ^ 31 ≤ count) (below : count < 2 ^ 32 - 1)
    {tp : TopicPartition} (short : tp.topic.length < 2 ^ 15) :
    ∃ bytes, encodeAssignment (List.replicate count tp) = .ok bytes ∧
      ∃ what, decodeAssignment bytes = .error (.corruptData what) := by
  have entries := by_topic_replicate (show count ≠ 0 by omega) tp
  obtain ⟨topics, wrote⟩ := @encode_topics_short
    [(tp.topic, List.replicate count tp.partition)] (List.forall_mem_singleton.mpr short)
  obtain ⟨bytes, encoded⟩ : ∃ bytes, encodeAssignment (List.replicate count tp) = .ok bytes :=
    ⟨_, by rw [encodeAssignment, entries, wrote]; rfl⟩
  refine ⟨bytes, encoded, ?_⟩
  obtain ⟨topics, wrote, opens⟩ := decode_assignment_opens encoded
  rw [entries] at wrote opens
  have room := encode_topics_room wrote
  obtain ⟨name, wroteName, wrote⟩ := except_bind_ok wrote
  cases Except.ok.inj wrote
  rw [List.length_replicate] at opens room
  obtain ⟨text, refused⟩ := read_element_count_uncountable many below (2 + 4 + name.length)
    ((List.replicate count tp.partition).flatMap writeInt32 ++ []) "partition"
  rw [List.length_singleton] at opens room
  rw [opens, read_element_count_write (by decide) _ room]
  simp only [except_ok_bind, decodeTopics, List.append_assoc, read_string_write wroteName,
    refused]
  exact ⟨text, rfl⟩

theorem uncounted_share_refused :
    ∃ bytes, encodeAssignment (List.replicate (2 ^ 31) ⟨[116], 0⟩) = .ok bytes ∧
      ∃ what, decodeAssignment bytes = .error (.corruptData what) :=
  repeated_share_refused le_rfl (by norm_num) (by decide)

end Codec

end DariyaKyu.Cli

import DariyaKyu.Group.GroupCoordinator
import DariyaKyu.Library.Dealing
import DariyaKyu.Protocol.Wire

/-!
`cli/assignor.cpp`: how a leader divides the partitions of a group, and the bytes
in which a member is told its share. The coordinator relays these bytes unread.
The number of members is taken as it is: it has come as the 32-bit count of an
array.
-/

namespace DariyaKyu.Cli

set_option autoImplicit false

open Dealing Groups Protocol

/-- Who is in the group with what each subscribed to, and the partition count of
each topic. -/
structure AssignmentInput where
  members : OrderedMap Bytes (List Bytes) := OrderedMap.empty
  partitionCounts : OrderedMap Bytes Int := OrderedMap.empty

def AssignmentInput.memberIds (input : AssignmentInput) : List Bytes := input.members.entries.map (·.1)

/-- What `assignRange` gives one member of one topic: partitions from `next` on. -/
def takeBlock (topic member : Bytes) :
    Nat → Int → OrderedMap Bytes (List TopicPartition) → OrderedMap Bytes (List TopicPartition)
  | 0, _, assignment => assignment
  | count + 1, next, assignment =>
      takeBlock topic member count (next + 1) (push assignment member ⟨topic, next⟩)

/-- The loop over the members that asked for a topic, from the `index`-th on. -/
def takeBlocks (topic : Bytes) (each extra : Int) :
    Nat → Int → List Bytes → OrderedMap Bytes (List TopicPartition) →
      OrderedMap Bytes (List TopicPartition)
  | _, _, [], assignment => assignment
  | index, next, member :: interested, assignment =>
      let take := each + if (index : Int) < extra then 1 else 0
      takeBlocks topic each extra (index + 1) (next + take) interested
        (takeBlock topic member take.toNat next assignment)

def AssignmentInput.interested (input : AssignmentInput) (topic : Bytes) : List Bytes :=
  (input.members.entries.filter fun entry => entry.2.contains topic).map (·.1)

def rangeTopic (input : AssignmentInput) (assignment : OrderedMap Bytes (List TopicPartition))
    (topic : Bytes) (count : Int) : OrderedMap Bytes (List TopicPartition) :=
  let interested := input.interested topic
  if interested = [] ∨ count ≤ 0 then assignment
  else takeBlocks topic (count / interested.length) (count % interested.length) 0 0 interested assignment

def assignRange (input : AssignmentInput) : OrderedMap Bytes (List TopicPartition) :=
  input.partitionCounts.entries.foldl
    (fun assignment entry => rangeTopic input assignment entry.1 entry.2) (emptyShares input.memberIds)

def partitionsOf (topic : Bytes) (count : Int) : List TopicPartition :=
  (List.range count.toNat).map fun partition : Nat => ⟨topic, partition⟩

def dealRound (input : AssignmentInput) (members : List Bytes) :
    Nat → List TopicPartition → OrderedMap Bytes (List TopicPartition) →
      OrderedMap Bytes (List TopicPartition)
  | _, [], assignment => assignment
  | next, tp :: rest, assignment =>
      let candidate := fun tried => members.getD ((next + tried) % members.length) []
      match (List.range members.length).find? fun tried =>
          ((input.members.find? (candidate tried)).getD []).contains tp.topic with
      | none => dealRound input members next rest assignment
      | some tried =>
          dealRound input members ((next + tried + 1) % members.length) rest
            (push assignment (candidate tried) tp)

def assignRoundRobin (input : AssignmentInput) : OrderedMap Bytes (List TopicPartition) :=
  dealRound input input.memberIds 0
    (input.partitionCounts.entries.flatMap fun entry => partitionsOf entry.1 entry.2)
    (emptyShares input.memberIds)

def kAssignmentVersion : Int := 1

def byTopic (assigned : List TopicPartition) : OrderedMap Bytes (List Int) :=
  assigned.foldl (fun topics tp => push topics tp.topic tp.partition) OrderedMap.empty

def encodeTopics : List (Bytes × List Int) → Except Error Bytes
  | [] => .ok []
  | (topic, partitions) :: rest => do
      let name ← writeString topic
      let behind ← encodeTopics rest
      return name ++ writeInt32 partitions.length ++ partitions.flatMap writeInt32 ++ behind

def encodeAssignment (assigned : List TopicPartition) : Except Error Bytes := do
  let topics ← encodeTopics (byTopic assigned).entries
  return writeInt16 kAssignmentVersion ++ writeInt32 (byTopic assigned).entries.length ++ topics

def decodePartitions (topic : Bytes) : Nat → BufferReader → Except Error (List TopicPartition × BufferReader)
  | 0, input => .ok ([], input)
  | count + 1, input => do
      let (partition, input) ← input.readInt32
      let (rest, input) ← decodePartitions topic count input
      return (⟨topic, partition⟩ :: rest, input)

def decodeTopics : Nat → BufferReader → Except Error (List TopicPartition × BufferReader)
  | 0, input => .ok ([], input)
  | count + 1, input => do
      let (topic, input) ← readString input
      let (partitionCount, input) ← readElementCount input "partition"
      let (first, input) ← decodePartitions topic partitionCount input
      let (rest, input) ← decodeTopics count input
      return (first ++ rest, input)

def decodeAssignment (bytes : Bytes) : Except Error (List TopicPartition) :=
  if bytes = [] then .ok []
  else do
    let (version, input) ← (BufferReader.ofBytes bytes).readInt16
    if version ≠ kAssignmentVersion then
      .error (.corruptData s!"assignment: version {version}, this client knows {kAssignmentVersion}")
    else do
      let (topicCount, input) ← readElementCount input "topic"
      let (assigned, input) ← decodeTopics topicCount input
      if input.isEmpty then .ok assigned
      else .error (.corruptData s!"assignment: {input.remaining} trailing byte(s)")

section Shares

variable {input : AssignmentInput} {topic : Bytes}

def AssignmentInput.Wants (input : AssignmentInput) (member : Bytes) (tp : TopicPartition) : Prop :=
  ∃ subscription, input.members.find? member = some subscription ∧ tp.topic ∈ subscription

def AssignmentInput.Counted (input : AssignmentInput) (tp : TopicPartition) : Prop :=
  ∃ count, input.partitionCounts.find? tp.topic = some count ∧ 0 ≤ tp.partition ∧ tp.partition < count

/-- Every member has a share, of partitions there are and it wants, and no two
shares have one in common. -/
structure Divides (input : AssignmentInput) (assignment : OrderedMap Bytes (List TopicPartition)) :
    Prop where
  named : ∀ member ∈ input.memberIds, (assignment.find? member).isSome = true
  dealt : Dealt input.Wants input.Counted assignment

theorem take_block_has {member other : Bytes} {assignment : OrderedMap Bytes (List TopicPartition)}
    (has : (assignment.find? member).isSome = true) (count : Nat) (next : Int) :
    ((takeBlock topic other count next assignment).find? member).isSome = true := by
  induction count generalizing next assignment with
  | zero => exact has
  | succ count ih => exact ih (push_has has other _) (next + 1)

theorem take_blocks_has {each extra : Int} {member : Bytes}
    {assignment : OrderedMap Bytes (List TopicPartition)}
    (has : (assignment.find? member).isSome = true) (interested : List Bytes) (index : Nat) (next : Int) :
    ((takeBlocks topic each extra index next interested assignment).find? member).isSome = true := by
  induction interested generalizing index next assignment with
  | nil => exact has
  | cons first interested ih => exact ih (take_block_has has _ _) _ _

theorem range_topic_has {member : Bytes} {assignment : OrderedMap Bytes (List TopicPartition)}
    (has : (assignment.find? member).isSome = true) (count : Int) :
    ((rangeTopic input assignment topic count).find? member).isSome = true := by
  simp only [rangeTopic]
  split
  · exact has
  · exact take_blocks_has has _ _ _

theorem deal_round_has {member : Bytes} {assignment : OrderedMap Bytes (List TopicPartition)}
    (has : (assignment.find? member).isSome = true) (members : List Bytes) (all : List TopicPartition)
    (next : Nat) : ((dealRound input members next all assignment).find? member).isSome = true := by
  induction all generalizing next assignment with
  | nil => exact has
  | cons tp all ih =>
      simp only [dealRound]
      split
      · exact ih has next
      · exact ih (push_has has _ tp) _

theorem take_block_dealt {wants : Bytes → TopicPartition → Prop} {dealt : TopicPartition → Prop}
    {member : Bytes} {assignment : OrderedMap Bytes (List TopicPartition)}
    (holds : Dealt wants dealt assignment) (wanted : ∀ partition, wants member ⟨topic, partition⟩)
    (count : Nat) (next : Int) (fresh : ∀ partition, next ≤ partition → ¬ dealt ⟨topic, partition⟩) :
    Dealt wants (fun tp => dealt tp ∨ tp.topic = topic ∧ next ≤ tp.partition ∧ tp.partition < next + count)
      (takeBlock topic member count next assignment) := by
  induction count generalizing next assignment dealt with
  | zero => exact holds.mono fun _ was => .inl was
  | succ count ih =>
      have pushed := holds.push (fresh next le_rfl) (wanted next)
      have later : ∀ partition, next + 1 ≤ partition →
          ¬ (dealt ⟨topic, partition⟩ ∨ (⟨topic, partition⟩ : TopicPartition) = ⟨topic, next⟩) := by
        rintro partition above (was | same)
        · exact fresh partition (by omega) was
        · simp only [TopicPartition.mk.injEq] at same
          omega
      refine (ih pushed (next + 1) later).mono ?_
      rintro ⟨name, partition⟩ ((was | same) | ⟨same, above, below⟩)
      · exact .inl was
      · cases same
        exact .inr ⟨rfl, le_rfl, by push_cast; omega⟩
      · exact .inr ⟨same, by omega, by push_cast at below ⊢; omega⟩

theorem take_blocks_dealt {wants : Bytes → TopicPartition → Prop} {earlier : TopicPartition → Prop}
    {each extra : Int} (elsewhere : ∀ partition, ¬ earlier ⟨topic, partition⟩) (some_each : 0 ≤ each)
    (some_extra : 0 ≤ extra) {interested : List Bytes}
    (wanted : ∀ member ∈ interested, ∀ partition, wants member ⟨topic, partition⟩)
    {assignment : OrderedMap Bytes (List TopicPartition)} (index : Nat) {next : Int}
    (isNext : next = each * index + min (index : Int) extra)
    (holds : Dealt wants (fun tp => earlier tp ∨ tp.topic = topic ∧ 0 ≤ tp.partition ∧ tp.partition < next)
      assignment) :
    Dealt wants (fun tp => earlier tp ∨ tp.topic = topic ∧ 0 ≤ tp.partition ∧
        tp.partition < each * (index + interested.length) + min ((index : Int) + interested.length) extra)
      (takeBlocks topic each extra index next interested assignment) := by
  induction interested generalizing index next assignment with
  | nil => simpa [takeBlocks, ← isNext] using holds
  | cons member interested ih =>
      obtain ⟨take, isTake⟩ : ∃ take, take = each + if (index : Int) < extra then 1 else 0 := ⟨_, rfl⟩
      have product : 0 ≤ each * index := Int.mul_nonneg some_each (Int.natCast_nonneg index)
      have taken : 0 ≤ take := by
        split at isTake <;> omega
      have follows : next + take = each * (index + 1 : Nat) + min ((index + 1 : Nat) : Int) extra := by
        rw [isNext]
        push_cast
        rw [mul_add, mul_one]
        split at isTake <;> omega
      have fresh : ∀ partition, next ≤ partition →
          ¬ (earlier ⟨topic, partition⟩ ∨ topic = topic ∧ 0 ≤ partition ∧ partition < next) := by
        rintro partition above (was | ⟨_, _, below⟩)
        · exact elsewhere partition was
        · omega
      have block := take_block_dealt holds (wanted member List.mem_cons_self) take.toNat next fresh
      have wider : Dealt wants (fun tp => earlier tp ∨ tp.topic = topic ∧ 0 ≤ tp.partition ∧
          tp.partition < next + take) (takeBlock topic member take.toNat next assignment) := by
        apply block.mono
        rintro tp ((was | ⟨same, above, below⟩) | ⟨same, above, below⟩)
        · exact .inl was
        · exact .inr ⟨same, above, by omega⟩
        · exact .inr ⟨same, by omega, by omega⟩
      have rest := ih (fun other behind => wanted other (List.mem_cons_of_mem _ behind)) (index + 1)
        follows wider
      have shape : ((index + 1 : Nat) : Int) + interested.length = index + (member :: interested).length := by
        rw [List.length_cons]
        push_cast
        ring
      rw [shape] at rest
      subst isTake
      exact rest

theorem mem_interested {member : Bytes} (asked : member ∈ input.interested topic) (partition : Int) :
    input.Wants member ⟨topic, partition⟩ := by
  obtain ⟨⟨id, subscription⟩, inside, rfl⟩ := List.mem_map.mp asked
  obtain ⟨entry, contains⟩ := List.mem_filter.mp inside
  exact ⟨subscription, input.members.mem_entries.mp entry, by simpa using contains⟩

theorem range_topic_dealt {earlier : TopicPartition → Prop} (elsewhere : ∀ partition, ¬ earlier ⟨topic, partition⟩)
    {assignment : OrderedMap Bytes (List TopicPartition)} (holds : Dealt input.Wants earlier assignment)
    (count : Int) :
    Dealt input.Wants (fun tp => earlier tp ∨ tp.topic = topic ∧ 0 ≤ tp.partition ∧ tp.partition < count)
      (rangeTopic input assignment topic count) := by
  simp only [rangeTopic]
  split
  · exact holds.mono fun _ was => .inl was
  · next asked =>
    rw [not_or, not_le] at asked
    have some_asked : (0 : Int) < (input.interested topic).length := by
      have positive := List.length_pos_iff.mpr asked.1
      omega
    have bounded := Int.emod_lt_of_pos count some_asked
    have nonneg := Int.emod_nonneg count some_asked.ne'
    have started : Dealt input.Wants
        (fun tp => earlier tp ∨ tp.topic = topic ∧ 0 ≤ tp.partition ∧ tp.partition < 0) assignment :=
      holds.mono fun _ was => .inl was
    have dealt := take_blocks_dealt elsewhere (Int.ediv_nonneg asked.2.le some_asked.le) nonneg
      (fun member inside => mem_interested inside) 0 (by simpa using nonneg) started
    have whole : count / (input.interested topic).length * (((0 : Nat) : Int) + (input.interested topic).length) +
        min (((0 : Nat) : Int) + (input.interested topic).length) (count % (input.interested topic).length) =
          count := by
      rw [Nat.cast_zero, zero_add, min_eq_right bounded.le]
      exact Int.ediv_mul_add_emod count _
    rw [whole] at dealt
    exact dealt

theorem empty_shares_divide (input : AssignmentInput) : ∀ member ∈ input.memberIds,
    ((emptyShares input.memberIds : OrderedMap Bytes (List TopicPartition)).find? member).isSome = true := by
  intro member inside
  rw [find_empty_shares, if_pos inside]
  rfl

theorem range_topics_dealt {entries : List (Bytes × Int)}
    (sorted : entries.Pairwise fun earlier later => earlier.1 < later.1) {earlier : TopicPartition → Prop}
    (elsewhere : ∀ entry ∈ entries, ∀ partition, ¬ earlier ⟨entry.1, partition⟩)
    {assignment : OrderedMap Bytes (List TopicPartition)} (holds : Dealt input.Wants earlier assignment) :
    Dealt input.Wants (fun tp => earlier tp ∨ ∃ entry ∈ entries, tp.topic = entry.1 ∧ 0 ≤ tp.partition ∧
        tp.partition < entry.2)
      (entries.foldl (fun assignment entry => rangeTopic input assignment entry.1 entry.2) assignment) := by
  induction entries generalizing earlier assignment with
  | nil => exact holds.mono fun _ was => .inl was
  | cons entry entries ih =>
      obtain ⟨above, later⟩ := List.pairwise_cons.mp sorted
      have first := range_topic_dealt (elsewhere entry List.mem_cons_self) holds entry.2
      have others : ∀ other ∈ entries, ∀ partition,
          ¬ (earlier ⟨other.1, partition⟩ ∨ other.1 = entry.1 ∧ 0 ≤ partition ∧ partition < entry.2) := by
        rintro other behind partition (was | ⟨same, _⟩)
        · exact elsewhere other (List.mem_cons_of_mem _ behind) partition was
        · have less := above other behind
          rw [same] at less
          exact absurd less Std.lt_irrefl
      refine (ih later others first).mono ?_
      rintro tp ((was | here) | ⟨other, behind, counted⟩)
      · exact .inl was
      · exact .inr ⟨entry, List.mem_cons_self, here⟩
      · exact .inr ⟨other, List.mem_cons_of_mem _ behind, counted⟩

theorem assign_range_divides (input : AssignmentInput) : Divides input (assignRange input) := by
  constructor
  · intro member inside
    have kept : ∀ (entries : List (Bytes × Int)) (assignment : OrderedMap Bytes (List TopicPartition)),
        (assignment.find? member).isSome = true →
        ((entries.foldl (fun assignment entry => rangeTopic input assignment entry.1 entry.2)
          assignment).find? member).isSome = true := by
      intro entries
      induction entries with
      | nil => exact fun _ has => has
      | cons entry entries ih => exact fun _ has => ih _ (range_topic_has has entry.2)
    exact kept _ _ (empty_shares_divide input member inside)
  · refine (range_topics_dealt input.partitionCounts.sorted (fun _ _ _ none => none)
      (.start input.Wants input.memberIds)).mono ?_
    rintro tp (none | ⟨⟨topic, count⟩, inside, same, counted⟩)
    · exact none.elim
    · exact ⟨count, same ▸ input.partitionCounts.mem_entries.mp inside, counted⟩

theorem mem_partitions_of {count : Int} {tp : TopicPartition} :
    tp ∈ partitionsOf topic count ↔ tp.topic = topic ∧ 0 ≤ tp.partition ∧ tp.partition < count := by
  obtain ⟨name, partition⟩ := tp
  simp only [partitionsOf, List.mem_map, List.mem_range, TopicPartition.mk.injEq]
  constructor
  · rintro ⟨index, below, rfl, rfl⟩
    exact ⟨rfl, by omega, by omega⟩
  · rintro ⟨rfl, above, below⟩
    exact ⟨partition.toNat, by omega, rfl, by omega⟩

theorem partitions_distinct (topic : Bytes) (count : Int) : (partitionsOf topic count).Nodup := by
  apply List.Nodup.map _ List.nodup_range
  intro first second same
  simpa using same

theorem all_partitions_distinct (counts : OrderedMap Bytes Int) :
    (counts.entries.flatMap fun entry => partitionsOf entry.1 entry.2).Nodup := by
  apply List.nodup_flatMap.mpr
  refine ⟨fun entry _ => partitions_distinct entry.1 entry.2, counts.sorted.imp ?_⟩
  intro first second below tp inFirst inSecond
  rw [(mem_partitions_of.mp inFirst).1.symm, (mem_partitions_of.mp inSecond).1] at below
  exact absurd below Std.lt_irrefl

theorem deal_round_dealt {members : List Bytes} {dealt : TopicPartition → Prop} {all : List TopicPartition}
    (distinct : all.Nodup) (fresh : ∀ tp ∈ all, ¬ dealt tp) (next : Nat)
    {assignment : OrderedMap Bytes (List TopicPartition)} (holds : Dealt input.Wants dealt assignment) :
    Dealt input.Wants (fun tp => dealt tp ∨ tp ∈ all) (dealRound input members next all assignment) := by
  induction all generalizing dealt next assignment with
  | nil => exact holds.mono fun _ was => .inl was
  | cons tp all ih =>
      obtain ⟨new, later⟩ := List.nodup_cons.mp distinct
      have behind : ∀ other ∈ all, ¬ dealt other := fun other inside => fresh other (List.mem_cons_of_mem _ inside)
      simp only [dealRound]
      split
      · apply (ih later behind next holds).mono
        rintro other (was | inside)
        · exact .inl was
        · exact .inr (List.mem_cons_of_mem _ inside)
      · next tried found =>
        have wants := List.find?_some found
        have wanted : input.Wants (members.getD ((next + tried) % members.length) []) tp := by
          cases subscribed : input.members.find? (members.getD ((next + tried) % members.length) []) with
          | none =>
              rw [subscribed] at wants
              cases wants
          | some subscription =>
              rw [subscribed] at wants
              exact ⟨subscription, subscribed, by simpa using wants⟩
        have pushed := holds.push (fresh tp List.mem_cons_self) wanted
        have others : ∀ other ∈ all, ¬ (dealt other ∨ other = tp) := by
          rintro other inside (was | rfl)
          · exact behind other inside was
          · exact new inside
        apply (ih later others _ pushed).mono
        rintro other ((was | rfl) | inside)
        · exact .inl was
        · exact .inr List.mem_cons_self
        · exact .inr (List.mem_cons_of_mem _ inside)

theorem assign_round_robin_divides (input : AssignmentInput) : Divides input (assignRoundRobin input) := by
  constructor
  · intro member inside
    exact deal_round_has (empty_shares_divide input member inside) _ _ _
  · refine (deal_round_dealt (all_partitions_distinct input.partitionCounts) (fun _ _ none => none) 0
      (.start input.Wants input.memberIds)).mono ?_
    rintro tp (none | inside)
    · exact none.elim
    · obtain ⟨⟨topic, count⟩, entry, counted⟩ := List.mem_flatMap.mp inside
      obtain ⟨same, bounds⟩ := mem_partitions_of.mp counted
      exact ⟨count, same ▸ input.partitionCounts.mem_entries.mp entry, bounds⟩

end Shares

section Codec

theorem find_by_topic (assigned : List TopicPartition) (topic : Bytes) :
    ((byTopic assigned).find? topic).getD [] =
        (assigned.filter fun tp => decide (tp.topic = topic)).map (·.partition) ∧
      ∀ partitions, (byTopic assigned).find? topic = some partitions → partitions ≠ [] := by
  induction assigned using List.reverseRecOn with
  | nil => exact ⟨rfl, by simp [byTopic]⟩
  | append_singleton assigned tp ih =>
      have pushed : byTopic (assigned ++ [tp]) = push (byTopic assigned) tp.topic tp.partition := by
        simp [byTopic]
      rw [pushed, find_push]
      by_cases same : topic = tp.topic
      · subst same
        simp [ih.1]
      · rw [if_neg same]
        simpa [Ne.symm same] using ih

theorem mem_by_topic (assigned : List TopicPartition) (tp : TopicPartition) :
    (∃ entry ∈ (byTopic assigned).entries, tp.topic = entry.1 ∧ tp.partition ∈ entry.2) ↔ tp ∈ assigned := by
  have collected := (find_by_topic assigned tp.topic).1
  have inside : tp.partition ∈ ((byTopic assigned).find? tp.topic).getD [] ↔ tp ∈ assigned := by
    rw [collected]
    obtain ⟨topic, partition⟩ := tp
    simp only [List.mem_map, List.mem_filter, decide_eq_true_eq]
    constructor
    · rintro ⟨⟨_, _⟩, ⟨member, rfl⟩, rfl⟩
      exact member
    · intro member
      exact ⟨_, ⟨member, rfl⟩, rfl⟩
  rw [← inside]
  constructor
  · rintro ⟨⟨topic, partitions⟩, entry, rfl, member⟩
    rw [(byTopic assigned).mem_entries.mp entry]
    exact member
  · intro member
    cases found : (byTopic assigned).find? tp.topic with
    | none => simp [found] at member
    | some partitions =>
        refine ⟨(tp.topic, partitions), (byTopic assigned).mem_entries.mpr found, rfl, ?_⟩
        simpa [found] using member

theorem decode_partitions_write (topic : Bytes) {partitions : List Int}
    (fit : ∀ partition ∈ partitions, FitsSigned 32 partition) (position : Nat) (rest : Bytes) :
    ∃ after, decodePartitions topic partitions.length ⟨position, partitions.flatMap writeInt32 ++ rest⟩ =
      .ok (partitions.map (⟨topic, ·⟩), ⟨after, rest⟩) := by
  induction partitions generalizing position with
  | nil => exact ⟨position, rfl⟩
  | cons partition partitions ih =>
      simp only [List.forall_mem_cons] at fit
      obtain ⟨after, later⟩ := ih fit.2 (position + 32 / 8)
      refine ⟨after, ?_⟩
      simp only [List.length_cons, decodePartitions, List.flatMap_cons, List.append_assoc,
        BufferReader.readInt32, writeInt32]
      rw [BufferReader.read_int_write_int 32 position ⟨4, rfl⟩ (by norm_num) partition fit.1]
      simp only [writeInt32] at later
      simp only [except_ok_bind, later]
      rfl

theorem written_partitions_length (partitions : List Int) :
    (partitions.flatMap writeInt32).length = 4 * partitions.length := by
  induction partitions with
  | nil => rfl
  | cons partition partitions ih =>
      rw [List.flatMap_cons, List.length_append, ih, List.length_cons]
      simp [writeInt32, writeInt]
      omega

def spread (entries : List (Bytes × List Int)) : List TopicPartition :=
  entries.flatMap fun entry => entry.2.map (⟨entry.1, ·⟩)

/-- Topics that can be counted are read back; behind some but not all of them
there are bytes left. -/
theorem decode_topics_write {entries : List (Bytes × List Int)} {written : Bytes}
    (wrote : encodeTopics entries = .ok written) (fit : ∀ entry ∈ entries, entry.2.length < 2 ^ 31 ∧
      ∀ partition ∈ entry.2, FitsSigned 32 partition) {count : Nat} (within : count ≤ entries.length)
    (position : Nat) :
    ∃ after left, decodeTopics count ⟨position, written⟩ = .ok (spread (entries.take count), ⟨after, left⟩) ∧
      (left = [] ↔ count = entries.length) := by
  induction entries generalizing written count position with
  | nil =>
      cases Nat.le_zero.mp within
      exact ⟨position, written, rfl, iff_of_true (Except.ok.inj wrote).symm rfl⟩
  | cons entry entries ih =>
      obtain ⟨topic, partitions⟩ := entry
      obtain ⟨name, wroteName, wrote⟩ := except_bind_ok wrote
      obtain ⟨behind, wroteBehind, wrote⟩ := except_bind_ok wrote
      cases Except.ok.inj wrote
      simp only [List.forall_mem_cons] at fit
      cases count with
      | zero =>
          refine ⟨position, _, rfl, iff_of_false ?_ (by simp)⟩
          simp [writeInt32, writeInt, beBytes]
      | succ count =>
          obtain ⟨⟨short, each⟩, later⟩ := fit
          have counted : count ≤ entries.length := Nat.le_of_succ_le_succ within
          obtain ⟨middle, readEach⟩ := decode_partitions_write topic each (position + name.length + 4) behind
          obtain ⟨after, left, decoded, ends⟩ := ih wroteBehind later counted middle
          refine ⟨after, left, ?_, by rw [ends, List.length_cons, Nat.add_right_cancel_iff]⟩
          have room : partitions.length ≤ (partitions.flatMap writeInt32 ++ behind).length := by
            have written := written_partitions_length partitions
            rw [List.length_append]
            omega
          simp only [decodeTopics, List.append_assoc, read_string_write wroteName, except_ok_bind,
            read_element_count_write short _ room, readEach, decoded]
          rfl

/-- What a share is, so that its bytes say it. -/
structure Encodable (assigned : List TopicPartition) : Prop where
  distinct : assigned.Nodup
  bounded : ∃ counts : Bytes → Int, ∀ tp ∈ assigned,
    counts tp.topic < 2 ^ 31 ∧ 0 ≤ tp.partition ∧ tp.partition < counts tp.topic

theorem entries_distinct {assigned : List TopicPartition} (distinct : assigned.Nodup) :
    ∀ entry ∈ (byTopic assigned).entries, entry.2.Nodup := by
  rintro ⟨topic, partitions⟩ inside
  have collected := (find_by_topic assigned topic).1
  rw [(byTopic assigned).mem_entries.mp inside, Option.getD_some] at collected
  rw [collected]
  apply List.Nodup.map_on _ (distinct.filter _)
  rintro ⟨firstTopic, first⟩ inFirst ⟨secondTopic, second⟩ inSecond same
  have firstHere := (List.mem_filter.mp inFirst).2
  have secondHere := (List.mem_filter.mp inSecond).2
  simp only [decide_eq_true_eq] at firstHere secondHere same
  rw [firstHere, secondHere, same]

theorem encodable_entries {assigned : List TopicPartition} (encodable : Encodable assigned) :
    ∀ entry ∈ (byTopic assigned).entries, entry.2.length < 2 ^ 31 ∧
      ∀ partition ∈ entry.2, FitsSigned 32 partition := by
  rintro ⟨topic, partitions⟩ inside
  obtain ⟨counts, bounded⟩ := encodable.bounded
  have occupied := (find_by_topic assigned topic).2
  have found := (byTopic assigned).mem_entries.mp inside
  have each : ∀ partition ∈ partitions, counts topic < 2 ^ 31 ∧ 0 ≤ partition ∧ partition < counts topic := by
    intro partition member
    have here := (mem_by_topic assigned ⟨topic, partition⟩).mp ⟨_, inside, rfl, member⟩
    exact bounded _ here
  have distinct : partitions.Nodup := entries_distinct encodable.distinct _ inside
  constructor
  · obtain ⟨partition, member⟩ := List.exists_mem_of_ne_nil partitions (occupied _ found)
    have limit := (each partition member).1
    have small : (partitions.map Int.toNat).Subperm (List.range (counts topic).toNat) := by
      apply List.subperm_of_subset
      · apply List.Nodup.map_on _ distinct
        intro first inFirst second inSecond same
        have firstBounds := each first inFirst
        have secondBounds := each second inSecond
        omega
      · intro index inIndex
        obtain ⟨other, inOther, rfl⟩ := List.mem_map.mp inIndex
        have bounds := each other inOther
        rw [List.mem_range]
        omega
    have length := small.length_le
    rw [List.length_map, List.length_range] at length
    have below : partitions.length < 2 ^ 31 := by omega
    exact below
  · intro partition member
    have bounds := each partition member
    unfold FitsSigned
    omega

/-- Bringing a share's partitions together by topic repeats none of them. -/
theorem spread_distinct {assigned : List TopicPartition} (distinct : assigned.Nodup) :
    (spread (byTopic assigned).entries).Nodup := by
  apply List.nodup_flatMap.mpr
  constructor
  · intro entry inside
    apply (entries_distinct distinct entry inside).map
    intro first second same
    simpa using same
  · apply (byTopic assigned).sorted.imp
    intro first second below tp inFirst inSecond
    obtain ⟨_, _, isFirst⟩ := List.mem_map.mp inFirst
    obtain ⟨_, _, isSecond⟩ := List.mem_map.mp inSecond
    have isSame : first.1 = second.1 := congrArg TopicPartition.topic (isFirst.trans isSecond.symm)
    rw [isSame] at below
    exact absurd below Std.lt_irrefl

theorem mem_spread {assigned : List TopicPartition} {tp : TopicPartition} :
    tp ∈ spread (byTopic assigned).entries ↔ tp ∈ assigned := by
  rw [← mem_by_topic assigned tp]
  obtain ⟨topic, partition⟩ := tp
  simp only [spread, List.mem_flatMap, List.mem_map, TopicPartition.mk.injEq]
  constructor
  · rintro ⟨entry, inside, other, member, rfl, rfl⟩
    exact ⟨entry, inside, rfl, member⟩
  · rintro ⟨entry, inside, rfl, member⟩
    exact ⟨entry, inside, partition, member, rfl, rfl⟩

/-- Behind the version of an encoded share are the count of its topics and the topics. -/
theorem decode_assignment_opens {assigned : List TopicPartition} {bytes : Bytes}
    (encoded : encodeAssignment assigned = .ok bytes) :
    ∃ topics, encodeTopics (byTopic assigned).entries = .ok topics ∧
      decodeAssignment bytes = (do
        let (count, input) ← readElementCount
          ⟨2, writeInt32 (byTopic assigned).entries.length ++ topics⟩ "topic"
        let (held, input) ← decodeTopics count input
        if input.isEmpty then .ok held
        else .error (.corruptData s!"assignment: {input.remaining} trailing byte(s)")) := by
  obtain ⟨topics, wrote, made⟩ := except_bind_ok encoded
  cases Except.ok.inj made
  refine ⟨topics, wrote, ?_⟩
  have occupied : writeInt16 kAssignmentVersion ++ writeInt32 (byTopic assigned).entries.length ++ topics ≠ [] := by
    simp [writeInt16, writeInt, beBytes]
  rw [decodeAssignment, if_neg occupied]
  simp only [BufferReader.ofBytes, List.append_assoc, BufferReader.readInt16, writeInt16]
  rw [BufferReader.read_int_write_int 16 0 ⟨2, rfl⟩ (by norm_num) _ (by decide)]
  simp only [except_ok_bind, ne_eq, not_true_eq_false, if_false]

theorem decode_assignment_encode {assigned held : List TopicPartition} (encodable : Encodable assigned)
    {bytes : Bytes} (encoded : encodeAssignment assigned = .ok bytes)
    (decoded : decodeAssignment bytes = .ok held) (tp : TopicPartition) : tp ∈ held ↔ tp ∈ assigned := by
  obtain ⟨topics, wrote, opens⟩ := decode_assignment_opens encoded
  rw [opens] at decoded
  obtain ⟨⟨count, input⟩, counted, decoded⟩ := except_bind_ok decoded
  obtain ⟨within, rfl⟩ := read_element_count_le counted
  obtain ⟨after, left, read, ends⟩ := decode_topics_write wrote (encodable_entries encodable) within (2 + 4)
  simp only [read, except_ok_bind] at decoded
  split at decoded
  · next nothing =>
    cases decoded
    have whole := ends.mp (List.isEmpty_iff.mp nothing)
    rw [whole, List.take_length]
    exact mem_spread
  · cases decoded

theorem encode_topics_room {entries : List (Bytes × List Int)} {topics : Bytes}
    (wrote : encodeTopics entries = .ok topics) : entries.length ≤ topics.length := by
  induction entries generalizing topics with
  | nil => exact Nat.zero_le _
  | cons entry entries ih =>
      obtain ⟨name, _, wrote⟩ := except_bind_ok wrote
      obtain ⟨behind, wroteBehind, wrote⟩ := except_bind_ok wrote
      cases Except.ok.inj wrote
      have behindRoom := ih wroteBehind
      simp only [List.length_cons, List.length_append, writeInt32, writeInt, be_bytes_length]
      omega

theorem decode_assignment_write {assigned : List TopicPartition}
    (fit : ∀ entry ∈ (byTopic assigned).entries, entry.2.length < 2 ^ 31 ∧
      ∀ partition ∈ entry.2, FitsSigned 32 partition)
    (short : (byTopic assigned).entries.length < 2 ^ 31) {bytes : Bytes}
    (encoded : encodeAssignment assigned = .ok bytes) :
    decodeAssignment bytes = .ok (spread (byTopic assigned).entries) := by
  obtain ⟨topics, wrote, opens⟩ := decode_assignment_opens encoded
  obtain ⟨after, left, read, ends⟩ := decode_topics_write wrote fit le_rfl (2 + 4)
  have nothing := ends.mpr rfl
  subst nothing
  rw [opens, read_element_count_write short _ (encode_topics_room wrote)]
  simp only [except_ok_bind, read, List.take_length]
  rfl

end Codec

end DariyaKyu.Cli

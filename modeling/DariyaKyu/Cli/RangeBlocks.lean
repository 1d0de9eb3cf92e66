import DariyaKyu.Cli.Coverage

/-!
What `assignRange` gives to whom: of each topic the members that asked for it get
one interval each, in the order of their ids, none longer than another by more
than one. The loop counts its members in 32 bits, and for a topic with more
subscribers than that the intervals no longer end where the topic does.
-/

namespace DariyaKyu.Cli

set_option autoImplicit false

open Dealing Groups Protocol

def interval (topic : Bytes) (low high : Int) : List TopicPartition :=
  (List.range (high - low).toNat).map fun offset : Nat => ⟨topic, low + offset⟩

def blockStart (each extra : Int) (index : Nat) : Int := each * index + min (index : Int) extra

def rangeBlock (input : AssignmentInput) (topic : Bytes) (count : Int) (member : Bytes) : List TopicPartition :=
  let interested := input.interested topic
  let start := blockStart (count / interested.length) (count % interested.length)
  if member ∈ interested ∧ 0 < count then
    interval topic (start (interested.idxOf member)) (start (interested.idxOf member + 1))
  else []

section Blocks

variable {input : AssignmentInput} {topic : Bytes} {each extra : Int}

@[simp] theorem interval_length (low high : Int) : (interval topic low high).length = (high - low).toNat := by
  rw [interval, List.length_map, List.length_range]

theorem interval_empty {low high : Int} (nothing : high ≤ low) : interval topic low high = [] := by
  rw [interval, Int.toNat_of_nonpos (by omega), List.range_zero, List.map_nil]

theorem interval_cons {low high : Int} (some_first : low < high) :
    interval topic low high = ⟨topic, low⟩ :: interval topic (low + 1) high := by
  have size : (high - low).toNat = (high - (low + 1)).toNat + 1 := by omega
  rw [interval, size, List.range_succ_eq_map, List.map_cons, List.map_map, interval]
  congr 1
  · simp
  · apply List.map_congr_left
    intro offset _
    simp only [Function.comp_apply, TopicPartition.mk.injEq, true_and]
    push_cast
    ring

theorem mem_interval {low high : Int} {tp : TopicPartition} (inside : tp ∈ interval topic low high) :
    tp.topic = topic ∧ low ≤ tp.partition ∧ tp.partition < high := by
  obtain ⟨offset, below, rfl⟩ := List.mem_map.mp inside
  have bound := List.mem_range.mp below
  refine ⟨rfl, ?_, ?_⟩
  · exact Int.le_add_of_nonneg_right (Int.natCast_nonneg offset)
  · change low + (offset : Int) < high
    omega

theorem block_start_succ (index : Nat) :
    blockStart each extra (index + 1) = blockStart each extra index + (each + if (index : Int) < extra then 1 else 0) := by
  unfold blockStart
  push_cast
  rw [mul_add, mul_one]
  split <;> omega

theorem block_start_mono (some_each : 0 ≤ each) {first second : Nat} (before : first ≤ second) :
    blockStart each extra first ≤ blockStart each extra second := by
  induction second, before using Nat.le_induction with
  | base => exact le_rfl
  | succ second _ ih =>
      rw [block_start_succ]
      split <;> omega

theorem take_block_share (member other : Bytes) (count : Nat) (next : Int)
    (assignment : OrderedMap Bytes (List TopicPartition)) :
    share (takeBlock topic member count next assignment) other =
      share assignment other ++ if other = member then interval topic next (next + count) else [] := by
  induction count generalizing next assignment with
  | zero => simp [takeBlock, interval_empty]
  | succ count ih =>
      have upTo : next + ((count + 1 : Nat) : Int) = next + 1 + count := by
        push_cast
        ring
      have first := @interval_cons topic next (next + 1 + count) (by omega)
      rw [takeBlock, ih, share_push, upTo, first, List.append_assoc]
      split
      · rfl
      · rfl

theorem take_blocks_share (some_each : 0 ≤ each) {interested : List Bytes} (distinct : interested.Nodup)
    (index : Nat) {next : Int} (isNext : next = blockStart each extra index)
    (assignment : OrderedMap Bytes (List TopicPartition)) (member : Bytes) :
    share (takeBlocks topic each extra index next interested assignment) member =
      share assignment member ++
        if member ∈ interested then
          interval topic (blockStart each extra (index + interested.idxOf member))
            (blockStart each extra (index + interested.idxOf member + 1))
        else [] := by
  induction interested generalizing index next assignment with
  | nil => simp [takeBlocks]
  | cons first interested ih =>
      obtain ⟨new, later⟩ := List.nodup_cons.mp distinct
      have follows : next + (each + if (index : Int) < extra then 1 else 0) = blockStart each extra (index + 1) := by
        rw [isNext, block_start_succ]
      have taken : 0 ≤ each + if (index : Int) < extra then 1 else 0 := by
        split <;> omega
      rw [takeBlocks, ih later (index + 1) follows, take_block_share, Int.toNat_of_nonneg taken, follows]
      by_cases same : member = first
      · subst same
        simp [new, isNext]
      · have behind : (first :: interested).idxOf member = interested.idxOf member + 1 :=
          List.idxOf_cons_ne _ (Ne.symm same)
        simp only [same, if_false, List.append_nil, List.mem_cons, false_or, behind,
          show index + 1 + interested.idxOf member = index + (interested.idxOf member + 1) by omega]

end Blocks

section Topics

variable {input : AssignmentInput} {topic : Bytes}

theorem interested_sorted (input : AssignmentInput) (topic : Bytes) :
    (input.interested topic).Pairwise (· < ·) := by
  apply List.pairwise_map.mpr
  exact input.members.sorted.filter _

theorem interested_distinct (input : AssignmentInput) (topic : Bytes) : (input.interested topic).Nodup := by
  apply (interested_sorted input topic).imp
  intro first second below same
  rw [same] at below
  exact Std.lt_irrefl below

theorem range_topic_share (assignment : OrderedMap Bytes (List TopicPartition)) (count : Int) (member : Bytes) :
    share (rangeTopic input assignment topic count) member =
      share assignment member ++ rangeBlock input topic count member := by
  simp only [rangeTopic, rangeBlock]
  split
  · next nothing =>
    rw [if_neg, List.append_nil]
    rintro ⟨asked, some_count⟩
    rcases nothing with nobody | none
    · rw [nobody] at asked
      cases asked
    · omega
  · next asked =>
    rw [not_or, not_le] at asked
    have some_asked : (0 : Int) < (input.interested topic).length := by
      have positive := List.length_pos_iff.mpr asked.1
      omega
    have nonneg := Int.emod_nonneg count some_asked.ne'
    have started : (0 : Int) = blockStart (count / (input.interested topic).length)
        (count % (input.interested topic).length) 0 := by
      simp [blockStart, nonneg]
    rw [take_blocks_share (Int.ediv_nonneg asked.2.le some_asked.le) (interested_distinct input topic) 0 started]
    simp only [Nat.zero_add, asked.2, and_true]

theorem assign_range_share (input : AssignmentInput) (member : Bytes) :
    share (assignRange input) member =
      input.partitionCounts.entries.flatMap fun entry => rangeBlock input entry.1 entry.2 member := by
  have folded : ∀ (entries : List (Bytes × Int)) (assignment : OrderedMap Bytes (List TopicPartition)),
      share (entries.foldl (fun assignment entry => rangeTopic input assignment entry.1 entry.2) assignment)
          member =
        share assignment member ++ entries.flatMap fun entry => rangeBlock input entry.1 entry.2 member := by
    intro entries
    induction entries with
    | nil => simp
    | cons entry entries ih =>
        intro assignment
        rw [List.foldl_cons, ih, range_topic_share, List.flatMap_cons, List.append_assoc]
  rw [assignRange, folded, share_empty, List.nil_append]

theorem filter_range_block (name : Bytes) (count : Int) (member : Bytes) :
    (rangeBlock input topic count member).filter (fun tp => decide (tp.topic = name)) =
      if topic = name then rangeBlock input topic count member else [] := by
  have ofTopic : ∀ tp ∈ rangeBlock input topic count member, tp.topic = topic := by
    intro tp inside
    simp only [rangeBlock] at inside
    split at inside
    · exact (mem_interval inside).1
    · cases inside
  split
  · next same =>
    apply List.filter_eq_self.mpr
    intro tp inside
    simp [ofTopic tp inside, same]
  · next different =>
    apply List.filter_eq_nil_iff.mpr
    intro tp inside
    simp [ofTopic tp inside, different]

def topicShare (assignment : OrderedMap Bytes (List TopicPartition)) (member topic : Bytes) : List TopicPartition :=
  (share assignment member).filter fun tp => decide (tp.topic = topic)

theorem range_topic_share_of (input : AssignmentInput) (member topic : Bytes) :
    topicShare (assignRange input) member topic =
      ((input.partitionCounts.find? topic).map fun count => rangeBlock input topic count member).getD [] := by
  rw [topicShare, assign_range_share, List.filter_flatMap]
  simp only [filter_range_block]
  exact input.partitionCounts.flat_map_only topic fun topic count => rangeBlock input topic count member

end Topics

/-- The blocks of every topic: who has an entry, what is in it, and how the
partitions of one topic lie in the entries. -/
structure RangeAssigned (input : AssignmentInput) (assignment : OrderedMap Bytes (List TopicPartition)) : Prop where
  named : ∀ member ∈ input.memberIds, (assignment.find? member).isSome = true
  subscribed : ∀ member items, assignment.find? member = some items → ∀ tp ∈ items,
    input.Wants member tp ∧ input.Counted tp
  once : ∀ tp, input.Asked tp.topic → input.Counted tp → ∃ member items,
    assignment.find? member = some items ∧ items.count tp = 1 ∧
      ∀ other others, assignment.find? other = some others → tp ∈ others → other = member
  contiguous : ∀ member topic, ∃ low high, topicShare assignment member topic = interval topic low high
  ordered : ∀ first second topic, first < second → ∀ one ∈ topicShare assignment first topic,
    ∀ other ∈ topicShare assignment second topic, one.partition < other.partition
  balanced : ∀ topic, ∀ first ∈ input.interested topic, ∀ second ∈ input.interested topic,
    (topicShare assignment first topic).length ≤ (topicShare assignment second topic).length + 1

section Assigned

variable {input : AssignmentInput}

/-- What is dealt out to those who want it and held by somebody is held by one. -/
theorem Divides.once {assignment : OrderedMap Bytes (List TopicPartition)} (divides : Divides input assignment)
    {tp : TopicPartition} (held : Held assignment tp) : ∃ member items,
      assignment.find? member = some items ∧ items.count tp = 1 ∧
        ∀ other others, assignment.find? other = some others → tp ∈ others → other = member := by
  obtain ⟨member, items, found, inside⟩ := held
  refine ⟨member, items, found, List.count_eq_one_of_mem (divides.dealt.once member items found) inside, ?_⟩
  intro other others foundOther also
  by_contra different
  exact divides.dealt.apart other member others items different foundOther found tp also inside

theorem Divides.subscribed {assignment : OrderedMap Bytes (List TopicPartition)} (divides : Divides input assignment)
    {member : Bytes} {items : List TopicPartition} (found : assignment.find? member = some items)
    {tp : TopicPartition} (inside : tp ∈ items) : input.Wants member tp ∧ input.Counted tp :=
  ⟨divides.dealt.wanted member items found tp inside, divides.dealt.among member items found tp inside⟩

theorem idx_of_lt {ids : List Bytes} (sorted : ids.Pairwise (· < ·)) {first second : Bytes} (isFirst : first ∈ ids)
    (isSecond : second ∈ ids) (below : first < second) : ids.idxOf first < ids.idxOf second := by
  by_contra after
  rcases Nat.lt_or_eq_of_le (not_lt.mp after) with before | same
  · have reversed := List.pairwise_iff_getElem.mp sorted (ids.idxOf second) (ids.idxOf first)
      (List.idxOf_lt_length_of_mem isSecond) (List.idxOf_lt_length_of_mem isFirst) before
    rw [List.getElem_idxOf, List.getElem_idxOf] at reversed
    exact Std.lt_irrefl (Std.lt_trans below reversed)
  · have equal := List.idxOf_inj isSecond |>.mp same
    rw [equal] at below
    exact Std.lt_irrefl below

theorem range_block_length {topic : Bytes} {count : Int} {member : Bytes} (asked : member ∈ input.interested topic)
    (some_count : 0 < count) :
    count / (input.interested topic).length ≤ (rangeBlock input topic count member).length ∧
      ((rangeBlock input topic count member).length : Int) ≤ count / (input.interested topic).length + 1 := by
  have nonneg : 0 ≤ count / ((input.interested topic).length : Int) :=
    Int.ediv_nonneg some_count.le (Int.natCast_nonneg _)
  simp only [rangeBlock, asked, some_count, and_self, if_true, interval_length, block_start_succ]
  split <;> omega

theorem assign_range_assigned (input : AssignmentInput) : RangeAssigned input (assignRange input) := by
  have divides := assign_range_divides input
  refine ⟨divides.named, ?subscribed, ?once, ?contiguous, ?ordered, ?balanced⟩
  case subscribed => exact fun member items found tp inside => divides.subscribed found inside
  case once => exact fun tp asked counted => divides.once (assign_range_held asked counted)
  case contiguous =>
    intro member topic
    rw [range_topic_share_of]
    cases input.partitionCounts.find? topic with
    | none => exact ⟨0, 0, (interval_empty le_rfl).symm⟩
    | some count =>
        simp only [Option.map_some, Option.getD_some, rangeBlock]
        split
        · exact ⟨_, _, rfl⟩
        · exact ⟨0, 0, (interval_empty le_rfl).symm⟩
  case ordered =>
    intro first second topic below one inFirst other inSecond
    rw [range_topic_share_of] at inFirst inSecond
    cases found : input.partitionCounts.find? topic with
    | none =>
        rw [found] at inFirst
        cases inFirst
    | some count =>
        simp only [found, Option.map_some, Option.getD_some, rangeBlock] at inFirst inSecond
        split at inFirst
        · next isFirst =>
          split at inSecond
          · next isSecond =>
            have places := idx_of_lt (interested_sorted input topic) isFirst.1 isSecond.1 below
            have each : 0 ≤ count / ((input.interested topic).length : Int) :=
              Int.ediv_nonneg isFirst.2.le (Int.natCast_nonneg _)
            have upTo := (mem_interval inFirst).2.2
            have from_second := (mem_interval inSecond).2.1
            exact upTo.trans_le ((block_start_mono each places).trans from_second)
          · cases inSecond
        · cases inFirst
  case balanced =>
    intro topic first isFirst second isSecond
    rw [range_topic_share_of, range_topic_share_of]
    cases input.partitionCounts.find? topic with
    | none => exact Nat.zero_le _
    | some count =>
        simp only [Option.map_some, Option.getD_some]
        by_cases some_count : 0 < count
        · have most := (range_block_length isFirst some_count).2
          have least := (range_block_length isSecond some_count).1
          omega
        · simp [rangeBlock, some_count]

end Assigned

section Registers

def asInt32 (value : Nat) : Int := asSigned 32 (value % 2 ^ 32)

/-- The loop of `takeBlocks` with its index cast to 32 bits; a negative number of
partitions is none. -/
def takeBlocksInt32 (topic : Bytes) (each extra : Int) :
    Nat → Int → List Bytes → OrderedMap Bytes (List TopicPartition) →
      OrderedMap Bytes (List TopicPartition)
  | _, _, [], assignment => assignment
  | index, next, member :: interested, assignment =>
      let take := each + if asInt32 index < extra then 1 else 0
      takeBlocksInt32 topic each extra (index + 1) (next + take.toNat) interested
        (takeBlock topic member take.toNat next assignment)

def rangeTopicInt32 (input : AssignmentInput) (assignment : OrderedMap Bytes (List TopicPartition))
    (topic : Bytes) (count : Int) : OrderedMap Bytes (List TopicPartition) :=
  let interested := input.interested topic
  if interested = [] ∨ count ≤ 0 then assignment
  else
    takeBlocksInt32 topic (count.tdiv (asInt32 interested.length)) (count.tmod (asInt32 interested.length)) 0 0
      interested assignment

def assignRangeInt32 (input : AssignmentInput) : OrderedMap Bytes (List TopicPartition) :=
  input.partitionCounts.entries.foldl
    (fun assignment entry => rangeTopicInt32 input assignment entry.1 entry.2) (emptyShares input.memberIds)

/-- As many members of a topic as the registers can tell apart, and counts that fit them. -/
structure AssignmentInput.Registers (input : AssignmentInput) : Prop where
  members : ∀ topic, (input.interested topic).length ≤ 2 ^ 31
  counts : ∀ topic count, input.partitionCounts.find? topic = some count → FitsSigned 32 count

variable {input : AssignmentInput} {topic : Bytes}

theorem as_int32_small {value : Nat} (small : value < 2 ^ 31) : asInt32 value = value := by
  unfold asInt32 asSigned
  split <;> omega

theorem take_blocks_int32 {each extra : Int} (some_each : 0 ≤ each) {interested : List Bytes} (index : Nat)
    (few : index + interested.length ≤ 2 ^ 31) (next : Int) (assignment : OrderedMap Bytes (List TopicPartition)) :
    takeBlocksInt32 topic each extra index next interested assignment =
      takeBlocks topic each extra index next interested assignment := by
  induction interested generalizing index next assignment with
  | nil => rfl
  | cons member interested ih =>
      rw [List.length_cons] at few
      have taken : 0 ≤ each + if (index : Int) < extra then 1 else 0 := by
        split <;> omega
      simp only [takeBlocksInt32, takeBlocks]
      rw [as_int32_small (by omega), ih (index + 1) (by omega), Int.toNat_of_nonneg taken]

/-- Exactly 2^31 subscribers are counted as minus 2^31, and the quotient and the
remainder come out the same. -/
theorem quotients_int32 {count : Int} {size : Nat} (some_count : 0 < count) (fits : FitsSigned 32 count)
    (some_size : 0 < size) (few : size ≤ 2 ^ 31) :
    count.tdiv (asInt32 size) = count / size ∧ count.tmod (asInt32 size) = count % size := by
  obtain ⟨_, below⟩ := fits
  rcases Nat.lt_or_eq_of_le few with small | rfl
  · rw [as_int32_small small]
    exact ⟨Int.tdiv_eq_ediv_of_nonneg some_count.le, Int.tmod_eq_emod_of_nonneg some_count.le⟩
  · have negative : asInt32 (2 ^ 31) = -((2 ^ 31 : Nat) : Int) := by decide
    have below : count < ((2 ^ 31 : Nat) : Int) := by
      push_cast
      exact below
    rw [negative, Int.tdiv_neg, Int.tmod_neg, Int.tdiv_eq_zero_of_lt some_count.le below,
      Int.tmod_eq_of_lt some_count.le below, Int.ediv_eq_zero_of_lt some_count.le below,
      Int.emod_eq_of_lt some_count.le below]
    exact ⟨neg_zero, rfl⟩

theorem assign_range_int32 (registers : input.Registers) : assignRangeInt32 input = assignRange input := by
  have each : ∀ entry ∈ input.partitionCounts.entries, ∀ assignment,
      rangeTopicInt32 input assignment entry.1 entry.2 = rangeTopic input assignment entry.1 entry.2 := by
    rintro ⟨topic, count⟩ inside assignment
    have fits := registers.counts topic count (input.partitionCounts.mem_entries.mp inside)
    simp only [rangeTopicInt32, rangeTopic]
    split
    · rfl
    · next asked =>
      rw [not_or, not_le] at asked
      have some_asked := List.length_pos_iff.mpr asked.1
      obtain ⟨quotient, remainder⟩ := quotients_int32 asked.2 fits some_asked (registers.members topic)
      rw [quotient, remainder]
      apply take_blocks_int32 (Int.ediv_nonneg asked.2.le (Int.natCast_nonneg _))
      rw [Nat.zero_add]
      exact registers.members topic
  exact List.foldl_ext _ _ _ fun assignment entry inside => each entry inside assignment

end Registers

theorem assign_range_blocks (input : AssignmentInput) (registers : input.Registers) :
    RangeAssigned input (assignRangeInt32 input) := by
  rw [assign_range_int32 registers]
  exact assign_range_assigned input

/-- Two members and three partitions. -/
theorem assign_range_blocks_three :
    let input : AssignmentInput :=
      ⟨⟨[([97], [[116]]), ([98], [[116]])], by decide⟩, ⟨[([116], 3)], by decide⟩⟩
    RangeAssigned input (assignRangeInt32 input) := by
  intro input
  apply assign_range_blocks
  constructor
  · intro topic
    have few : (input.interested topic).length ≤ 2 := by
      rw [AssignmentInput.interested, List.length_map]
      exact List.length_filter_le _ _
    omega
  · intro topic count found
    have entry := input.partitionCounts.mem_entries.mpr found
    have only : (topic, count) = ([116], 3) := List.mem_singleton.mp entry
    rw [(Prod.mk.inj only).2]
    decide

section Crowd

variable {topic : Bytes}

/-- Behind the first subscriber nobody gets anything, as long as the index is positive. -/
theorem take_blocks_int32_nothing {front : List Bytes} (back : List Bytes) {index : Nat} (positive : 1 ≤ index)
    (few : index + front.length ≤ 2 ^ 31) (next : Int) (assignment : OrderedMap Bytes (List TopicPartition)) :
    takeBlocksInt32 topic 0 1 index next (front ++ back) assignment =
      takeBlocksInt32 topic 0 1 (index + front.length) next back assignment := by
  induction front generalizing index with
  | nil => rfl
  | cons member front ih =>
      rw [List.length_cons] at few ⊢
      have none : ¬ asInt32 index < 1 := by
        rw [as_int32_small (by omega)]
        omega
      rw [List.cons_append, takeBlocksInt32]
      simp only [none, if_false, add_zero, Int.toNat_zero, takeBlock, Nat.cast_zero]
      rw [ih (by omega) (by omega), Nat.add_right_comm, Nat.add_assoc]

/-- One subscriber too many for the registers is given a partition that is not there. -/
theorem crowd_overflows {input : AssignmentInput} (crowded : (input.interested topic).length = 2 ^ 31 + 1)
    (counts : input.partitionCounts.entries = [(topic, 1)]) :
    ∃ member, ⟨topic, 1⟩ ∈ share (assignRangeInt32 input) member := by
  obtain ⟨first, rest, isFirst⟩ := List.exists_cons_of_length_eq_add_one crowded
  have length : rest.length = 2 ^ 31 := by
    rw [isFirst, List.length_cons] at crowded
    omega
  rcases List.eq_nil_or_concat rest with rfl | ⟨middle, last, rfl⟩
  · cases length
  rw [List.concat_eq_append] at isFirst length
  have front : middle.length = 2 ^ 31 - 1 := by
    rw [List.length_append, List.length_singleton] at length
    omega
  refine ⟨last, ?_⟩
  have taken : ∀ assignment : OrderedMap Bytes (List TopicPartition), ∃ before,
      rangeTopicInt32 input assignment topic 1 = push before last ⟨topic, 1⟩ := by
    intro assignment
    have asked : ¬ (input.interested topic = [] ∨ (1 : Int) ≤ 0) := by simp [isFirst]
    have quotient : (1 : Int).tdiv (asInt32 (2 ^ 31 + 1)) = 0 := by decide
    have remainder : (1 : Int).tmod (asInt32 (2 ^ 31 + 1)) = 1 := by decide
    simp only [rangeTopicInt32, if_neg asked, crowded, quotient, remainder]
    rw [isFirst, takeBlocksInt32, take_blocks_int32_nothing _ le_rfl (by rw [front]; norm_num), front]
    have here : asInt32 (0 + 1 + (2 ^ 31 - 1)) < 1 := by decide
    simp only [takeBlocksInt32, here, if_true]
    exact ⟨_, rfl⟩
  obtain ⟨before, pushed⟩ := taken (emptyShares input.memberIds)
  rw [assignRangeInt32, counts, List.foldl_cons, List.foldl_nil, pushed, share_push, if_pos rfl]
  exact List.mem_append_right _ (List.mem_singleton_self _)

theorem be_bytes_lt (width : Nat) {first second : Nat} (below : first % 256 ^ width < second % 256 ^ width) :
    beBytes width first < beBytes width second := by
  induction width with
  | zero =>
      rw [pow_zero, Nat.mod_one, Nat.mod_one] at below
      exact absurd below (lt_irrefl 0)
  | succ width ih =>
      rw [pow_succ, Nat.mod_mul, Nat.mod_mul] at below
      have positive : 0 < 256 ^ width := by positivity
      have firstBound := Nat.mod_lt first positive
      have secondBound := Nat.mod_lt second positive
      have head : ∀ value, (UInt8.ofNat (value / 256 ^ width)).toNat = value / 256 ^ width % 256 := by
        intro value
        simp
      rw [beBytes, beBytes, List.cons_lt_cons_iff]
      rcases Nat.lt_trichotomy (first / 256 ^ width % 256) (second / 256 ^ width % 256) with less | same | more
      · refine .inl (UInt8.lt_iff_toNat_lt.mpr ?_)
        rw [head, head]
        exact less
      · refine .inr ⟨UInt8.toNat_inj.mp ?_, ih ?_⟩
        · rw [head, head, same]
        · rw [same] at below
          exact Nat.lt_of_add_lt_add_right below
      · have gap := Nat.mul_le_mul_left (256 ^ width) more
        rw [Nat.mul_succ] at gap
        omega

def crowd (count : Nat) (small : count ≤ 256 ^ 4) (topic : Bytes) : AssignmentInput where
  members :=
    { entries := (List.range count).map fun index => (beBytes 4 index, [topic])
      sorted := by
        apply List.pairwise_map.mpr
        apply List.pairwise_lt_range.imp_of_mem
        intro first second inFirst inSecond below
        have secondBound := (List.mem_range.mp inSecond).trans_le small
        apply be_bytes_lt
        rw [Nat.mod_eq_of_lt (below.trans secondBound), Nat.mod_eq_of_lt secondBound]
        exact below }
  partitionCounts := ⟨[(topic, 1)], List.pairwise_singleton _ _⟩

theorem crowd_interested (count : Nat) (small : count ≤ 256 ^ 4) :
    ((crowd count small topic).interested topic).length = count := by
  have all : ∀ entry ∈ (crowd count small topic).members.entries, entry.2.contains topic = true := by
    intro entry inside
    obtain ⟨index, _, rfl⟩ := List.mem_map.mp inside
    simp
  rw [AssignmentInput.interested, List.filter_eq_self.mpr all, List.length_map, crowd, List.length_map,
    List.length_range]

theorem crowd_small : 2 ^ 31 + 1 ≤ 256 ^ 4 := by norm_num

/-- A topic of one partition and 2^31 + 1 subscribers: one of them is told to read
a second one. -/
theorem crowd_given_too_much :
    ∃ member, ⟨[116], 1⟩ ∈ share (assignRangeInt32 (crowd (2 ^ 31 + 1) crowd_small [116])) member ∧
      ¬ (crowd (2 ^ 31 + 1) crowd_small [116]).Counted ⟨[116], 1⟩ := by
  obtain ⟨member, given⟩ := crowd_overflows (crowd_interested (2 ^ 31 + 1) crowd_small) rfl
  refine ⟨member, given, ?_⟩
  rintro ⟨count, found, _, below⟩
  have entry := (crowd (2 ^ 31 + 1) crowd_small [116]).partitionCounts.mem_entries.mpr found
  have only : ([116], count) = (([116] : Bytes), (1 : Int)) := List.mem_singleton.mp entry
  rw [(Prod.mk.inj only).2] at below
  exact absurd below (by decide)

end Crowd

end DariyaKyu.Cli

import DariyaKyu.Cli.RangeBlocks

/-!
What `assignRoundRobin` gives to whom. Where all members want the same topics the
position goes round by one with each partition, so that between two rounds those
in front of it have one partition more than those behind.
-/

namespace DariyaKyu.Cli

set_option autoImplicit false

open Dealing Groups Protocol

def AssignmentInput.subscribes (input : AssignmentInput) (member topic : Bytes) : Bool :=
  ((input.members.find? member).getD []).contains topic

def AssignmentInput.Alike (input : AssignmentInput) : Prop :=
  ∀ first ∈ input.memberIds, ∀ second ∈ input.memberIds, ∀ topic,
    input.subscribes first topic = input.subscribes second topic

structure InTurn (members : List Bytes) (next : Nat) (assignment : OrderedMap Bytes (List TopicPartition)) :
    Prop where
  within : next < members.length
  turns : ∃ rounds, ∀ (index : Nat) (inside : index < members.length),
    (share assignment members[index]).length = rounds + if index < next then 1 else 0

section Turns

variable {input : AssignmentInput} {members : List Bytes}

/-- The member at the position has its turn, and the position goes on by one. -/
theorem InTurn.push {next : Nat} {assignment : OrderedMap Bytes (List TopicPartition)} (distinct : members.Nodup)
    (inTurn : InTurn members next assignment) (tp : TopicPartition) :
    InTurn members ((next + 1) % members.length) (push assignment (members.get ⟨next, inTurn.within⟩) tp) := by
  obtain ⟨within, rounds, turns⟩ := inTurn
  have grown : ∀ (index : Nat) (inside : index < members.length),
      (share (Dealing.push assignment members[next] tp) members[index]).length =
        rounds + if index < next + 1 then 1 else 0 := by
    intro index inside
    rw [share_push, List.length_append, turns index inside]
    by_cases here : index = next
    · subst here
      simp
    · have elsewhere : members[index] ≠ members[next] := fun same =>
        here ((List.Nodup.getElem_inj_iff distinct).mp same)
      rw [if_neg elsewhere, List.length_nil]
      split <;> split <;> omega
  refine ⟨Nat.mod_lt _ (by omega), ?_⟩
  rw [List.get_eq_getElem]
  rcases Nat.lt_or_eq_of_le (Nat.succ_le_of_lt within) with more | last
  · refine ⟨rounds, ?_⟩
    rw [Nat.mod_eq_of_lt more]
    exact grown
  · refine ⟨rounds + 1, ?_⟩
    intro index inside
    rw [grown index inside, if_pos (by omega), show next + 1 = members.length from last, Nat.mod_self,
      if_neg (Nat.not_lt_zero _)]

/-- A topic that all members want is dealt to the one at the position. -/
theorem first_tried {next : Nat} (within : next < members.length) {topic : Bytes}
    (all : ∀ member ∈ members, input.subscribes member topic = true) :
    (List.range members.length).find? (fun tried =>
      input.subscribes (members.getD ((next + tried) % members.length) []) topic) = some 0 := by
  obtain ⟨count, isCount⟩ : ∃ count, members.length = count + 1 := ⟨members.length - 1, by omega⟩
  have wanted : input.subscribes (members.getD ((next + 0) % members.length) []) topic = true := by
    rw [Nat.add_zero, Nat.mod_eq_of_lt within, List.getD_eq_getElem _ _ within]
    exact all _ (List.getElem_mem within)
  have front : List.range members.length = 0 :: (List.range count).map Nat.succ := by
    rw [isCount, List.range_succ_eq_map]
  rw [front, List.find?_cons]
  simp only [wanted]

theorem nobody_tried {next : Nat} {topic : Bytes} (none_wants : ∀ member ∈ members, input.subscribes member topic = false) :
    (List.range members.length).find? (fun tried =>
      input.subscribes (members.getD ((next + tried) % members.length) []) topic) = none := by
  apply List.find?_eq_none.mpr
  intro tried inside
  have within := Nat.mod_lt (next + tried) (Nat.zero_lt_of_lt (List.mem_range.mp inside))
  rw [List.getD_eq_getElem _ _ within, none_wants _ (List.getElem_mem within)]
  decide

theorem deal_round_in_turn (distinct : members.Nodup) {all : List TopicPartition}
    (alike : ∀ topic, (∀ member ∈ members, input.subscribes member topic = true) ∨
      ∀ member ∈ members, input.subscribes member topic = false)
    {next : Nat} {assignment : OrderedMap Bytes (List TopicPartition)} (inTurn : InTurn members next assignment) :
    ∃ final, InTurn members final (dealRound input members next all assignment) := by
  induction all generalizing next assignment with
  | nil => exact ⟨next, inTurn⟩
  | cons tp all ih =>
      have within := inTurn.within
      rcases alike tp.topic with everybody | nobody
      · have tried := first_tried within everybody
        simp only [AssignmentInput.subscribes] at tried
        rw [dealRound]
        simp only [tried, Nat.add_zero, Nat.mod_eq_of_lt within, List.getD_eq_getElem _ _ within]
        exact ih (inTurn.push distinct tp)
      · have tried := @nobody_tried input members next _ nobody
        simp only [AssignmentInput.subscribes] at tried
        rw [dealRound]
        simp only [tried]
        exact ih inTurn

theorem member_ids_distinct (input : AssignmentInput) : input.memberIds.Nodup := by
  apply List.pairwise_map.mpr
  apply input.members.sorted.imp
  intro first second below same
  rw [same] at below
  exact Std.lt_irrefl below

theorem assign_round_robin_balanced (alike : input.Alike) {first second : Bytes} (isFirst : first ∈ input.memberIds)
    (isSecond : second ∈ input.memberIds) :
    (share (assignRoundRobin input) first).length ≤ (share (assignRoundRobin input) second).length + 1 := by
  have every : ∀ topic, (∀ member ∈ input.memberIds, input.subscribes member topic = true) ∨
      ∀ member ∈ input.memberIds, input.subscribes member topic = false := by
    intro topic
    cases wants : input.subscribes first topic with
    | true => exact .inl fun member inside => (alike member inside first isFirst topic).trans wants
    | false => exact .inr fun member inside => (alike member inside first isFirst topic).trans wants
  have started : InTurn input.memberIds 0
      (emptyShares input.memberIds : OrderedMap Bytes (List TopicPartition)) :=
    ⟨List.length_pos_of_mem isFirst, 0, fun index inside => by rw [share_empty]; rfl⟩
  obtain ⟨final, _, rounds, turns⟩ := @deal_round_in_turn input _ (member_ids_distinct input)
    (input.partitionCounts.entries.flatMap fun entry => partitionsOf entry.1 entry.2) every _ _ started
  obtain ⟨one, oneInside, rfl⟩ := List.getElem_of_mem isFirst
  obtain ⟨other, otherInside, rfl⟩ := List.getElem_of_mem isSecond
  rw [assignRoundRobin, turns one oneInside, turns other otherInside]
  split <;> split <;> omega

end Turns

/-- The turns of a group: who has an entry, what is in it, and how the entries
compare when all want the same. -/
structure RoundRobinAssigned (input : AssignmentInput) (assignment : OrderedMap Bytes (List TopicPartition)) :
    Prop where
  named : ∀ member ∈ input.memberIds, (assignment.find? member).isSome = true
  subscribed : ∀ member items, assignment.find? member = some items → ∀ tp ∈ items,
    input.Wants member tp ∧ input.Counted tp
  once : ∀ tp, input.Asked tp.topic → input.Counted tp → ∃ member items,
    assignment.find? member = some items ∧ items.count tp = 1 ∧
      ∀ other others, assignment.find? other = some others → tp ∈ others → other = member
  balanced : input.Alike → ∀ first ∈ input.memberIds, ∀ second ∈ input.memberIds,
    (share assignment first).length ≤ (share assignment second).length + 1

theorem assign_round_robin_turns (input : AssignmentInput) : RoundRobinAssigned input (assignRoundRobin input) := by
  have divides := assign_round_robin_divides input
  refine ⟨divides.named, ?_, ?_, ?_⟩
  · exact fun member items found tp inside => divides.subscribed found inside
  · exact fun tp asked counted => divides.once (assign_round_robin_held asked counted)
  · exact fun alike first isFirst second isSecond => assign_round_robin_balanced alike isFirst isSecond

/-- Two members, of whom one does not want the second topic. -/
theorem assign_round_robin_turns_mixed :
    let input : AssignmentInput :=
      ⟨⟨[([97], [[116], [117]]), ([98], [[116]])], by decide⟩, ⟨[([116], 3), ([117], 2)], by decide⟩⟩
    RoundRobinAssigned input (assignRoundRobin input) ∧
      share (assignRoundRobin input) [97] = [⟨[116], 0⟩, ⟨[116], 2⟩, ⟨[117], 0⟩, ⟨[117], 1⟩] :=
  ⟨assign_round_robin_turns _, by decide⟩

end DariyaKyu.Cli

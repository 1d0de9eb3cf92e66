import DariyaKyu.Common.Errors
import DariyaKyu.Library.LastWhere
import Mathlib.Data.List.GetD
import Mathlib.Order.Basic
import Mathlib.Tactic.Ring
import Mathlib.Data.Nat.Basic

/-!
`storage/offset_index.cpp`: the sparse index of a segment. An entry is two
32-bit numbers, and the class refuses every entry that does not advance past
the last one, so the entries of an index are ascending by construction.
-/

namespace DariyaKyu.Storage

set_option autoImplicit false

structure Entry where
  relativeOffset : Nat := 0
  position : Nat := 0
  deriving DecidableEq, Repr

def Entry.Below (earlier later : Entry) : Prop :=
  earlier.relativeOffset < later.relativeOffset ∧ earlier.position < later.position

def kEntrySize : Nat := 8

def kMaxUint32 : Nat := 2 ^ 32 - 1

structure OffsetIndex where
  path : String
  baseOffset : Int
  entries : List Entry
  maxEntries : Nat
  writable : Bool
  ascending : entries.Pairwise Entry.Below
  bounded : ∀ entry ∈ entries, 0 < entry.position ∧ entry.relativeOffset ≤ kMaxUint32

namespace OffsetIndex

def create (path : String) (baseOffset : Int) (maxBytes : Nat) : Except Error OffsetIndex :=
  if maxBytes / kEntrySize = 0 then
    .error (.error s!"OffsetIndex: maxBytes of {maxBytes} for {path} leaves room for no entries at all")
  else
    .ok
      { path, baseOffset
        entries := []
        maxEntries := maxBytes / kEntrySize
        writable := true
        ascending := .nil
        bounded := by simp }

/-- The entries of a trimmed index file, read-only and at capacity. -/
def openSealed (index : OffsetIndex) : OffsetIndex :=
  { index with maxEntries := index.entries.length, writable := false }

def isFull (index : OffsetIndex) : Bool := index.maxEntries ≤ index.entries.length

def entryAt (index : OffsetIndex) (at_ : Nat) : Entry := index.entries.getD at_ {}

/-- The two checks an entry has to pass against the last one. -/
def notAdvancing (index : OffsetIndex) (offset : Int) (entry : Entry) : Option Error :=
  match index.entries.getLast? with
  | none => none
  | some last =>
      if entry.relativeOffset ≤ last.relativeOffset then
        some (.offsetInvariantViolated s!"OffsetIndex: offset {offset} does not advance past the last indexed relative offset {last.relativeOffset} in {index.path}")
      else if entry.position ≤ last.position then
        some (.offsetInvariantViolated s!"OffsetIndex: position {entry.position} does not advance past the last indexed position {last.position} in {index.path}")
      else none

theorem not_advancing_none {index : OffsetIndex} {offset : Int} {entry : Entry}
    (checked : index.notAdvancing offset entry = none) :
    ∀ other ∈ index.entries, other.Below entry := by
  intro other member
  unfold notAdvancing at checked
  split at checked
  · next empty =>
    rw [List.getLast?_eq_none_iff] at empty
    simp [empty] at member
  · next last isLast =>
    split at checked
    · cases checked
    · split at checked
      · cases checked
      · have lastBelow : last.Below entry := ⟨by omega, by omega⟩
        obtain ⟨front, split⟩ := List.getLast?_eq_some_iff.mp isLast
        have ascending := index.ascending
        rw [split] at member ascending
        rcases List.mem_append.mp member with earlier | same
        · have below := (List.pairwise_append.mp ascending).2.2 other earlier last (by simp)
          exact ⟨below.1.trans lastBelow.1, below.2.trans lastBelow.2⟩
        · simp only [List.mem_singleton] at same
          exact same ▸ lastBelow

def publish (index : OffsetIndex) (entry : Entry) (nonzero : 0 < entry.position)
    (reach : entry.relativeOffset ≤ kMaxUint32) (above : ∀ other ∈ index.entries, other.Below entry) : OffsetIndex :=
  { index with
    entries := index.entries ++ [entry]
    ascending := List.pairwise_append.mpr ⟨index.ascending, by simp, by simpa using above⟩
    bounded := by
      intro other member
      rcases List.mem_append.mp member with earlier | same
      · exact index.bounded other earlier
      · simp only [List.mem_singleton] at same
        exact same ▸ ⟨nonzero, reach⟩ }

def append (index : OffsetIndex) (offset : Int) (position : Nat) : Except Error OffsetIndex :=
  if index.writable = false then
    .error (.error s!"OffsetIndex: append to a read-only index of {index.path}")
  else if nonzero : position = 0 then
    .error (.offsetInvariantViolated "OffsetIndex: position 0 is reserved as the empty marker; the first byte of a segment needs no index entry")
  else if offset < index.baseOffset then
    .error (.offsetInvariantViolated s!"OffsetIndex: offset {offset} is below the base offset {index.baseOffset} of {index.path}")
  else if far : kMaxUint32 < offset - index.baseOffset then
    .error (.offsetInvariantViolated s!"OffsetIndex: offset {offset} is {offset - index.baseOffset} records past the base offset, beyond what a 32-bit relative offset holds — the segment should have rolled")
  else
    match checked : index.notAdvancing offset ⟨(offset - index.baseOffset).toNat, position⟩ with
    | some failure => .error failure
    | none =>
        if index.isFull then .ok index
        else .ok (index.publish _ (Nat.pos_of_ne_zero nonzero) (by simp only; omega)
          (not_advancing_none checked))

def lookup (index : OffsetIndex) (target : Int) : Except Error Entry :=
  if target < index.baseOffset then
    .error (.offsetInvariantViolated s!"OffsetIndex: lookup of {target} in a segment based at {index.baseOffset} — Log routed this read to the wrong segment")
  else
    let count := index.entries.length
    if count = 0 then .ok {}
    else
      let targetRelative := min (target - index.baseOffset).toNat kMaxUint32
      if targetRelative < (index.entryAt 0).relativeOffset then .ok {}
      else
        .ok (index.entryAt (LastWhere.search
          (fun at_ => (index.entryAt at_).relativeOffset ≤ targetRelative) count 0 (count - 1)))

/-- An accepted entry goes behind the others, unless the index is full. -/
theorem append_ok {index next : OffsetIndex} {offset : Int} {position : Nat}
    (appended : index.append offset position = .ok next) :
    next = index ∧ index.isFull = true ∨
      (next.entries = index.entries ++ [⟨(offset - index.baseOffset).toNat, position⟩] ∧
        next.path = index.path ∧ next.baseOffset = index.baseOffset ∧
        next.maxEntries = index.maxEntries ∧ next.writable = index.writable ∧
        index.baseOffset ≤ offset ∧ offset - index.baseOffset ≤ kMaxUint32) := by
  unfold append at appended
  split at appended
  · cases appended
  split at appended
  · cases appended
  split at appended
  · cases appended
  split at appended
  · cases appended
  split at appended
  · cases appended
  split at appended
  · next full =>
    cases appended
    exact .inl ⟨rfl, full⟩
  · cases appended
    exact .inr ⟨rfl, rfl, rfl, rfl, rfl, by omega, by omega⟩

/-- When `append` accepts: exactly when none of its checks fails. -/
theorem append_succeeds (index : OffsetIndex) {offset : Int} {position : Nat}
    (writable : index.writable = true) (nonzero : 0 < position) (lower : index.baseOffset ≤ offset)
    (upper : offset - index.baseOffset ≤ kMaxUint32)
    (advancing : ∀ last ∈ index.entries.getLast?,
      last.Below ⟨(offset - index.baseOffset).toNat, position⟩) :
    ∃ next, index.append offset position = .ok next := by
  have checked : index.notAdvancing offset ⟨(offset - index.baseOffset).toNat, position⟩ = none := by
    unfold notAdvancing
    split
    · rfl
    · next last isLast =>
      have below := advancing last isLast
      rw [if_neg (Nat.not_le.mpr below.1), if_neg (Nat.not_le.mpr below.2)]
  unfold append
  rw [if_neg (by simp [writable]), dif_neg (by omega), if_neg (by omega), dif_neg (by omega)]
  split
  · next failure found => simp [checked] at found
  · split
    · exact ⟨_, rfl⟩
    · exact ⟨_, rfl⟩

theorem entry_at_ascending (index : OffsetIndex) {earlier later : Nat} (ordered : earlier < later)
    (bound : later < index.entries.length) : (index.entryAt earlier).Below (index.entryAt later) := by
  unfold entryAt
  rw [List.getD_eq_getElem _ _ (by omega), List.getD_eq_getElem _ _ bound]
  exact List.pairwise_iff_getElem.mp index.ascending earlier later (by omega) bound ordered

/-- What a lookup answers: the greatest entry at or below the target, or the
front of the segment when there is none. -/
theorem lookup_spec (index : OffsetIndex) (target : Int) (routed : index.baseOffset ≤ target) :
    ∃ found, index.lookup target = .ok found ∧
      ((found = {} ∧ ∀ entry ∈ index.entries,
          min (target - index.baseOffset).toNat kMaxUint32 < entry.relativeOffset) ∨
        (found ∈ index.entries ∧
          found.relativeOffset ≤ min (target - index.baseOffset).toNat kMaxUint32 ∧
          ∀ entry ∈ index.entries,
            entry.relativeOffset ≤ min (target - index.baseOffset).toNat kMaxUint32 →
            entry.relativeOffset ≤ found.relativeOffset)) := by
  generalize targetIs : min (target - index.baseOffset).toNat kMaxUint32 = targetRelative
  have route : ¬ target < index.baseOffset := by omega
  simp only [lookup, route, if_false, targetIs]
  by_cases empty : index.entries.length = 0
  · have none : index.entries = [] := List.length_eq_zero_iff.mp empty
    exact ⟨{}, by simp [none], .inl ⟨rfl, by simp [none]⟩⟩
  rw [if_neg empty]
  by_cases low : targetRelative < (index.entryAt 0).relativeOffset
  · refine ⟨{}, by simp [low], .inl ⟨rfl, ?_⟩⟩
    intro entry member
    obtain ⟨at_, bound, rfl⟩ := List.getElem_of_mem member
    rcases Nat.eq_zero_or_pos at_ with rfl | later
    · rw [entryAt, List.getD_eq_getElem _ _ bound] at low
      exact low
    · have below := (index.entry_at_ascending later bound).1
      rw [entryAt, entryAt, List.getD_eq_getElem _ _ bound] at below
      unfold entryAt at low
      omega
  rw [if_neg low]
  let holds : Nat → Bool := fun at_ => (index.entryAt at_).relativeOffset ≤ targetRelative
  let answer := LastWhere.search holds index.entries.length 0 (index.entries.length - 1)
  have within := LastWhere.search_within holds index.entries.length 0 (index.entries.length - 1) (by omega)
  have answerHolds : holds answer = true :=
    LastWhere.search_holds holds index.entries.length 0 (index.entries.length - 1)
      (by simp only [holds, decide_eq_true_eq]; omega)
  have answerBound : answer < index.entries.length := by
    change LastWhere.search holds _ 0 _ < _
    omega
  have answerIs : index.entryAt answer = index.entries[answer] := by
    rw [entryAt, List.getD_eq_getElem _ _ answerBound]
  refine ⟨index.entryAt answer, rfl, .inr ⟨?_, by simpa [holds] using answerHolds, ?_⟩⟩
  · rw [answerIs]
    exact List.getElem_mem answerBound
  · intro entry member fits
    obtain ⟨at_, bound, rfl⟩ := List.getElem_of_mem member
    have here : index.entryAt at_ = index.entries[at_] := by
      rw [entryAt, List.getD_eq_getElem _ _ bound]
    rw [← here] at fits ⊢
    rcases Nat.lt_trichotomy at_ answer with before | same | behind
    · exact (index.entry_at_ascending before answerBound).1.le
    · rw [same]
    · have front : ∀ earlier later, earlier ≤ later → later ≤ index.entries.length - 1 →
          holds later = true → holds earlier = true := by
        intro earlier later ordered bound holdsLater
        simp only [holds, decide_eq_true_eq] at holdsLater ⊢
        rcases Nat.eq_or_lt_of_le ordered with rfl | before
        · exact holdsLater
        · have below := (index.entry_at_ascending before (by omega)).1
          omega
      have fails := LastWhere.search_last holds index.entries.length 0 (index.entries.length - 1)
        (by omega) front at_ behind (by omega)
      simp only [holds, decide_eq_false_iff_not] at fails
      exact absurd fits fails

theorem lookup_own (index : OffsetIndex) {entry : Entry} (member : entry ∈ index.entries) :
    index.lookup (index.baseOffset + entry.relativeOffset) = .ok entry := by
  obtain ⟨answer, found, place⟩ := index.lookup_spec (index.baseOffset + entry.relativeOffset) (by omega)
  have bounded := (index.bounded entry member).2
  have own : min (index.baseOffset + entry.relativeOffset - index.baseOffset).toNat kMaxUint32 =
      entry.relativeOffset := by omega
  rw [own] at place
  rcases place with ⟨_, beyond⟩ | ⟨answerMember, atMost, greatest⟩
  · exact absurd (beyond entry member) (Nat.lt_irrefl _)
  have atLeast := greatest entry member (Nat.le_refl _)
  obtain ⟨at_, bound, rfl⟩ := List.getElem_of_mem member
  obtain ⟨answerAt, answerBound, rfl⟩ := List.getElem_of_mem answerMember
  rw [found]
  rcases Nat.lt_trichotomy at_ answerAt with before | same | behind
  · have below := (List.pairwise_iff_getElem.mp index.ascending at_ answerAt bound answerBound before).1
    omega
  · simp only [same]
  · have below := (List.pairwise_iff_getElem.mp index.ascending answerAt at_ answerBound bound behind).1
    omega

/-- Where the last entry points; the front of the file when there is none. -/
def lastIndexed (index : OffsetIndex) : Nat := (index.entries.getLast?.map (·.position)).getD 0

theorem lookup_last (index : OffsetIndex) :
    ∃ found, index.lookup (index.baseOffset + kMaxUint32) = .ok found ∧
      found.position = index.lastIndexed ∧ (found = {} ∨ found ∈ index.entries) := by
  obtain ⟨found, isFound, place⟩ :=
    index.lookup_spec (index.baseOffset + kMaxUint32) (by omega)
  have reach : min (index.baseOffset + kMaxUint32 - index.baseOffset).toNat kMaxUint32 = kMaxUint32 := by
    omega
  rw [reach] at place
  refine ⟨found, isFound, ?_⟩
  rcases place with ⟨rfl, beyond⟩ | ⟨member, _, greatest⟩
  · refine ⟨?_, .inl rfl⟩
    have none : index.entries = [] := by
      apply List.eq_nil_iff_forall_not_mem.mpr
      intro entry member
      have := beyond entry member
      have := (index.bounded entry member).2
      omega
    simp [lastIndexed, none]
  · refine ⟨?_, .inr member⟩
    obtain ⟨last, isLast⟩ : ∃ last, index.entries.getLast? = some last := by
      cases entries : index.entries with
      | nil => simp [entries] at member
      | cons head tail => exact ⟨_, List.getLast?_cons⟩
    obtain ⟨front, split⟩ := List.getLast?_eq_some_iff.mp isLast
    have ascending := index.ascending
    have atMost := greatest last (List.mem_of_mem_getLast? isLast)
      (index.bounded last (List.mem_of_mem_getLast? isLast)).2
    rw [split] at member ascending
    rcases List.mem_append.mp member with earlier | same
    · have below := ((List.pairwise_append.mp ascending).2.2 found earlier last (by simp)).1
      omega
    · simp only [List.mem_singleton] at same
      simp [lastIndexed, isLast, same]

end OffsetIndex

end DariyaKyu.Storage

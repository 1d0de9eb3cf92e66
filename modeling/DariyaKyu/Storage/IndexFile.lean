import DariyaKyu.Common.Buffer
import DariyaKyu.Library.FirstWhere
import DariyaKyu.Storage.OffsetIndex

/-!
The bytes of an `.index` file. While its segment is active the file has its
full length, with zeroes behind the entries; sealing cuts it to the entries. A
reader tells the two apart by nothing but the positions, since no entry has
position zero, and must come to the same entries for both.
-/

namespace DariyaKyu.Storage

set_option autoImplicit false

def writeEntry (entry : Entry) : Bytes := beBytes 4 entry.relativeOffset ++ beBytes 4 entry.position

/-- `readBe32` of the second half of an entry. -/
def positionAt (bytes : Bytes) (index : Nat) : Nat :=
  beNat ((bytes.drop (index * kEntrySize + 4)).take 4)

def readEntry (bytes : Bytes) (index : Nat) : Entry where
  relativeOffset := beNat ((bytes.drop (index * kEntrySize)).take 4)
  position := positionAt bytes index

/-- How many entries a mapped file holds: all of it, or up to the zero tail. -/
def countEntries (bytes : Bytes) : Nat :=
  let raw := bytes.length / kEntrySize
  if raw = 0 then 0
  else if positionAt bytes (raw - 1) ≠ 0 then raw
  else FirstWhere.search (fun index => positionAt bytes index == 0) raw 0 (raw - 1)

instance (earlier later : Entry) : Decidable (earlier.Below later) :=
  inferInstanceAs (Decidable (_ ∧ _))

namespace OffsetIndex

def usedBytes (index : OffsetIndex) : Nat := index.entries.length * kEntrySize

def mappedBytes (index : OffsetIndex) : Bytes :=
  index.entries.flatMap writeEntry ++
    List.replicate ((index.maxEntries - index.entries.length) * kEntrySize) 0

def trimmedBytes (index : OffsetIndex) : Bytes := index.mappedBytes.take index.usedBytes

/-- `openSealed` on a file of these bytes. A file whose entries are not in order
is one this class never writes; the source would hand them out as they are. -/
def openSealedFile (path : String) (baseOffset : Int) (bytes : Bytes) : Option OffsetIndex :=
  let entries := (List.range (countEntries bytes)).map (readEntry bytes)
  if valid : entries.Pairwise Entry.Below ∧
      ∀ entry ∈ entries, 0 < entry.position ∧ entry.relativeOffset ≤ kMaxUint32 then
    some
      { path, baseOffset, entries
        maxEntries := entries.length
        writable := false
        ascending := valid.1
        bounded := valid.2 }
  else none

end OffsetIndex

@[simp] theorem write_entry_length (entry : Entry) : (writeEntry entry).length = kEntrySize := by
  simp [writeEntry, kEntrySize]

theorem write_entries_length (entries : List Entry) :
    (entries.flatMap writeEntry).length = entries.length * kEntrySize := by
  induction entries with
  | nil => rfl
  | cons entry entries ih =>
      simp only [List.flatMap_cons, List.length_append, write_entry_length, ih, List.length_cons]
      ring

theorem drop_written (entries : List Entry) (tail : Bytes) (at_ : Nat) (bound : at_ < entries.length) :
    ∃ rest, (entries.flatMap writeEntry ++ tail).drop (at_ * kEntrySize) = writeEntry entries[at_] ++ rest := by
  have split : entries = entries.take at_ ++ entries[at_] :: entries.drop (at_ + 1) := by
    rw [List.getElem_cons_drop, List.take_append_drop]
  have front : ((entries.take at_).flatMap writeEntry).length = at_ * kEntrySize := by
    rw [write_entries_length, List.length_take, Nat.min_eq_left (by omega)]
  refine ⟨(entries.drop (at_ + 1)).flatMap writeEntry ++ tail, ?_⟩
  conv_lhs => rw [split]
  rw [List.flatMap_append, List.append_assoc, List.drop_left' front, List.flatMap_cons, List.append_assoc]

theorem read_written (entries : List Entry) (tail : Bytes) (at_ : Nat) (bound : at_ < entries.length)
    (fits : entries[at_].relativeOffset ≤ kMaxUint32 ∧ entries[at_].position ≤ kMaxUint32) :
    readEntry (entries.flatMap writeEntry ++ tail) at_ = entries[at_] := by
  obtain ⟨rest, here⟩ := drop_written entries tail at_ bound
  have width : ∀ value, (beBytes 4 value).length = 4 := be_bytes_length 4
  have whole : (256 : Nat) ^ 4 = kMaxUint32 + 1 := by norm_num [kMaxUint32]
  have position : positionAt (entries.flatMap writeEntry ++ tail) at_ = entries[at_].position := by
    rw [positionAt, ← List.drop_drop, here, writeEntry, List.append_assoc, List.drop_left' (width _),
      List.take_left' (width _), be_nat_be_bytes, whole, Nat.mod_eq_of_lt (by omega)]
  have relative : beNat (((entries.flatMap writeEntry ++ tail).drop (at_ * kEntrySize)).take 4) =
      entries[at_].relativeOffset := by
    rw [here, writeEntry, List.append_assoc, List.take_left' (width _), be_nat_be_bytes, whole,
      Nat.mod_eq_of_lt (by omega)]
  rw [readEntry, position, relative]

theorem be_nat_zeroes (count : Nat) : beNat (List.replicate count 0) = 0 := by
  induction count with
  | zero => rfl
  | succ count ih => simp [List.replicate_succ, be_nat_cons, ih]

theorem position_in_tail (entries : List Entry) (count at_ : Nat) (behind : entries.length ≤ at_) :
    positionAt (entries.flatMap writeEntry ++ List.replicate count 0) at_ = 0 := by
  have above : entries.length * kEntrySize ≤ at_ * kEntrySize + 4 := by
    unfold kEntrySize
    omega
  rw [positionAt, List.drop_append, List.drop_of_length_le (by rw [write_entries_length]; exact above),
    List.nil_append, List.drop_replicate, List.take_replicate, be_nat_zeroes]

/-- The count is that of the entries in front when no whole entry behind them has
a position. -/
theorem count_front (entries : List Entry) (tail : Bytes)
    (fits : ∀ entry ∈ entries, 0 < entry.position ∧ entry.relativeOffset ≤ kMaxUint32 ∧
      entry.position ≤ kMaxUint32)
    (quiet : ∀ at_, entries.length ≤ at_ → at_ < (entries.flatMap writeEntry ++ tail).length / kEntrySize →
      positionAt (entries.flatMap writeEntry ++ tail) at_ = 0) :
    countEntries (entries.flatMap writeEntry ++ tail) = entries.length := by
  have positive : ∀ at_, at_ < entries.length → 0 < positionAt (entries.flatMap writeEntry ++ tail) at_ := by
    intro at_ bound
    obtain ⟨nonzero, relative, position⟩ := fits _ (List.getElem_mem bound)
    have read := congrArg Entry.position (read_written entries tail at_ bound ⟨relative, position⟩)
    exact nonzero.trans_eq read.symm
  have whole : entries.length ≤ (entries.flatMap writeEntry ++ tail).length / kEntrySize := by
    rw [Nat.le_div_iff_mul_le (by decide), List.length_append, write_entries_length]
    exact Nat.le_add_right _ _
  simp only [countEntries]
  generalize (entries.flatMap writeEntry ++ tail).length / kEntrySize = raw at quiet whole ⊢
  by_cases none : raw = 0
  · rw [if_pos none]
    omega
  rw [if_neg none]
  by_cases full : entries.length = raw
  · have last := positive (raw - 1) (by omega)
    rw [if_pos (by omega), full]
  · have last := quiet (raw - 1) (by omega) (by omega)
    rw [if_neg (by simp [last])]
    apply FirstWhere.search_boundary _ _ _ _ _ (by omega) (Nat.zero_le _) (by omega)
    · intro index before
      have nonzero := positive index before
      rw [beq_eq_false_iff_ne]
      omega
    · intro index behind inside
      rw [quiet index behind (by omega)]
      rfl

theorem count_written (entries : List Entry) (count : Nat)
    (fits : ∀ entry ∈ entries, 0 < entry.position ∧ entry.relativeOffset ≤ kMaxUint32 ∧
      entry.position ≤ kMaxUint32) :
    countEntries (entries.flatMap writeEntry ++ List.replicate count 0) = entries.length := by
  apply count_front entries _ fits
  intro at_ behind _
  exact position_in_tail entries count at_ behind

/-- Reading a file of an index gives the entries back, sealed, with the zero
tail and without it. -/
theorem open_sealed_written (index : OffsetIndex)
    (fits : ∀ entry ∈ index.entries, entry.position ≤ kMaxUint32) (more : Nat) :
    OffsetIndex.openSealedFile index.path index.baseOffset
        (index.entries.flatMap writeEntry ++ List.replicate (more * kEntrySize) 0) =
      some index.openSealed := by
  have all : ∀ entry ∈ index.entries, 0 < entry.position ∧ entry.relativeOffset ≤ kMaxUint32 ∧
      entry.position ≤ kMaxUint32 := by
    intro entry member
    obtain ⟨positive, relative⟩ := index.bounded entry member
    exact ⟨positive, relative, fits entry member⟩
  have entries : (List.range (countEntries (index.entries.flatMap writeEntry ++
      List.replicate (more * kEntrySize) 0))).map
      (readEntry (index.entries.flatMap writeEntry ++ List.replicate (more * kEntrySize) 0)) =
      index.entries := by
    rw [count_written index.entries _ all]
    apply List.ext_getElem
    · simp
    intro at_ _ bound
    obtain ⟨_, relative, position⟩ := all _ (List.getElem_mem bound)
    rw [List.getElem_map, List.getElem_range]
    exact read_written index.entries _ at_ bound ⟨relative, position⟩
  simp only [OffsetIndex.openSealedFile, entries]
  rw [dif_pos ⟨index.ascending, index.bounded⟩]
  rfl

theorem open_mapped (index : OffsetIndex) (fits : ∀ entry ∈ index.entries, entry.position ≤ kMaxUint32) :
    OffsetIndex.openSealedFile index.path index.baseOffset index.mappedBytes = some index.openSealed :=
  open_sealed_written index fits _

theorem open_trimmed (index : OffsetIndex) (fits : ∀ entry ∈ index.entries, entry.position ≤ kMaxUint32) :
    OffsetIndex.openSealedFile index.path index.baseOffset index.trimmedBytes = some index.openSealed := by
  have trimmed : index.trimmedBytes =
      index.entries.flatMap writeEntry ++ List.replicate (0 * kEntrySize) 0 := by
    rw [OffsetIndex.trimmedBytes, OffsetIndex.mappedBytes, OffsetIndex.usedBytes,
      List.take_left' (write_entries_length _)]
    simp
  rw [trimmed]
  exact open_sealed_written index fits 0

end DariyaKyu.Storage

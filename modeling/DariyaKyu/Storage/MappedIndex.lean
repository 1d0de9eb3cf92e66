import DariyaKyu.Common.FileHandle
import DariyaKyu.Storage.IndexFile

/-!
`storage/offset_index.cpp` on the bytes of its mapping. Nothing is kept of an
entry but its eight bytes and the count that admits they exist; every check and
every probe of a search reads them back. The index as a list of entries is what
these bytes show, and each operation does the same to both.
-/

namespace DariyaKyu.Storage

set_option autoImplicit false

structure MappedIndex where
  path : String
  baseOffset : Int
  bytes : Bytes
  entryCount : Nat
  maxEntries : Nat
  writable : Bool
  spent : Bool := false
  deriving DecidableEq, Repr

namespace MappedIndex

/-- A file of zeroes, whatever was there before. -/
def create (path : String) (baseOffset : Int) (maxBytes : Nat) : Except Error MappedIndex :=
  if maxBytes / kEntrySize = 0 then
    .error (.error s!"OffsetIndex: maxBytes of {maxBytes} for {path} leaves room for no entries at all")
  else
    .ok
      { path, baseOffset
        bytes := List.replicate (maxBytes / kEntrySize * kEntrySize) 0
        entryCount := 0
        maxEntries := maxBytes / kEntrySize
        writable := true }

/-- A file of these bytes, mapped read-only. -/
def openSealed (path : String) (baseOffset : Int) (bytes : Bytes) : MappedIndex where
  path := path
  baseOffset := baseOffset
  bytes := bytes
  entryCount := countEntries bytes
  maxEntries := countEntries bytes
  writable := false

def usedBytes (index : MappedIndex) : Nat := index.entryCount * kEntrySize

def entryAt (index : MappedIndex) (at_ : Nat) : Entry := readEntry index.bytes at_

def requireLive (index : MappedIndex) : Except Error Unit :=
  if index.spent then
    .error (.error s!"OffsetIndex: use after flushAndTrim() of {index.path} — the mapping is gone; reopen the trimmed file with openSealed()")
  else .ok ()

def entryOf (baseOffset : Int) (call : Int × UInt32) : Entry := ⟨(call.1 - baseOffset).toNat, call.2.toNat⟩

def append (index : MappedIndex) (offset : Int) (position : UInt32) : Except Error MappedIndex := do
  index.requireLive
  if index.writable = false then
    .error (.error s!"OffsetIndex: append to a read-only index of {index.path}")
  else if position.toNat = 0 then
    .error (.offsetInvariantViolated "OffsetIndex: position 0 is reserved as the empty marker; the first byte of a segment needs no index entry")
  else if offset < index.baseOffset then
    .error (.offsetInvariantViolated s!"OffsetIndex: offset {offset} is below the base offset {index.baseOffset} of {index.path}")
  else if kMaxUint32 < offset - index.baseOffset then
    .error (.offsetInvariantViolated s!"OffsetIndex: offset {offset} is {offset - index.baseOffset} records past the base offset, beyond what a 32-bit relative offset holds — the segment should have rolled")
  else
    let entry := entryOf index.baseOffset (offset, position)
    let count := index.entryCount
    let last := index.entryAt (count - 1)
    if 0 < count ∧ entry.relativeOffset ≤ last.relativeOffset then
      .error (.offsetInvariantViolated s!"OffsetIndex: offset {offset} does not advance past the last indexed relative offset {last.relativeOffset} in {index.path}")
    else if 0 < count ∧ entry.position ≤ last.position then
      .error (.offsetInvariantViolated s!"OffsetIndex: position {entry.position} does not advance past the last indexed position {last.position} in {index.path}")
    else if index.maxEntries ≤ count then .ok index
    else
      .ok { index with
        bytes := overwrite index.bytes (count * kEntrySize) (writeEntry entry)
        entryCount := count + 1 }

def lookup (index : MappedIndex) (target : Int) : Except Error Entry := do
  index.requireLive
  if target < index.baseOffset then
    .error (.offsetInvariantViolated s!"OffsetIndex: lookup of {target} in a segment based at {index.baseOffset} — Log routed this read to the wrong segment")
  else
    let count := index.entryCount
    if count = 0 then .ok {}
    else
      let delta := target - index.baseOffset
      let targetRelative := if (kMaxUint32 : Int) < delta then kMaxUint32 else delta.toNat
      if targetRelative < (index.entryAt 0).relativeOffset then .ok {}
      else
        .ok (index.entryAt (LastWhere.search
          (fun at_ => (index.entryAt at_).relativeOffset ≤ targetRelative) count 0 (count - 1)))

def flushAndTrim (index : MappedIndex) : Except Error (MappedIndex × Bytes) := do
  index.requireLive
  if index.writable = false then
    .error (.error s!"OffsetIndex: flushAndTrim on a read-only index of {index.path}")
  else
    .ok ({ index with bytes := [], writable := false, spent := true }, index.bytes.take index.usedBytes)

end MappedIndex

structure Shows (mapped : MappedIndex) (index : OffsetIndex) (tail : Bytes) : Prop where
  path : mapped.path = index.path
  base : mapped.baseOffset = index.baseOffset
  bytes : mapped.bytes = index.entries.flatMap writeEntry ++ tail
  count : mapped.entryCount = index.entries.length
  capacity : mapped.maxEntries = index.maxEntries
  writable : mapped.writable = index.writable
  live : mapped.spent = false
  positions : ∀ entry ∈ index.entries, entry.position ≤ kMaxUint32

/-- The zeroes behind the entries of an index that is still written to. -/
def zeroTail (index : OffsetIndex) : Bytes :=
  List.replicate ((index.maxEntries - index.entries.length) * kEntrySize) 0

/-- An index that is being built: its entries, and zeroes up to its capacity. -/
structure Builds (mapped : MappedIndex) (index : OffsetIndex) : Prop extends
    Shows mapped index (zeroTail index) where
  open_ : index.writable = true
  room : index.entries.length ≤ index.maxEntries

namespace Shows

variable {mapped : MappedIndex} {index : OffsetIndex} {tail : Bytes}

theorem entry_at (shows_ : Shows mapped index tail) {at_ : Nat} (inside : at_ < index.entries.length) :
    mapped.entryAt at_ = index.entryAt at_ := by
  have member := List.getElem_mem inside
  rw [MappedIndex.entryAt, shows_.bytes, OffsetIndex.entryAt, List.getD_eq_getElem _ _ inside]
  exact read_written _ _ _ inside ⟨(index.bounded _ member).2, shows_.positions _ member⟩

theorem requires_live (shows_ : Shows mapped index tail) : mapped.requireLive = .ok () := by
  rw [MappedIndex.requireLive, shows_.live]
  rfl

/-- A search of the bytes probes the entries and finds what a search of them does. -/
theorem lookup (shows_ : Shows mapped index tail) (target : Int) :
    mapped.lookup target = index.lookup target := by
  have saturated : target < index.baseOffset ∨
      (if (kMaxUint32 : Int) < target - index.baseOffset then kMaxUint32
        else (target - index.baseOffset).toNat) = min (target - index.baseOffset).toNat kMaxUint32 := by
    split <;> omega
  rw [MappedIndex.lookup, shows_.requires_live, except_ok_bind, OffsetIndex.lookup, shows_.base, shows_.count]
  by_cases routed : target < index.baseOffset
  · rw [if_pos routed, if_pos routed]
  rw [if_neg routed, if_neg routed]
  simp only [saturated.resolve_left routed]
  by_cases empty : index.entries.length = 0
  · rw [if_pos empty, if_pos empty]
  rw [if_neg empty, if_neg empty, shows_.entry_at (by omega)]
  split
  · rfl
  · let holds : Nat → Bool := fun at_ =>
      (index.entryAt at_).relativeOffset ≤ min (target - index.baseOffset).toNat kMaxUint32
    have probes : ∀ at_, at_ ≤ index.entries.length - 1 →
        decide ((mapped.entryAt at_).relativeOffset ≤ min (target - index.baseOffset).toNat kMaxUint32) =
          holds at_ := by
      intro at_ inside
      rw [shows_.entry_at (by omega)]
    have within := LastWhere.search_within holds index.entries.length 0 (index.entries.length - 1) (by omega)
    rw [LastWhere.search_congr _ holds _ _ _ probes, shows_.entry_at (by omega)]

end Shows

theorem create_builds {path : String} {baseOffset : Int} {maxBytes : Nat} {fresh : MappedIndex}
    (created : MappedIndex.create path baseOffset maxBytes = .ok fresh) :
    ∃ index, OffsetIndex.create path baseOffset maxBytes = .ok index ∧ Builds fresh index := by
  rw [MappedIndex.create] at created
  split at created
  · cases created
  · next room =>
    cases created
    refine ⟨_, if_neg room, ?_⟩
    exact
      { path := rfl, base := rfl, bytes := rfl, count := rfl, capacity := rfl, writable := rfl, live := rfl
        positions := by simp
        open_ := rfl
        room := Nat.zero_le _ }

namespace Builds

variable {mapped : MappedIndex} {index : OffsetIndex}

theorem last_checked (builds : Builds mapped index) (offset : Int) (entry : Entry) :
    index.notAdvancing offset entry =
      if 0 < mapped.entryCount ∧ entry.relativeOffset ≤ (mapped.entryAt (mapped.entryCount - 1)).relativeOffset then
        some (.offsetInvariantViolated s!"OffsetIndex: offset {offset} does not advance past the last indexed relative offset {(mapped.entryAt (mapped.entryCount - 1)).relativeOffset} in {index.path}")
      else if 0 < mapped.entryCount ∧ entry.position ≤ (mapped.entryAt (mapped.entryCount - 1)).position then
        some (.offsetInvariantViolated s!"OffsetIndex: position {entry.position} does not advance past the last indexed position {(mapped.entryAt (mapped.entryCount - 1)).position} in {index.path}")
      else none := by
  rw [builds.count, OffsetIndex.notAdvancing]
  cases isLast : index.entries.getLast? with
  | none =>
      have empty := List.getLast?_eq_none_iff.mp isLast
      simp [empty]
  | some last =>
      have some_ : index.entries ≠ [] := by
        rintro empty
        simp [empty] at isLast
      have positive := List.length_pos_of_ne_nil some_
      have there : mapped.entryAt (index.entries.length - 1) = last := by
        rw [builds.entry_at (by omega), OffsetIndex.entryAt, List.getD_eq_getElem _ _ (by omega)]
        rw [List.getLast?_eq_getElem?, List.getElem?_eq_getElem (by omega)] at isLast
        exact Option.some.inj isLast
      simp only [there, positive, true_and]

theorem publish (builds : Builds mapped index) (entry : Entry) (room : index.entries.length < index.maxEntries) :
    overwrite mapped.bytes (mapped.entryCount * kEntrySize) (writeEntry entry) =
      (index.entries ++ [entry]).flatMap writeEntry ++
        List.replicate ((index.maxEntries - (index.entries.length + 1)) * kEntrySize) 0 := by
  have front : (index.entries.flatMap writeEntry).length = mapped.entryCount * kEntrySize := by
    rw [write_entries_length, builds.count]
  have tail : zeroTail index =
      List.replicate kEntrySize 0 ++
        List.replicate ((index.maxEntries - (index.entries.length + 1)) * kEntrySize) 0 := by
    rw [zeroTail, List.replicate_append_replicate]
    congr 1
    rw [show index.maxEntries - index.entries.length = index.maxEntries - (index.entries.length + 1) + 1 by omega]
    ring
  rw [overwrite, builds.bytes, List.take_left' front, write_entry_length, ← List.drop_drop,
    List.drop_left' front, tail, List.drop_left' (by simp)]
  simp

theorem published (builds : Builds mapped index) {entry : Entry} (room : index.entries.length < index.maxEntries)
    (fits : entry.position ≤ kMaxUint32) (nonzero : 0 < entry.position) (reach : entry.relativeOffset ≤ kMaxUint32)
    (above : ∀ other ∈ index.entries, other.Below entry) :
    Builds
      { path := index.path
        baseOffset := index.baseOffset
        bytes := overwrite mapped.bytes (index.entries.length * kEntrySize) (writeEntry entry)
        entryCount := index.entries.length + 1
        maxEntries := index.maxEntries
        writable := index.writable
        spent := mapped.spent }
      (index.publish entry nonzero reach above) where
  path := rfl
  base := rfl
  bytes := by
    rw [← builds.count, builds.publish entry room, zeroTail]
    simp [OffsetIndex.publish]
  count := by simp [OffsetIndex.publish]
  capacity := rfl
  writable := rfl
  live := builds.live
  positions := by
    intro other member
    rcases List.mem_append.mp member with earlier | new
    · exact builds.positions other earlier
    · exact List.mem_singleton.mp new ▸ fits
  open_ := builds.open_
  room := by
    simp only [OffsetIndex.publish, List.length_append, List.length_singleton]
    omega

theorem append (builds : Builds mapped index) (offset : Int) (position : UInt32) :
    match index.append offset position.toNat with
    | .error failure => mapped.append offset position = .error failure
    | .ok next => ∃ after, mapped.append offset position = .ok after ∧ Builds after next := by
  have writable : ¬ index.writable = false := by simp [builds.open_]
  rw [OffsetIndex.append, MappedIndex.append, builds.requires_live, except_ok_bind, builds.writable, builds.path,
    builds.base, if_neg writable, if_neg writable]
  by_cases zero : position.toNat = 0
  · rw [dif_pos zero, if_pos zero]
  rw [dif_neg zero, if_neg zero]
  by_cases below : offset < index.baseOffset
  · rw [if_pos below, if_pos below]
  rw [if_neg below, if_neg below]
  by_cases far : (kMaxUint32 : Int) < offset - index.baseOffset
  · rw [dif_pos far, if_pos far]
  rw [dif_neg far, if_neg far]
  have checks := builds.last_checked offset (MappedIndex.entryOf index.baseOffset (offset, position))
  simp only
  split
  · next failure refused =>
    split at refused
    · next given found =>
      cases refused
      have given := found.symm.trans checks
      split at given
      · next offsets =>
        cases given
        rw [if_pos offsets]
      · next offsets =>
        rw [if_neg offsets]
        split at given
        · next positions =>
          cases given
          rw [if_pos positions]
        · cases given
    · split at refused <;> cases refused
  · next after added =>
    split at added
    · cases added
    · next found =>
      have given := found.symm.trans checks
      split at given
      · cases given
      · next offsets =>
        split at given
        · cases given
        · next positions =>
          rw [if_neg offsets, if_neg positions, builds.capacity, builds.count]
          split at added
          · next full =>
            cases added
            rw [OffsetIndex.isFull, decide_eq_true_eq] at full
            rw [if_pos full]
            exact ⟨mapped, rfl, builds⟩
          · next roomy =>
            rw [OffsetIndex.isFull, decide_eq_true_eq] at roomy
            cases added
            rw [if_neg roomy]
            refine ⟨_, rfl, ?_⟩
            have fits : (MappedIndex.entryOf index.baseOffset (offset, position)).position ≤ kMaxUint32 :=
              Nat.le_sub_one_of_lt position.toNat_lt
            exact builds.published (Nat.lt_of_not_le roomy) fits _ _ _

end Builds

namespace MappedIndex

/-- The index behind a call, which leaves it alone when it throws. -/
def attempted (index : MappedIndex) (call : Int × UInt32) : MappedIndex :=
  match index.append call.1 call.2 with
  | .ok next => next
  | .error _ => index

def afterAppends (index : MappedIndex) (calls : List (Int × UInt32)) : MappedIndex := calls.foldl attempted index

def returned : MappedIndex → List (Int × UInt32) → List (Int × UInt32)
  | _, [] => []
  | index, call :: calls =>
      if (index.append call.1 call.2).isOk then call :: returned (index.attempted call) calls
      else returned (index.attempted call) calls

end MappedIndex

namespace Builds

variable {mapped : MappedIndex} {index : OffsetIndex}

/-- One call writes its entry when it returns and there is room for it. -/
theorem attempted (builds : Builds mapped index) (call : Int × UInt32) :
    ∃ next, Builds (mapped.attempted call) next ∧ next.baseOffset = index.baseOffset ∧
      next.maxEntries = index.maxEntries ∧ next.path = index.path ∧
      next.entries = index.entries ++ ((mapped.returned [call]).map (MappedIndex.entryOf index.baseOffset)).take
        (index.maxEntries - index.entries.length) := by
  have both := builds.append call.1 call.2
  unfold MappedIndex.attempted MappedIndex.returned
  cases appended : index.append call.1 call.2.toNat with
  | error failure =>
      rw [appended] at both
      rw [both]
      refine ⟨index, builds, rfl, rfl, rfl, ?_⟩
      simp [Except.isOk, Except.toBool, MappedIndex.returned]
  | ok next =>
      rw [appended] at both
      obtain ⟨after, ran, built⟩ := both
      rw [ran]
      refine ⟨next, built, ?_⟩
      simp only [Except.isOk, Except.toBool, if_true, MappedIndex.returned, List.map_cons, List.map_nil]
      rcases OffsetIndex.append_ok appended with ⟨rfl, full⟩ | ⟨entries, path, base, capacity, _, _, _⟩
      · rw [OffsetIndex.isFull, decide_eq_true_eq] at full
        simp [Nat.sub_eq_zero_of_le full]
      · refine ⟨base, capacity, path, ?_⟩
        have roomy := built.room
        rw [entries, capacity, List.length_append, List.length_singleton] at roomy
        rw [entries, List.take_of_length_le (by simp; omega)]
        rfl

theorem returned_cons (mapped : MappedIndex) (call : Int × UInt32) (calls : List (Int × UInt32)) :
    mapped.returned (call :: calls) = mapped.returned [call] ++ (mapped.attempted call).returned calls := by
  simp only [MappedIndex.returned]
  split <;> rfl

/-- The entries behind any calls are those that returned, up to the capacity. -/
theorem after_appends (builds : Builds mapped index) (calls : List (Int × UInt32)) :
    ∃ next, Builds (mapped.afterAppends calls) next ∧ next.baseOffset = index.baseOffset ∧
      next.maxEntries = index.maxEntries ∧ next.path = index.path ∧
      next.entries = index.entries ++ ((mapped.returned calls).map (MappedIndex.entryOf index.baseOffset)).take
        (index.maxEntries - index.entries.length) := by
  induction calls generalizing mapped index with
  | nil => exact ⟨index, builds, rfl, rfl, rfl, by simp [MappedIndex.returned]⟩
  | cons call calls ih =>
      obtain ⟨middle, built, base, capacity, path, entries⟩ := builds.attempted call
      obtain ⟨next, ends, sameBase, sameCapacity, samePath, more⟩ := ih built
      refine ⟨next, ends, sameBase.trans base, sameCapacity.trans capacity, samePath.trans path, ?_⟩
      rw [more, entries, base, capacity, returned_cons mapped call calls, List.map_append, List.take_append,
        List.append_assoc]
      congr 3
      simp only [List.length_append, List.length_take, List.length_map]
      omega

end Builds

end DariyaKyu.Storage

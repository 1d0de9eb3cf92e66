import DariyaKyu.Storage.MappedIndex

/-!
What is found again of an index whose file is trimmed, left with its zeroes, or
cut anywhere. A whole entry in front of the cut is still there; one the cut goes
through is less than eight bytes, too few to be counted. What is left is an index
like any other, and its search answers as going through the entries would.
-/

namespace DariyaKyu.Storage

set_option autoImplicit false

/-- Going through the entries, keeping the last one at or before the target. -/
def linearScan (baseOffset target : Int) (entries : List Entry) : Entry :=
  entries.foldl (fun best entry => if baseOffset + entry.relativeOffset ≤ target then entry else best) {}

/-- The greatest entry at or before the target; the front of the segment when there is none. -/
def GreatestAt (baseOffset target : Int) (entries : List Entry) (found : Entry) : Prop :=
  (found = {} ∧ ∀ entry ∈ entries, target < baseOffset + entry.relativeOffset) ∨
    (found ∈ entries ∧ baseOffset + found.relativeOffset ≤ target ∧
      ∀ entry ∈ entries, baseOffset + entry.relativeOffset ≤ target → entry.relativeOffset ≤ found.relativeOffset)

theorem linear_scan_greatest (baseOffset target : Int) {entries : List Entry}
    (ascending : entries.Pairwise Entry.Below) :
    GreatestAt baseOffset target entries (linearScan baseOffset target entries) := by
  induction entries using List.reverseRecOn with
  | nil => exact .inl ⟨rfl, by simp⟩
  | append_singleton front last ih =>
      obtain ⟨ordered, _, below⟩ := List.pairwise_append.mp ascending
      have smaller : ∀ entry ∈ front, entry.relativeOffset < last.relativeOffset := fun entry member =>
        (below entry member last (by simp)).1
      rw [linearScan, List.foldl_append, List.foldl_cons, List.foldl_nil]
      by_cases reached : baseOffset + last.relativeOffset ≤ target
      · rw [if_pos reached]
        refine .inr ⟨by simp, reached, ?_⟩
        intro entry member _
        rcases List.mem_append.mp member with earlier | same
        · exact (smaller entry earlier).le
        · rw [List.mem_singleton.mp same]
      · rw [if_neg reached]
        rcases ih ordered with ⟨nothing, beyond⟩ | ⟨member, atMost, greatest⟩
        · refine .inl ⟨nothing, ?_⟩
          intro entry inside
          rcases List.mem_append.mp inside with earlier | same
          · exact beyond entry earlier
          · rw [List.mem_singleton.mp same]
            omega
        · refine .inr ⟨List.mem_append_left _ member, atMost, ?_⟩
          intro entry inside within
          rcases List.mem_append.mp inside with earlier | same
          · exact greatest entry earlier within
          · rw [List.mem_singleton.mp same] at within
            exact absurd within reached

theorem ascending_inj {entries : List Entry} (ascending : entries.Pairwise Entry.Below) {first second : Entry}
    (isFirst : first ∈ entries) (isSecond : second ∈ entries)
    (same : first.relativeOffset = second.relativeOffset) : first = second := by
  obtain ⟨at_, bound, rfl⟩ := List.getElem_of_mem isFirst
  obtain ⟨other, otherBound, rfl⟩ := List.getElem_of_mem isSecond
  have ordered := List.pairwise_iff_getElem.mp ascending
  rcases Nat.lt_trichotomy at_ other with before | rfl | behind
  · have below := (ordered at_ other bound otherBound before).1
    omega
  · rfl
  · have below := (ordered other at_ otherBound bound behind).1
    omega

theorem greatest_unique {baseOffset target : Int} {entries : List Entry}
    (ascending : entries.Pairwise Entry.Below) {first second : Entry}
    (isFirst : GreatestAt baseOffset target entries first)
    (isSecond : GreatestAt baseOffset target entries second) : first = second := by
  rcases isFirst with ⟨rfl, beyond⟩ | ⟨member, atMost, greatest⟩
  · rcases isSecond with ⟨rfl, _⟩ | ⟨other, within, _⟩
    · rfl
    · have := beyond second other
      omega
  · rcases isSecond with ⟨_, beyond⟩ | ⟨other, within, most⟩
    · have := beyond first member
      omega
    · exact ascending_inj ascending member other
        (Nat.le_antisymm (most first member atMost) (greatest second other within))

/-- The saturated search finds the greatest entry, however far the target lies. -/
theorem lookup_scans (index : OffsetIndex) (target : Int) (routed : index.baseOffset ≤ target) :
    index.lookup target = .ok (linearScan index.baseOffset target index.entries) := by
  obtain ⟨found, isFound, place⟩ := index.lookup_spec target routed
  have reach : ∀ entry ∈ index.entries,
      (entry.relativeOffset ≤ min (target - index.baseOffset).toNat kMaxUint32 ↔
        index.baseOffset + entry.relativeOffset ≤ target) := by
    intro entry member
    have bounded := (index.bounded entry member).2
    omega
  have greatest : GreatestAt index.baseOffset target index.entries found := by
    rcases place with ⟨nothing, beyond⟩ | ⟨member, atMost, greatest⟩
    · refine .inl ⟨nothing, ?_⟩
      intro entry inside
      have missed := (reach entry inside).not.mp (Nat.not_le.mpr (beyond entry inside))
      omega
    · refine .inr ⟨member, (reach found member).mp atMost, ?_⟩
      intro entry inside within
      exact greatest entry inside ((reach entry inside).mpr within)
  rw [isFound, greatest_unique index.ascending greatest
    (linear_scan_greatest index.baseOffset target index.ascending)]

def cutIndex (index : OffsetIndex) (count : Nat) : OffsetIndex where
  path := index.path
  baseOffset := index.baseOffset
  entries := index.entries.take count
  maxEntries := (index.entries.take count).length
  writable := false
  ascending := index.ascending.sublist (List.take_sublist count index.entries)
  bounded := fun entry member => index.bounded entry (List.mem_of_mem_take member)

/-- What is left of the bytes of these entries and a tail of zeroes behind a cut. -/
theorem take_written (entries : List Entry) (zeroes cut : Nat) :
    ∃ tail, (entries.flatMap writeEntry ++ List.replicate zeroes 0).take cut =
        (entries.take (cut / kEntrySize)).flatMap writeEntry ++ tail ∧
      (tail.length < kEntrySize ∧ cut / kEntrySize < entries.length ∨ ∃ left, tail = List.replicate left 0) := by
  have parts : entries.flatMap writeEntry =
      (entries.take (cut / kEntrySize)).flatMap writeEntry ++
        (entries.drop (cut / kEntrySize)).flatMap writeEntry := by
    rw [← List.flatMap_append, List.take_append_drop]
  have front := write_entries_length (entries.take (cut / kEntrySize))
  have whole : ((entries.take (cut / kEntrySize)).flatMap writeEntry).length ≤ cut := by
    rw [front, List.length_take]
    exact (Nat.mul_le_mul_right _ (Nat.min_le_left _ _)).trans (Nat.div_mul_le_self cut kEntrySize)
  refine ⟨((entries.drop (cut / kEntrySize)).flatMap writeEntry ++ List.replicate zeroes 0).take
    (cut - ((entries.take (cut / kEntrySize)).flatMap writeEntry).length), ?_, ?_⟩
  · rw [parts, List.append_assoc, List.take_append, List.take_of_length_le whole]
  · by_cases inside : cut / kEntrySize < entries.length
    · refine .inl ⟨?_, inside⟩
      rw [front, List.length_take, List.length_take, Nat.min_eq_left inside.le]
      have rest := Nat.mod_lt cut (show 0 < kEntrySize by decide)
      have split := Nat.div_add_mod cut kEntrySize
      rw [Nat.mul_comm] at split
      omega
    · rw [List.drop_of_length_le (Nat.le_of_not_lt inside), List.flatMap_nil, List.nil_append, List.take_replicate]
      exact .inr ⟨_, rfl⟩

theorem open_cut_shows (index : OffsetIndex) (positions : ∀ entry ∈ index.entries, entry.position ≤ kMaxUint32)
    (zeroes cut : Nat) :
    ∃ tail, Shows
      (MappedIndex.openSealed index.path index.baseOffset
        ((index.entries.flatMap writeEntry ++ List.replicate zeroes 0).take cut))
      (cutIndex index (cut / kEntrySize)) tail := by
  obtain ⟨tail, bytes, rest⟩ := take_written index.entries zeroes cut
  have fits : ∀ entry ∈ index.entries.take (cut / kEntrySize),
      0 < entry.position ∧ entry.relativeOffset ≤ kMaxUint32 ∧ entry.position ≤ kMaxUint32 := by
    intro entry member
    have inside := List.mem_of_mem_take member
    exact ⟨(index.bounded entry inside).1, (index.bounded entry inside).2, positions entry inside⟩
  have count : countEntries ((index.entries.flatMap writeEntry ++ List.replicate zeroes 0).take cut) =
      (index.entries.take (cut / kEntrySize)).length := by
    rw [bytes]
    apply count_front _ _ fits
    intro at_ behind inside
    rcases rest with ⟨short, cuts⟩ | ⟨left, rfl⟩
    · rw [Nat.lt_div_iff_mul_lt (by decide), List.length_append, write_entries_length] at inside
      have more := Nat.mul_le_mul_right kEntrySize behind
      unfold kEntrySize at *
      omega
    · exact position_in_tail _ _ _ behind
  refine ⟨tail, ?_⟩
  exact
    { path := rfl, base := rfl, bytes := bytes, count := count, capacity := count, writable := rfl, live := rfl
      positions := fun entry member => positions entry (List.mem_of_mem_take member) }

/-- Calls whose offsets and positions rise, within what an entry can say. -/
structure Advancing (baseOffset : Int) (calls : List (Int × UInt32)) : Prop where
  rising : calls.Pairwise fun earlier later =>
    earlier.1 < later.1 ∧ earlier.2.toNat < later.2.toNat
  reach : ∀ call ∈ calls, baseOffset ≤ call.1 ∧ call.1 - baseOffset ≤ kMaxUint32
  positive : ∀ call ∈ calls, 0 < call.2.toNat

theorem advancing_returned {mapped : MappedIndex} {index : OffsetIndex} (builds : Builds mapped index)
    {calls : List (Int × UInt32)} (advancing : Advancing index.baseOffset calls)
    (above : ∀ call ∈ calls, ∀ entry ∈ index.entries, entry.Below (MappedIndex.entryOf index.baseOffset call)) :
    mapped.returned calls = calls := by
  induction calls generalizing mapped index with
  | nil => rfl
  | cons call calls ih =>
      obtain ⟨lower, upper⟩ := advancing.reach call List.mem_cons_self
      have nonzero := advancing.positive call List.mem_cons_self
      have behind : ∀ last ∈ index.entries.getLast?,
          last.Below ⟨(call.1 - index.baseOffset).toNat, call.2.toNat⟩ := fun last isLast =>
        above call List.mem_cons_self last (List.mem_of_mem_getLast? isLast)
      obtain ⟨next, appended⟩ := index.append_succeeds builds.open_ nonzero lower upper behind
      have both := builds.append call.1 call.2
      rw [appended] at both
      obtain ⟨after, ran, built⟩ := both
      have goes : mapped.attempted call = after := by
        unfold MappedIndex.attempted
        rw [ran]
      have ok : (mapped.append call.1 call.2).isOk = true := by
        rw [ran]
        rfl
      rw [MappedIndex.returned, if_pos ok, goes]
      congr 1
      obtain ⟨first, later⟩ := List.pairwise_cons.mp advancing.rising
      have rest : Advancing index.baseOffset calls :=
        ⟨later, fun other member => advancing.reach other (List.mem_cons_of_mem _ member),
          fun other member => advancing.positive other (List.mem_cons_of_mem _ member)⟩
      rcases OffsetIndex.append_ok appended with ⟨rfl, _⟩ | ⟨entries, _, base, _⟩
      · exact ih built rest fun other member => above other (List.mem_cons_of_mem _ member)
      · rw [← base] at rest
        apply ih built rest
        intro other member entry inside
        rw [entries] at inside
        rcases List.mem_append.mp inside with old | new
        · rw [base]
          exact above other (List.mem_cons_of_mem _ member) entry old
        · rw [List.mem_singleton.mp new, base]
          obtain ⟨offsets, positions⟩ := first other member
          have reached := (advancing.reach other (List.mem_cons_of_mem _ member)).1
          refine ⟨?_, positions⟩
          simp only [MappedIndex.entryOf]
          omega

/-- A sealed index that holds these entries and finds among them what a scan would. -/
structure Reopens (baseOffset : Int) (entries : List Entry) (reopened : MappedIndex) : Prop where
  count : reopened.entryCount = entries.length
  holds : (List.range reopened.entryCount).map reopened.entryAt = entries
  lookups : ∀ target, baseOffset ≤ target →
    reopened.lookup target = .ok (linearScan baseOffset target entries) ∧
      GreatestAt baseOffset target entries (linearScan baseOffset target entries)

theorem Shows.reopens {mapped : MappedIndex} {index : OffsetIndex} {tail : Bytes}
    (shows_ : Shows mapped index tail) : Reopens index.baseOffset index.entries mapped where
  count := shows_.count
  holds := by
    apply List.ext_getElem
    · rw [List.length_map, List.length_range, shows_.count]
    · intro at_ _ inside
      rw [List.getElem_map, List.getElem_range, shows_.entry_at inside, OffsetIndex.entryAt,
        List.getD_eq_getElem _ _ inside]
  lookups := by
    intro target routed
    refine ⟨?_, linear_scan_greatest _ _ index.ascending⟩
    rw [shows_.lookup, lookup_scans index target routed]

theorem Builds.flushes {mapped : MappedIndex} {index : OffsetIndex} (builds : Builds mapped index) :
    ∃ spent, mapped.flushAndTrim = .ok (spent, index.entries.flatMap writeEntry) := by
  have used : (index.entries.flatMap writeEntry).length = mapped.usedBytes := by
    rw [write_entries_length, MappedIndex.usedBytes, builds.count]
  have writable : ¬ mapped.writable = false := by
    rw [builds.writable, builds.open_]
    decide
  rw [MappedIndex.flushAndTrim, builds.requires_live, except_ok_bind, if_neg writable, builds.bytes,
    List.take_left' used]
  exact ⟨_, rfl⟩

/-- The files an index leaves: trimmed, or with zeroes behind its entries. -/
def LeftAs (built : MappedIndex) (trimmed file : Bytes) : Prop :=
  file = trimmed ∨ file = built.bytes ∨ ∃ zeroes, file = trimmed ++ List.replicate zeroes 0

/-- Built by any calls and cut anywhere, an index holds the whole entries that are
left of those that were written, and no call that advances is refused. -/
theorem index_reopens (path : String) (baseOffset : Int) (maxBytes : Nat) (fresh : MappedIndex)
    (created : MappedIndex.create path baseOffset maxBytes = .ok fresh) (calls : List (Int × UInt32)) :
    (Advancing baseOffset calls → fresh.returned calls = calls) ∧
      ∃ spent trimmed, (fresh.afterAppends calls).flushAndTrim = .ok (spent, trimmed) ∧
        ∀ file, LeftAs (fresh.afterAppends calls) trimmed file → ∀ cut,
          Reopens baseOffset
            ((((fresh.returned calls).map (MappedIndex.entryOf baseOffset)).take (maxBytes / kEntrySize)).take
              (cut / kEntrySize))
            (MappedIndex.openSealed path baseOffset (file.take cut)) := by
  obtain ⟨empty, isCreated, builds⟩ := create_builds created
  rw [OffsetIndex.create] at isCreated
  split at isCreated
  · cases isCreated
  cases isCreated
  constructor
  · intro advancing
    exact advancing_returned builds advancing (by simp)
  obtain ⟨index, built, base, capacity, named, entries⟩ := builds.after_appends calls
  simp only [List.nil_append, List.length_nil, Nat.sub_zero] at entries
  obtain ⟨spent, trimmed⟩ := built.flushes
  refine ⟨spent, _, trimmed, ?_⟩
  intro file left cut
  obtain ⟨zeroes, rfl⟩ : ∃ zeroes, file = index.entries.flatMap writeEntry ++ List.replicate zeroes 0 := by
    rcases left with rfl | rfl | ⟨zeroes, rfl⟩
    · exact ⟨0, by simp⟩
    · exact ⟨_, built.bytes⟩
    · exact ⟨zeroes, rfl⟩
  obtain ⟨tail, shows_⟩ := open_cut_shows index built.positions zeroes cut
  have reopens := shows_.reopens
  simp only [cutIndex, base, named, entries] at reopens ⊢
  exact reopens

/-- Room for two entries, a third call dropped, the file cut in the second. -/
theorem index_reopens_cut :
    ∃ fresh spent trimmed, MappedIndex.create "5.index" 5 20 = .ok fresh ∧
      (fresh.afterAppends [(5, 3), (7, 9), (20, 30)]).flushAndTrim = .ok (spent, trimmed) ∧
      Reopens 5 [⟨0, 3⟩, ⟨2, 9⟩] (MappedIndex.openSealed "5.index" 5 (trimmed.take 20)) ∧
      Reopens 5 [⟨0, 3⟩] (MappedIndex.openSealed "5.index" 5 (trimmed.take 15)) := by
  obtain ⟨fresh, created⟩ : ∃ fresh, MappedIndex.create "5.index" 5 20 = .ok fresh := ⟨_, rfl⟩
  obtain ⟨returned, spent, trimmed, ran, reopens⟩ :=
    index_reopens "5.index" 5 20 fresh created [(5, 3), (7, 9), (20, 30)]
  have advancing : Advancing 5 [(5, 3), (7, 9), (20, 30)] := ⟨by decide, by decide, by decide⟩
  rw [returned advancing] at reopens
  exact ⟨fresh, spent, trimmed, created, ran, reopens trimmed (.inl rfl) 20, reopens trimmed (.inl rfl) 15⟩

end DariyaKyu.Storage

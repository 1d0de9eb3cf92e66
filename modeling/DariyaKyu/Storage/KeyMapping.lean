import DariyaKyu.Library.NewestByKey
import DariyaKyu.Storage.Cleaning

/-!
What the first phase of a pass maps. It goes through the segments that reach
past the mark, record by record, and the map is a summary of the keyed records
it has got to. The budget ends it at the first record whose key is one too many,
and the range that counts as mapped ends in front of that record's segment.
-/

namespace DariyaKyu.Storage

set_option autoImplicit false

open NewestByKey

def keyedOf (records : List LogRecord) : List (Digest × Int) :=
  records.filterMap fun record => record.key.map fun key => (digestOf key, record.offset)

theorem keyed_of_append (front rest : List LogRecord) :
    keyedOf (front ++ rest) = keyedOf front ++ keyedOf rest :=
  List.filterMap_append

theorem mem_keyed_of {records : List LogRecord} {digest : Digest} {offset : Int} :
    (digest, offset) ∈ keyedOf records ↔
      ∃ record ∈ records, ∃ key, record.key = some key ∧ digestOf key = digest ∧ record.offset = offset := by
  simp only [keyedOf, List.mem_filterMap, Option.map_eq_some_iff, Prod.mk.injEq]

structure MapHolds (map : KeyOffsetMap) (pairs : List (Digest × Int)) : Prop where
  summary : Summarises map.entries pairs
  within : map.entries.length ≤ map.maxEntries

theorem map_holds_empty (budget : Nat) : MapHolds ⟨budget, []⟩ [] := ⟨summarises_nil, Nat.zero_le _⟩

theorem put_eq (map : KeyOffsetMap) (key : Bytes) (offset : Int) :
    map.put key offset =
      if find map.entries (digestOf key) = none ∧ map.maxEntries ≤ map.entries.length then none
      else some { map with entries := put map.entries (digestOf key) offset } := by
  unfold KeyOffsetMap.put NewestByKey.put
  have same : map.find (digestOf key) = find map.entries (digestOf key) := rfl
  rw [same]
  cases find map.entries (digestOf key) with
  | none => simp
  | some known =>
      by_cases less : known < offset
      · simp only [less, if_true, reduceCtorEq, false_and, if_false, raise]
      · simp only [less, if_false, reduceCtorEq, false_and]

theorem MapHolds.put {map next : KeyOffsetMap} {pairs : List (Digest × Int)} (holds : MapHolds map pairs)
    {key : Bytes} {offset : Int} (added : map.put key offset = some next) :
    MapHolds next (pairs ++ [(digestOf key, offset)]) ∧ next.maxEntries = map.maxEntries := by
  rw [put_eq] at added
  split at added
  · cases added
  · next fits =>
    cases added
    refine ⟨⟨holds.summary.put _ _, ?_⟩, rfl⟩
    have within := holds.within
    simp only [NewestByKey.put]
    cases found : find map.entries (digestOf key) with
    | none =>
        simp only [found, true_and, not_le] at fits
        simp only [List.length_append, List.length_singleton]
        omega
    | some known =>
        simp only
        split
        · rw [raise, List.length_map]
          exact within
        · exact within

/-- What a part of the first phase makes of its map: it takes these records in,
all of them unless the budget has refused one. -/
structure MapsRecords (map : KeyOffsetMap) (pairs : List (Digest × Int)) (records : List LogRecord)
    (next : KeyOffsetMap) (refused : Bool) : Prop where
  budget : next.maxEntries = map.maxEntries
  taken : ∃ front rest, records = front ++ rest ∧ MapHolds next (pairs ++ keyedOf front) ∧
    (refused = false → rest = [])
  refuses : refused = true → map.maxEntries < keyCount (pairs ++ keyedOf records)

section Phase

variable {map next : KeyOffsetMap} {pairs : List (Digest × Int)}

theorem MapsRecords.nothing (holds : MapHolds map pairs) : MapsRecords map pairs [] map false where
  budget := rfl
  taken := ⟨[], [], rfl, by simpa [keyedOf] using holds, fun _ => rfl⟩
  refuses := by simp

theorem MapsRecords.all {records : List LogRecord} (maps : MapsRecords map pairs records next false) :
    MapHolds next (pairs ++ keyedOf records) := by
  obtain ⟨front, rest, split, holds, finished⟩ := maps.taken
  rw [finished rfl, List.append_nil] at split
  exact split ▸ holds

theorem MapsRecords.append {middle : KeyOffsetMap} {first second : List LogRecord} {refused : Bool}
    (front : MapsRecords map pairs first middle false)
    (back : MapsRecords middle (pairs ++ keyedOf first) second next refused) :
    MapsRecords map pairs (first ++ second) next refused where
  budget := back.budget.trans front.budget
  taken := by
    obtain ⟨taken, rest, split, holds, finished⟩ := back.taken
    refine ⟨first ++ taken, rest, by rw [split, List.append_assoc], ?_, finished⟩
    rw [keyed_of_append, ← List.append_assoc]
    exact holds
  refuses := by
    intro refused
    have many := back.refuses refused
    rw [keyed_of_append, ← List.append_assoc, ← front.budget]
    exact many

/-- A part that is refused is refused with whatever stands behind it. -/
theorem MapsRecords.stops {records : List LogRecord} (maps : MapsRecords map pairs records next true)
    (behind : List LogRecord) : MapsRecords map pairs (records ++ behind) next true where
  budget := maps.budget
  taken := by
    obtain ⟨taken, rest, split, holds, _⟩ := maps.taken
    exact ⟨taken, rest ++ behind, by rw [split, List.append_assoc], holds, by simp⟩
  refuses := by
    intro _
    apply Nat.lt_of_lt_of_le (maps.refuses rfl)
    apply key_count_mono
    intro pair member
    rw [keyed_of_append, ← List.append_assoc]
    exact List.mem_append_left _ member

theorem map_records_spec (header : BatchHeader) (holds : MapHolds map pairs) (raw : List Record) :
    MapsRecords map pairs (raw.map (·.resolve header)) (mapRecords header map raw).1
      (mapRecords header map raw).2 := by
  induction raw generalizing map pairs with
  | nil => exact .nothing holds
  | cons record raw ih =>
      rw [List.map_cons, ← List.singleton_append]
      unfold mapRecords
      cases keyed : record.key with
      | none =>
          have unkeyed : keyedOf [record.resolve header] = [] := by
            simp [keyedOf, Record.resolve, keyed]
          simp only
          have passes : MapsRecords map pairs [record.resolve header] map false :=
            ⟨rfl, ⟨[record.resolve header], [], by simp, by simpa [unkeyed] using holds, fun _ => rfl⟩,
              by simp⟩
          apply passes.append
          rw [unkeyed, List.append_nil]
          exact ih holds
      | some key =>
          have one : keyedOf [record.resolve header] =
              [(digestOf key, record.offsetFrom header.baseOffset)] := by
            simp [keyedOf, Record.resolve, keyed]
          simp only
          cases added : map.put key (record.offsetFrom header.baseOffset) with
          | none =>
              apply MapsRecords.stops
              refine ⟨rfl, ⟨[], [record.resolve header], rfl, by simpa [keyedOf] using holds, by simp⟩, ?_⟩
              intro _
              rw [put_eq] at added
              split at added
              · next full =>
                have more := (holds.summary.put (digestOf key)
                  (record.offsetFrom header.baseOffset)).size
                rw [one, ← more]
                simp only [NewestByKey.put, full.1, List.length_append, List.length_singleton]
                omega
              · cases added
          | some next =>
              obtain ⟨nextHolds, budget⟩ := holds.put added
              rw [← one] at nextHolds
              simp only
              have takes : MapsRecords map pairs [record.resolve header] next false :=
                ⟨budget, ⟨[record.resolve header], [], by simp, nextHolds, fun _ => rfl⟩, by simp⟩
              exact takes.append (ih nextHolds)

theorem map_batches_spec (holds : MapHolds map pairs) {batches : List Bytes} {position : Nat}
    (complete : ∀ batch ∈ batches, CheckedBatch batch) {refused : Bool}
    (mapped : mapBatches map (scannedAt position batches) = .ok (next, refused)) :
    MapsRecords map pairs (batches.flatMap recordsOf) next refused := by
  induction batches generalizing map pairs position with
  | nil =>
      cases mapped
      exact .nothing holds
  | cons batch batches ih =>
      simp only [scannedAt, mapBatches] at mapped
      obtain ⟨raw, decoded, mapped⟩ := except_bind_ok mapped
      have spec := map_records_spec (headerOf batch) holds raw
      rw [← records_of_decoded (complete batch List.mem_cons_self) decoded] at spec
      rw [List.flatMap_cons]
      cases outcome : mapRecords (headerOf batch) map raw with
      | mk middle stopped =>
          rw [outcome] at mapped spec
          cases stopped with
          | true =>
              cases mapped
              exact spec.stops _
          | false =>
              have others : ∀ other ∈ batches, CheckedBatch other := fun other member =>
                complete other (List.mem_cons_of_mem _ member)
              exact spec.append (ih spec.all others mapped)

end Phase

theorem records_in_sealed {segment : SealedSegment} (holds : SealedHolds segment (batchesIn segment)) :
    recordsIn segment = (batchesIn segment).flatMap recordsOf := by
  rw [recordsIn, scan_sealed holds]
  simp only [← List.flatMap_map, scanned_at_bytes]

/-- What the first phase has mapped of the segments that reach past the mark:
all of those in front, and some of the records of the one that was refused. -/
structure MapsSegments (state : DirtyMap) (pairs : List (Digest × Int)) (dirty : DirtyMap)
    (mapped rest : List SealedSegment) (some_records : List LogRecord) : Prop where
  budget : dirty.map.maxEntries = state.map.maxEntries
  holds : MapHolds dirty.map (pairs ++ keyedOf (mapped.flatMap recordsIn ++ some_records))
  through : dirty.mappedThrough = (mapped.getLast?.map (·.nextOffset)).getD state.mappedThrough
  inside : ∀ record ∈ some_records, ∃ segment ∈ rest, record ∈ recordsIn segment
  refuses : ∀ segment ∈ rest.head?,
    state.map.maxEntries < keyCount (pairs ++ keyedOf (mapped.flatMap recordsIn ++ recordsIn segment))

theorem map_dirty_spec (firstDirtyOffset : Int) {segments : List SealedSegment} {state dirty : DirtyMap}
    {pairs : List (Digest × Int)} (mapHolds : MapHolds state.map pairs)
    (holds : ∀ segment ∈ segments, SealedHolds segment (batchesIn segment))
    (mapped : mapDirty firstDirtyOffset state (segments.map (·.info)) = .ok dirty) :
    ∃ front rest some_records,
      segments.filter (fun segment => decide (firstDirtyOffset < segment.nextOffset)) = front ++ rest ∧
        MapsSegments state pairs dirty front rest some_records := by
  induction segments generalizing state pairs with
  | nil =>
      cases mapped
      refine ⟨[], [], [], rfl, rfl, ?_, rfl, by simp, by simp⟩
      simpa [keyedOf] using mapHolds
  | cons segment segments ih =>
      have here := holds segment List.mem_cons_self
      have others : ∀ other ∈ segments, SealedHolds other (batchesIn other) := fun other member =>
        holds other (List.mem_cons_of_mem _ member)
      rw [List.map_cons, mapDirty] at mapped
      by_cases skipped : segment.nextOffset ≤ firstDirtyOffset
      · have skips : segment.info.nextOffset ≤ firstDirtyOffset := skipped
        rw [if_pos skips] at mapped
        rw [List.filter_cons_of_neg (by simpa using skipped)]
        exact ih mapHolds others mapped
      · have goes : ¬ segment.info.nextOffset ≤ firstDirtyOffset := skipped
        have scanned : scanSegment segment.info.contents = .ok (scannedAt 0 (batchesIn segment)) :=
          scan_sealed here
        have complete : ∀ batch ∈ batchesIn segment, CheckedBatch batch := fun batch member =>
          (here.intact batch member).complete
        rw [if_neg goes] at mapped
        simp only [scanned, except_ok_bind] at mapped
        obtain ⟨⟨next, refused⟩, ran, mapped⟩ := except_bind_ok mapped
        have spec := map_batches_spec mapHolds complete ran
        rw [← records_in_sealed here] at spec
        rw [List.filter_cons_of_pos (by simpa using skipped)]
        cases refused with
        | true =>
            cases mapped
            obtain ⟨front, rest, split, frontHolds, _⟩ := spec.taken
            refine ⟨[], _, front, rfl, spec.budget, by simpa using frontHolds, rfl, ?_, ?_⟩
            · intro record member
              refine ⟨segment, List.mem_cons_self, ?_⟩
              rw [split]
              exact List.mem_append_left _ member
            · intro other isOther
              cases isOther
              simpa using spec.refuses rfl
        | false =>
            obtain ⟨front, rest, some_records, split, maps⟩ := ih spec.all others mapped
            refine ⟨segment :: front, rest, some_records, by rw [split, List.cons_append], ?_⟩
            have budget := maps.budget
            refine ⟨budget.trans spec.budget, ?_, ?_, maps.inside, ?_⟩
            · have same := maps.holds
              rw [List.append_assoc, ← keyed_of_append] at same
              simpa using same
            · rw [maps.through]
              cases front using List.reverseRecOn with
              | nil => simp [SealedSegment.info]
              | append_singleton front last _ => simp [List.getLast?_cons]
            · intro other isOther
              have many := maps.refuses other isOther
              rw [List.append_assoc, ← keyed_of_append] at many
              rw [← spec.budget]
              simpa using many

end DariyaKyu.Storage

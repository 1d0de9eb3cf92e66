import DariyaKyu.Storage.KeyMapping

/-!
`storage/key_offset_map.cpp` over whole runs. Whatever is put in which order, the
map answers for a key with the highest offset of the puts of that key it took,
and it takes every put but one that would need an entry it has no room for. What
it refuses, and what it takes of other keys, makes no difference to the answer.
-/

namespace DariyaKyu.Storage

set_option autoImplicit false

open NewestByKey

namespace KeyOffsetMap

def get (map : KeyOffsetMap) (key : Bytes) : Option Int := map.find (digestOf key)

def size (map : KeyOffsetMap) : Nat := map.entries.length

/-- `put` with what it returns: false when the map is full and the key is new. -/
def called (map : KeyOffsetMap) (call : Bytes × Int) : KeyOffsetMap × Bool :=
  match map.find (digestOf call.1) with
  | some known =>
      if known < call.2 then
        ({ map with entries := map.entries.map fun entry =>
            if entry.1 = digestOf call.1 then (entry.1, call.2) else entry }, true)
      else (map, true)
  | none =>
      if map.maxEntries ≤ map.entries.length then (map, false)
      else ({ map with entries := map.entries ++ [(digestOf call.1, call.2)] }, true)

def afterCalls (map : KeyOffsetMap) (calls : List (Bytes × Int)) : KeyOffsetMap :=
  calls.foldl (fun map call => (map.called call).1) map

def accepted : KeyOffsetMap → List (Bytes × Int) → List (Bytes × Int)
  | _, [] => []
  | map, call :: calls =>
      if (map.called call).2 then call :: accepted (map.called call).1 calls
      else accepted (map.called call).1 calls

end KeyOffsetMap

def offsetsOf (key : Bytes) (calls : List (Bytes × Int)) : List Int :=
  (calls.filter (·.1 = key)).map Prod.snd

def DistinctDigests (keys : List Bytes) : Prop :=
  ∀ first ∈ keys, ∀ second ∈ keys, digestOf first = digestOf second → first = second

def digested (calls : List (Bytes × Int)) : List (Digest × Int) :=
  calls.map fun call => (digestOf call.1, call.2)

namespace KeyOffsetMap

theorem put_eq_called (map : KeyOffsetMap) (call : Bytes × Int) :
    map.put call.1 call.2 = if (map.called call).2 then some (map.called call).1 else none := by
  cases found : map.find (digestOf call.1) with
  | some known => by_cases newer : known < call.2 <;> simp [put, called, found, newer]
  | none => by_cases full : map.maxEntries ≤ map.entries.length <;> simp [put, called, found, full]

/-- When `put` returns false: there is no entry, and no room for one. -/
theorem called_false_iff (map : KeyOffsetMap) (call : Bytes × Int) :
    (map.called call).2 = false ↔ map.get call.1 = none ∧ map.maxEntries ≤ map.size := by
  simp only [called, get, size]
  cases map.find (digestOf call.1) with
  | some known => by_cases newer : known < call.2 <;> simp [newer]
  | none => by_cases full : map.maxEntries ≤ map.entries.length <;> simp [full]

theorem called_refused {map : KeyOffsetMap} {call : Bytes × Int} (refused : (map.called call).2 = false) :
    (map.called call).1 = map := by
  cases found : map.find (digestOf call.1) with
  | some known => by_cases newer : known < call.2 <;> simp [called, found, newer] at refused
  | none =>
      by_cases full : map.maxEntries ≤ map.entries.length
      · simp only [called, found, full, if_true]
      · simp [called, found, full] at refused

theorem called_holds {map : KeyOffsetMap} {pairs : List (Digest × Int)} (holds : MapHolds map pairs)
    (call : Bytes × Int) :
    MapHolds (map.called call).1 (pairs ++ digested (map.accepted [call])) ∧
      (map.called call).1.maxEntries = map.maxEntries := by
  cases took : (map.called call).2 with
  | false =>
      simp only [accepted, took, digested, Bool.false_eq_true, if_false, List.map_nil, List.append_nil,
        called_refused took]
      exact ⟨holds, trivial⟩
  | true =>
      have added : map.put call.1 call.2 = some (map.called call).1 := by rw [put_eq_called, took, if_pos rfl]
      simp only [accepted, took, digested, if_true, List.map_cons, List.map_nil]
      exact holds.put added

theorem accepted_cons (map : KeyOffsetMap) (call : Bytes × Int) (calls : List (Bytes × Int)) :
    map.accepted (call :: calls) = map.accepted [call] ++ (map.called call).1.accepted calls := by
  simp only [accepted]
  split <;> rfl

theorem after_calls_holds {map : KeyOffsetMap} {pairs : List (Digest × Int)} (holds : MapHolds map pairs)
    (calls : List (Bytes × Int)) :
    MapHolds (map.afterCalls calls) (pairs ++ digested (map.accepted calls)) ∧
      (map.afterCalls calls).maxEntries = map.maxEntries := by
  induction calls generalizing map pairs with
  | nil =>
      simp only [accepted, digested, List.map_nil, List.append_nil]
      exact ⟨holds, rfl⟩
  | cons call calls ih =>
      obtain ⟨next, budget⟩ := called_holds holds call
      obtain ⟨later, same⟩ := ih next
      rw [accepted_cons, digested, List.map_append, ← List.append_assoc]
      exact ⟨later, same.trans budget⟩

theorem after_calls_append (map : KeyOffsetMap) (first second : List (Bytes × Int)) :
    map.afterCalls (first ++ second) = (map.afterCalls first).afterCalls second :=
  List.foldl_append

theorem accepted_append (map : KeyOffsetMap) (first second : List (Bytes × Int)) :
    map.accepted (first ++ second) = map.accepted first ++ (map.afterCalls first).accepted second := by
  induction first generalizing map with
  | nil => rfl
  | cons call first ih =>
      rw [List.cons_append, accepted_cons, ih, accepted_cons map call first, List.append_assoc]
      rfl

theorem accepted_sublist (map : KeyOffsetMap) (calls : List (Bytes × Int)) :
    (map.accepted calls).Sublist calls := by
  induction calls generalizing map with
  | nil => exact List.Sublist.refl _
  | cons call calls ih =>
      rw [accepted]
      split
      · exact (ih _).cons_cons call
      · exact (ih _).cons call

end KeyOffsetMap

theorem digested_offsets {keys : List Bytes} (distinct : DistinctDigests keys) {calls : List (Bytes × Int)}
    (used : ∀ call ∈ calls, call.1 ∈ keys) {key : Bytes} (asked : key ∈ keys) :
    ((digested calls).filter (·.1 = digestOf key)).map Prod.snd = offsetsOf key calls := by
  rw [digested, offsetsOf, List.filter_map, List.map_map]
  have same : ∀ call ∈ calls, decide (digestOf call.1 = digestOf key) = decide (call.1 = key) := by
    intro call member
    rw [decide_eq_decide]
    exact ⟨distinct _ (used call member) _ asked, fun equal => by rw [equal]⟩
  simp only [Function.comp_def]
  rw [List.filter_congr same]

theorem offsets_of_append (key : Bytes) (first second : List (Bytes × Int)) :
    offsetsOf key (first ++ second) = offsetsOf key first ++ offsetsOf key second := by
  simp only [offsetsOf, List.filter_append, List.map_append]

theorem offsets_of_other {key : Bytes} {call : Bytes × Int} (other : call.1 ≠ key) (map : KeyOffsetMap) :
    offsetsOf key (map.accepted [call]) = [] := by
  simp only [KeyOffsetMap.accepted]
  split <;> simp [offsetsOf, other]

section Run

variable {budget : Nat} {keys : List Bytes} {calls : List (Bytes × Int)}

theorem get_after_calls (distinct : DistinctDigests keys) (used : ∀ call ∈ calls, call.1 ∈ keys)
    {key : Bytes} (asked : key ∈ keys) :
    ((⟨budget, []⟩ : KeyOffsetMap).afterCalls calls).get key =
      (offsetsOf key ((⟨budget, []⟩ : KeyOffsetMap).accepted calls)).max? := by
  have holds := (KeyOffsetMap.after_calls_holds (map_holds_empty budget) calls).1
  have taken : ∀ call ∈ (⟨budget, []⟩ : KeyOffsetMap).accepted calls, call.1 ∈ keys := fun call member =>
    used call ((KeyOffsetMap.accepted_sublist _ calls).subset member)
  rw [← digested_offsets distinct taken asked]
  exact holds.summary.find_eq_max (digestOf key)

end Run

/-- `isLatest` asks about the newest offset and nothing else. -/
theorem is_latest_iff (map : KeyOffsetMap) (key : Bytes) (offset : Int) :
    map.isLatest key offset = true ↔ ∀ newest, map.get key = some newest → newest ≤ offset := by
  unfold KeyOffsetMap.isLatest KeyOffsetMap.get
  cases map.find (digestOf key) with
  | none => simp
  | some newest => simp

/-- What a map of this budget answers for these keys when it has taken these puts. -/
structure AnswersNewest (budget : Nat) (keys : List Bytes) (taken : List (Bytes × Int))
    (map : KeyOffsetMap) : Prop where
  within : map.size ≤ budget
  refuses : ∀ call, (map.called call).2 = false ↔ map.get call.1 = none ∧ budget ≤ map.size
  unchanged : ∀ call, (map.called call).2 = false → (map.called call).1 = map
  newest : ∀ key ∈ keys, map.get key = (offsetsOf key taken).max?
  latest : ∀ key ∈ keys, ∀ offset, map.isLatest key offset = true ↔
    map.get key = none ∨ ∃ newest, (offsetsOf key taken).max? = some newest ∧ newest ≤ offset
  others : ∀ key ∈ keys, ∀ call : Bytes × Int, call.1 ∈ keys → call.1 ≠ key →
    (map.called call).1.get key = map.get key ∧
      ∀ offset, (map.called call).1.isLatest key offset = map.isLatest key offset

/-- Over every sequence of calls the map answers with the newest offset it took. -/
theorem key_map_answers (budget : Nat) (keys : List Bytes) (calls : List (Bytes × Int))
    (distinct : DistinctDigests keys) (used : ∀ call ∈ calls, call.1 ∈ keys) :
    AnswersNewest budget keys ((⟨budget, []⟩ : KeyOffsetMap).accepted calls)
      ((⟨budget, []⟩ : KeyOffsetMap).afterCalls calls) := by
  obtain ⟨holds, same⟩ := KeyOffsetMap.after_calls_holds (map_holds_empty budget) calls
  refine ⟨?_, ?_, ?_, ?_, ?_, ?_⟩
  · have within := holds.within
    rw [same] at within
    exact within
  · intro call
    rw [KeyOffsetMap.called_false_iff, same]
  · intro call refused
    exact KeyOffsetMap.called_refused refused
  · intro key asked
    exact get_after_calls distinct used asked
  · intro key asked offset
    have newest := @get_after_calls budget keys calls distinct used key asked
    rw [is_latest_iff, ← newest]
    cases ((⟨budget, []⟩ : KeyOffsetMap).afterCalls calls).get key with
    | none => simp
    | some highest => simp
  · intro key asked call known other
    have unchanged : (((⟨budget, []⟩ : KeyOffsetMap).afterCalls calls).called call).1.get key =
        ((⟨budget, []⟩ : KeyOffsetMap).afterCalls calls).get key := by
      have oneMore : ∀ earlier ∈ calls ++ [call], earlier.1 ∈ keys := by
        intro earlier member
        rcases List.mem_append.mp member with old | new
        · exact used earlier old
        · exact List.mem_singleton.mp new ▸ known
      have later := @get_after_calls budget keys (calls ++ [call]) distinct oneMore key asked
      rw [KeyOffsetMap.after_calls_append, KeyOffsetMap.accepted_append, offsets_of_append,
        offsets_of_other other, List.append_nil, ← get_after_calls distinct used asked] at later
      exact later
    refine ⟨unchanged, ?_⟩
    intro offset
    rw [Bool.eq_iff_iff, is_latest_iff, is_latest_iff, unchanged]

/-- A full map meets a key it knows, with a newer offset and an older one, and a new key. -/
theorem key_map_answers_full :
    (⟨1, []⟩ : KeyOffsetMap).accepted [([1], 4), ([2], 5), ([1], 9), ([1], 7)] =
        [([1], 4), ([1], 9), ([1], 7)] ∧
      AnswersNewest 1 [[1], [2]] [([1], 4), ([1], 9), ([1], 7)]
        ((⟨1, []⟩ : KeyOffsetMap).afterCalls [([1], 4), ([2], 5), ([1], 9), ([1], 7)]) := by
  have taken : (⟨1, []⟩ : KeyOffsetMap).accepted [([1], 4), ([2], 5), ([1], 9), ([1], 7)] =
      [([1], 4), ([1], 9), ([1], 7)] := by decide +kernel
  have answers := key_map_answers 1 [[1], [2]] [([1], 4), ([2], 5), ([1], 9), ([1], 7)]
    (by unfold DistinctDigests; decide +kernel) (by decide)
  rw [taken] at answers
  exact ⟨taken, answers⟩

end DariyaKyu.Storage

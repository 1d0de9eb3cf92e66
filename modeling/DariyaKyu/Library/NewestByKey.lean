import Mathlib.Data.List.Dedup
import Mathlib.Data.List.Perm.Subperm
import Mathlib.Order.MinMax

/-!
A table with one entry per key that keeps the highest value seen for it. Pairs
are put in one after the other; what the table says is a summary of all of them,
and its size is the number of keys among them.
-/

namespace NewestByKey

set_option autoImplicit false

variable {κ ω : Type} {entries pairs : List (κ × ω)} {key : κ} {value : ω}

section Entries

variable [DecidableEq κ]

def find (entries : List (κ × ω)) (key : κ) : Option ω := (entries.find? (·.1 = key)).map (·.2)

def raise (entries : List (κ × ω)) (key : κ) (value : ω) : List (κ × ω) :=
  entries.map fun entry => if entry.1 = key then (entry.1, value) else entry

theorem find_none_iff : find entries key = none ↔ key ∉ entries.map Prod.fst := by
  simp only [find, Option.map_eq_none_iff, List.find?_eq_none, decide_eq_true_eq, List.mem_map,
    not_exists, not_and]

theorem mem_of_find (found : find entries key = some value) : (key, value) ∈ entries := by
  simp only [find, Option.map_eq_some_iff] at found
  obtain ⟨entry, isEntry, rfl⟩ := found
  have named := List.find?_some isEntry
  simp only [decide_eq_true_eq] at named
  rw [← named]
  exact List.mem_of_find?_eq_some isEntry

theorem raise_keys (entries : List (κ × ω)) (key : κ) (value : ω) :
    (raise entries key value).map Prod.fst = entries.map Prod.fst := by
  rw [raise, List.map_map]
  apply List.map_congr_left
  intro entry _
  simp only [Function.comp]
  split <;> rfl

theorem mem_raise {entry : κ × ω} (member : entry ∈ raise entries key value) :
    (entry ∈ entries ∧ entry.1 ≠ key) ∨ entry = (key, value) := by
  obtain ⟨old, isOld, rfl⟩ := List.mem_map.mp member
  by_cases same : old.1 = key
  · right
    simp [same]
  · left
    simpa [same] using isOld

def keyCount (pairs : List (κ × ω)) : Nat := (pairs.map Prod.fst).dedup.length

theorem key_count_mono {more : List (κ × ω)} (inside : ∀ pair ∈ pairs, pair ∈ more) :
    keyCount pairs ≤ keyCount more := by
  apply List.Subperm.length_le
  apply List.subperm_of_subset (List.nodup_dedup _)
  intro key
  simp only [List.mem_dedup, List.mem_map]
  rintro ⟨pair, member, rfl⟩
  exact ⟨pair, inside pair member, rfl⟩

end Entries

section Ordered

variable [LinearOrder ω]

/-- Each key among the pairs has one entry, and it is their highest value. -/
structure Summarises (entries pairs : List (κ × ω)) : Prop where
  distinct : (entries.map Prod.fst).Nodup
  attained : ∀ entry ∈ entries, entry ∈ pairs
  highest : ∀ entry ∈ entries, ∀ pair ∈ pairs, pair.1 = entry.1 → pair.2 ≤ entry.2
  complete : ∀ pair ∈ pairs, pair.1 ∈ entries.map Prod.fst

theorem summarises_nil : Summarises ([] : List (κ × ω)) [] where
  distinct := List.nodup_nil
  attained := by simp
  highest := by simp
  complete := by simp

variable [DecidableEq κ]

def put (entries : List (κ × ω)) (key : κ) (value : ω) : List (κ × ω) :=
  match find entries key with
  | some known => if known < value then raise entries key value else entries
  | none => entries ++ [(key, value)]

namespace Summarises

theorem find_iff (summary : Summarises entries pairs) :
    find entries key = some value ↔ (key, value) ∈ entries := by
  constructor
  · exact mem_of_find
  · intro member
    cases found : find entries key with
    | none => exact absurd (List.mem_map_of_mem member) (find_none_iff.mp found)
    | some other =>
        have there := mem_of_find found
        have same := List.inj_on_of_nodup_map summary.distinct there member rfl
        cases same
        rfl

theorem put (summary : Summarises entries pairs) (key : κ) (value : ω) :
    Summarises (put entries key value) (pairs ++ [(key, value)]) := by
  cases found : find entries key with
  | none =>
      have fresh := find_none_iff.mp found
      have unseen : ∀ pair ∈ pairs, pair.1 ≠ key := by
        intro pair member same
        exact fresh (same ▸ summary.complete pair member)
      simp only [NewestByKey.put, found]
      constructor
      · rw [List.map_append]
        exact List.nodup_append.mpr ⟨summary.distinct, by simp, by
          intro first isFirst second isSecond same
          simp only [List.map_cons, List.map_nil, List.mem_singleton] at isSecond
          exact fresh (isSecond ▸ same ▸ isFirst)⟩
      · intro entry member
        rcases List.mem_append.mp member with old | new
        · exact List.mem_append_left _ (summary.attained entry old)
        · exact List.mem_append_right _ new
      · intro entry member pair isPair same
        rcases List.mem_append.mp member with old | new
        · rcases List.mem_append.mp isPair with earlier | last
          · exact summary.highest entry old pair earlier same
          · rw [List.mem_singleton.mp last] at same
            have listed := List.mem_map_of_mem (f := Prod.fst) old
            rw [← same] at listed
            exact absurd listed fresh
        · rw [List.mem_singleton.mp new] at same ⊢
          rcases List.mem_append.mp isPair with earlier | last
          · exact absurd same (unseen pair earlier)
          · rw [List.mem_singleton.mp last]
      · intro pair isPair
        rw [List.map_append]
        rcases List.mem_append.mp isPair with earlier | last
        · exact List.mem_append_left _ (summary.complete pair earlier)
        · rw [List.mem_singleton.mp last]
          simp
  | some known =>
      have there := mem_of_find found
      have listed : key ∈ entries.map Prod.fst := List.mem_map_of_mem there
      by_cases less : known < value
      · simp only [NewestByKey.put, found, less, if_true]
        refine ⟨?_, ?_, ?_, ?_⟩
        · rw [raise_keys]
          exact summary.distinct
        · intro entry member
          rcases mem_raise member with ⟨old, _⟩ | raised
          · exact List.mem_append_left _ (summary.attained entry old)
          · simp [raised]
        · intro entry member pair isPair same
          rcases mem_raise member with ⟨old, other⟩ | raised
          · rcases List.mem_append.mp isPair with earlier | last
            · exact summary.highest entry old pair earlier same
            · rw [List.mem_singleton.mp last] at same
              exact absurd same.symm other
          · rw [raised] at same ⊢
            rcases List.mem_append.mp isPair with earlier | last
            · exact (summary.highest _ there pair earlier same).trans less.le
            · rw [List.mem_singleton.mp last]
        · intro pair isPair
          rw [raise_keys]
          rcases List.mem_append.mp isPair with earlier | last
          · exact summary.complete pair earlier
          · rw [List.mem_singleton.mp last]
            exact listed
      · simp only [NewestByKey.put, found, less, if_false]
        refine ⟨summary.distinct, ?_, ?_, ?_⟩
        · exact fun entry member => List.mem_append_left _ (summary.attained entry member)
        · intro entry member pair isPair same
          rcases List.mem_append.mp isPair with earlier | last
          · exact summary.highest entry member pair earlier same
          · rw [List.mem_singleton.mp last] at same ⊢
            have alike := List.inj_on_of_nodup_map summary.distinct there member same
            rw [← alike]
            exact not_lt.mp less
        · intro pair isPair
          rcases List.mem_append.mp isPair with earlier | last
          · exact summary.complete pair earlier
          · rw [List.mem_singleton.mp last]
            exact listed

/-- What the table says of a key is the maximum of the values put under it. -/
theorem find_eq_max (summary : Summarises entries pairs) (key : κ) :
    find entries key = ((pairs.filter (·.1 = key)).map Prod.snd).max? := by
  have under : ∀ {value : ω}, value ∈ (pairs.filter (·.1 = key)).map Prod.snd ↔ (key, value) ∈ pairs := by
    intro value
    simp only [List.mem_map, List.mem_filter, decide_eq_true_eq]
    constructor
    · rintro ⟨pair, ⟨member, rfl⟩, rfl⟩
      exact member
    · intro member
      exact ⟨(key, value), ⟨member, rfl⟩, rfl⟩
  cases found : find entries key with
  | none =>
      symm
      rw [List.max?_eq_none_iff, List.eq_nil_iff_forall_not_mem]
      intro value member
      exact find_none_iff.mp found (summary.complete _ (under.mp member))
  | some newest =>
      symm
      have lawful : Std.LawfulOrderMax ω :=
        Std.LawfulOrderMax.of_max_le_iff (fun _ _ _ => max_le_iff) max_choice
      rw [List.max?_eq_some_iff]
      have there := mem_of_find found
      refine ⟨under.mpr (summary.attained _ there), ?_⟩
      intro value member
      exact summary.highest _ there _ (under.mp member) rfl

/-- The table has as many entries as there are keys among the pairs. -/
theorem size (summary : Summarises entries pairs) : entries.length = keyCount pairs := by
  have same : (entries.map Prod.fst).Perm (pairs.map Prod.fst).dedup := by
    apply (List.perm_ext_iff_of_nodup summary.distinct (List.nodup_dedup _)).mpr
    intro key
    rw [List.mem_dedup]
    constructor
    · intro listed
      obtain ⟨entry, member, rfl⟩ := List.mem_map.mp listed
      exact List.mem_map_of_mem (summary.attained entry member)
    · intro seen
      obtain ⟨pair, member, rfl⟩ := List.mem_map.mp seen
      exact summary.complete pair member
  rw [keyCount, ← same.length_eq, List.length_map]

end Summarises

end Ordered

end NewestByKey

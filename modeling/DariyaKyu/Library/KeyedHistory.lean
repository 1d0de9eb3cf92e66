import Mathlib.Data.List.MinMax

/-!
Records that may carry a key and stand at an offset. What a collection of them
says about a key is its record at the highest offset, so a collection keeps
saying the same exactly when whatever it gives up has something above it. Where
only the value of that record counts, one without a value may go as well, as
long as what is left has no value for the key either.
-/

namespace KeyedHistory

set_option autoImplicit false

variable {ρ κ ω : Type} [LinearOrder ω] (keyOf : ρ → Option κ) (offsetOf : ρ → ω)

/-- The record with the highest offset for its key. -/
structure Newest (records : List ρ) (record : ρ) (key : κ) : Prop where
  member : record ∈ records
  keyed : keyOf record = some key
  highest : ∀ other ∈ records, keyOf other = some key → offsetOf other ≤ offsetOf record

instance [DecidableEq ρ] [DecidableEq κ] (records : List ρ) (record : ρ) (key : κ) :
    Decidable (Newest keyOf offsetOf records record key) :=
  decidable_of_iff (record ∈ records ∧ keyOf record = some key ∧
      ∀ other ∈ records, keyOf other = some key → offsetOf other ≤ offsetOf record)
    ⟨fun ⟨member, keyed, highest⟩ => ⟨member, keyed, highest⟩, fun holds => ⟨holds.1, holds.2, holds.3⟩⟩

theorem newest_exists [DecidableEq κ] {records : List ρ} {record : ρ} {key : κ} (member : record ∈ records)
    (keyed : keyOf record = some key) :
    ∃ newest, Newest keyOf offsetOf records newest key ∧ offsetOf record ≤ offsetOf newest := by
  have candidate : record ∈ records.filter (keyOf · = some key) := by simp [member, keyed]
  cases found : (records.filter (keyOf · = some key)).argmax offsetOf with
  | none => simp [List.argmax_eq_none.mp found] at candidate
  | some newest =>
      have isNewest := List.argmax_mem found
      simp only [List.mem_filter, decide_eq_true_eq] at isNewest
      have above : ∀ other ∈ records, keyOf other = some key → offsetOf other ≤ offsetOf newest := by
        intro other isOther otherKeyed
        exact List.le_of_mem_argmax (List.mem_filter.mpr ⟨isOther, by simpa using otherKeyed⟩) found
      exact ⟨newest, ⟨isNewest.1, isNewest.2, above⟩, above record member keyed⟩

/-- What is given up does not change what is newest exactly when no newest record
is given up. -/
theorem newest_unchanged_iff [DecidableEq κ] {records kept : List ρ} (inside : ∀ record ∈ kept, record ∈ records) :
    (∀ record key, Newest keyOf offsetOf records record key ↔ Newest keyOf offsetOf kept record key) ↔
      ∀ record key, Newest keyOf offsetOf records record key → record ∈ kept := by
  constructor
  · intro same record key holds
    exact ((same record key).mp holds).member
  · intro keeps record key
    constructor
    · intro holds
      exact ⟨keeps record key holds, holds.keyed, fun other isOther => holds.highest other (inside other isOther)⟩
    · intro holds
      refine ⟨inside record holds.member, holds.keyed, ?_⟩
      intro other isOther otherKeyed
      obtain ⟨newest, isNewest, above⟩ := newest_exists keyOf offsetOf isOther otherKeyed
      exact above.trans (holds.highest newest (keeps newest key isNewest) isNewest.keyed)

section Reading

variable {ν : Type} [DecidableEq κ] (valueOf : ρ → Option ν)

/-- What a collection says of a key: the value of its newest record, if it has one. -/
def reading (records : List ρ) (key : κ) : Option ν :=
  ((records.filter (keyOf · = some key)).argmax offsetOf).bind valueOf

variable {keyOf offsetOf valueOf} {records kept : List ρ} {key : κ}

/-- Where no two records stand at one offset, the reading is the newest record's value. -/
theorem reading_of_newest (distinct : ∀ first ∈ records, ∀ second ∈ records,
    offsetOf first = offsetOf second → first = second) {newest : ρ}
    (holds : Newest keyOf offsetOf records newest key) :
    reading keyOf offsetOf valueOf records key = valueOf newest := by
  have candidate : newest ∈ records.filter (keyOf · = some key) := by simp [holds.member, holds.keyed]
  rw [reading]
  cases found : (records.filter (keyOf · = some key)).argmax offsetOf with
  | none => simp [List.argmax_eq_none.mp found] at candidate
  | some latest =>
      have isLatest := List.argmax_mem found
      simp only [List.mem_filter, decide_eq_true_eq] at isLatest
      have above := holds.highest latest isLatest.1 isLatest.2
      have below := List.le_of_mem_argmax candidate found
      rw [distinct latest isLatest.1 newest holds.member (le_antisymm above below)]
      rfl

theorem reading_of_absent (absent : ∀ record ∈ records, keyOf record ≠ some key) :
    reading keyOf offsetOf valueOf records key = none := by
  have nothing : records.filter (keyOf · = some key) = [] := by
    apply List.filter_eq_nil_iff.mpr
    simpa using absent
  simp [reading, nothing]

/-- A collection that gives up the newest record of no key but those without a
value, and has no value for them either, says the same as before. -/
theorem reading_kept (distinct : ∀ first ∈ records, ∀ second ∈ records,
    offsetOf first = offsetOf second → first = second) (inside : ∀ record ∈ kept, record ∈ records)
    (covers : ∀ newest, Newest keyOf offsetOf records newest key → newest ∈ kept ∨
      (valueOf newest = none ∧
        ∀ other, Newest keyOf offsetOf kept other key → valueOf other = none)) :
    reading keyOf offsetOf valueOf kept key = reading keyOf offsetOf valueOf records key := by
  have still : ∀ first ∈ kept, ∀ second ∈ kept, offsetOf first = offsetOf second → first = second :=
    fun first isFirst second isSecond => distinct first (inside first isFirst) second (inside second isSecond)
  by_cases absent : ∀ record ∈ records, keyOf record ≠ some key
  · rw [reading_of_absent absent, reading_of_absent fun record member => absent record (inside record member)]
  · push Not at absent
    obtain ⟨record, member, keyed⟩ := absent
    obtain ⟨newest, holds, _⟩ := newest_exists keyOf offsetOf member keyed
    rw [reading_of_newest distinct holds]
    rcases covers newest holds with keeps | ⟨nothing, others⟩
    · exact reading_of_newest still
        ⟨keeps, holds.keyed, fun other isOther => holds.highest other (inside other isOther)⟩
    · rw [nothing]
      by_cases gone : ∀ other ∈ kept, keyOf other ≠ some key
      · exact reading_of_absent gone
      · push Not at gone
        obtain ⟨other, isOther, otherKeyed⟩ := gone
        obtain ⟨latest, isLatest, _⟩ := newest_exists keyOf offsetOf isOther otherKeyed
        rw [reading_of_newest still isLatest]
        exact others latest isLatest

end Reading

end KeyedHistory

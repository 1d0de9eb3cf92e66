import Mathlib.Data.List.Basic

/-!
A map as the list of its entries in key order, the order in which `std::map`
iterates. The order of the entries is a field, so a map has one representation,
a key has at most one entry, and the first entry has the smallest key.
-/

set_option autoImplicit false

structure OrderedMap (κ α : Type) [LT κ] where
  entries : List (κ × α)
  sorted : entries.Pairwise fun earlier later => earlier.1 < later.1

namespace OrderedMap

variable {κ α : Type} [LT κ]

def empty : OrderedMap κ α := ⟨[], .nil⟩

def first? (map : OrderedMap κ α) : Option (κ × α) := map.entries.head?

def isEmpty (map : OrderedMap κ α) : Bool := map.entries.isEmpty

def mapValues (map : OrderedMap κ α) (change : κ → α → α) : OrderedMap κ α where
  entries := map.entries.map fun entry => (entry.1, change entry.1 entry.2)
  sorted := List.pairwise_map.mpr map.sorted

/-- The entries that stay when the others are erased one after the other. -/
def filter (map : OrderedMap κ α) (keep : κ → α → Bool) : OrderedMap κ α where
  entries := map.entries.filter fun entry => keep entry.1 entry.2
  sorted := map.sorted.filter _

variable [DecidableEq κ]

def find? (map : OrderedMap κ α) (key : κ) : Option α :=
  (map.entries.find? (·.1 == key)).map (·.2)

def contains (map : OrderedMap κ α) (key : κ) : Bool := (map.find? key).isSome

def erase (map : OrderedMap κ α) (key : κ) : OrderedMap κ α :=
  map.filter fun other _ => !decide (other = key)

section Lookup

variable (map : OrderedMap κ α)

@[simp] theorem find_empty (key : κ) : (empty : OrderedMap κ α).find? key = none := rfl

@[simp] theorem find_map_values (change : κ → α → α) (key : κ) :
    (map.mapValues change).find? key = (map.find? key).map (change key) := by
  unfold find? mapValues
  simp only
  induction map.entries with
  | nil => rfl
  | cons head rest ih =>
      obtain ⟨other, old⟩ := head
      by_cases same : other = key
      · subst same
        simp
      · simpa [List.find?_cons, same] using ih

variable [LE κ] [Std.LawfulOrderLT κ]

theorem mem_entries {key : κ} {value : α} :
    (key, value) ∈ map.entries ↔ map.find? key = some value := by
  have sorted := map.sorted
  unfold find?
  generalize map.entries = entries at sorted ⊢
  induction entries with
  | nil => simp
  | cons head rest ih =>
      obtain ⟨other, old⟩ := head
      obtain ⟨above, later⟩ := List.pairwise_cons.mp sorted
      by_cases same : other = key
      · subst same
        have nowhere : ∀ others, (other, others) ∉ rest :=
          fun others member => absurd (above (other, others) member) Std.lt_irrefl
        simp [nowhere, eq_comm]
      · have different : (other == key) = false := beq_eq_false_iff_ne.mpr same
        rw [List.find?_cons, different]
        simpa [Ne.symm same] using ih later

theorem flat_map_only {β : Type} (key : κ) (lists : κ → α → List β) :
    (map.entries.flatMap fun entry => if entry.1 = key then lists entry.1 entry.2 else []) =
      ((map.find? key).map (lists key)).getD [] := by
  obtain ⟨entries, sorted⟩ := map
  simp only [find?]
  induction entries with
  | nil => rfl
  | cons entry entries ih =>
      obtain ⟨above, later⟩ := List.pairwise_cons.mp sorted
      rw [List.flatMap_cons, ih later]
      by_cases same : entry.1 = key
      · have absent : entries.find? (·.1 == key) = none := by
          apply List.find?_eq_none.mpr
          intro other inside also
          have less := above other inside
          rw [same, eq_of_beq also] at less
          exact absurd less Std.lt_irrefl
        simp [same, absent]
      · simp [same]

@[simp] theorem find_filter (keep : κ → α → Bool) (key : κ) :
    (map.filter keep).find? key = (map.find? key).filter (keep key) := by
  apply Option.ext
  intro value
  rw [← mem_entries, Option.filter_eq_some_iff, ← mem_entries]
  exact List.mem_filter

@[simp] theorem find_erase (key other : κ) :
    (map.erase key).find? other = if other = key then none else map.find? other := by
  rw [erase, find_filter]
  by_cases same : other = key
  · simp [same]
  · cases map.find? other <;> simp [same]

theorem is_empty_iff : map.isEmpty = true ↔ ∀ key, map.find? key = none := by
  rw [isEmpty, List.isEmpty_iff]
  constructor
  · intro nothing key
    simp [find?, nothing]
  · intro nothing
    apply List.eq_nil_iff_forall_not_mem.mpr
    rintro ⟨key, value⟩ member
    rw [mem_entries, nothing key] at member
    cases member

theorem filter_same {keep : κ → α → Bool}
    (all : ∀ key value, map.find? key = some value → keep key value = true) : map.filter keep = map := by
  have every : ∀ entry ∈ map.entries, keep entry.1 entry.2 = true := by
    rintro ⟨key, value⟩ member
    exact all key value (map.mem_entries.mp member)
  obtain ⟨entries, sorted⟩ := map
  simp only [filter, List.filter_eq_self.mpr every]

theorem map_values_same {change : κ → α → α}
    (all : ∀ key value, map.find? key = some value → change key value = value) :
    map.mapValues change = map := by
  have every : ∀ entry ∈ map.entries, (entry.1, change entry.1 entry.2) = id entry := by
    rintro ⟨key, value⟩ member
    exact congrArg (Prod.mk key) (all key value (map.mem_entries.mp member))
  obtain ⟨entries, sorted⟩ := map
  simp only [mapValues, List.map_congr_left every, List.map_id]

theorem all_iff (holds : κ → α → Bool) :
    (map.entries.all fun entry => holds entry.1 entry.2) = true ↔
      ∀ key value, map.find? key = some value → holds key value = true := by
  rw [List.all_eq_true]
  constructor
  · intro all key value found
    exact all _ (map.mem_entries.mpr found)
  · rintro all ⟨key, value⟩ member
    exact all key value (map.mem_entries.mp member)

variable [Std.IsLinearOrder κ]

theorem first_smallest {key : κ} {value : α} (isFirst : map.first? = some (key, value)) :
    map.find? key = some value ∧ ∀ other found, map.find? other = some found → key ≤ other := by
  have member := List.mem_of_mem_head? (Option.mem_def.mpr isFirst)
  refine ⟨map.mem_entries.mp member, ?_⟩
  intro other found isFound
  have sorted := map.sorted
  have inside := map.mem_entries.mpr isFound
  cases entries : map.entries with
  | nil => simp [entries] at inside
  | cons head rest =>
      rw [entries] at sorted inside
      simp only [first?, entries, List.head?_cons, Option.some.injEq] at isFirst
      subst isFirst
      rcases List.mem_cons.mp inside with same | behind
      · cases same
        exact Std.le_refl _
      · exact Std.le_of_lt ((List.pairwise_cons.mp sorted).1 _ behind)

end Lookup

section Insert

variable [DecidableLT κ]

def insertEntry (key : κ) (value : α) : List (κ × α) → List (κ × α)
  | [] => [(key, value)]
  | (other, old) :: rest =>
      if key < other then (key, value) :: (other, old) :: rest
      else if key = other then (key, value) :: rest
      else (other, old) :: insertEntry key value rest

theorem mem_insert_entry {key : κ} {value : α} {entry : κ × α} {entries : List (κ × α)}
    (member : entry ∈ insertEntry key value entries) : entry = (key, value) ∨ entry ∈ entries := by
  induction entries with
  | nil => exact .inl (List.mem_singleton.mp member)
  | cons head rest ih =>
      obtain ⟨other, old⟩ := head
      simp only [insertEntry] at member
      split at member
      · exact (List.mem_cons.mp member).imp_right id
      split at member
      · rcases List.mem_cons.mp member with here | behind
        · exact .inl here
        · exact .inr (List.mem_cons_of_mem _ behind)
      · rcases List.mem_cons.mp member with here | behind
        · exact .inr (here ▸ List.mem_cons_self)
        · exact (ih behind).imp_right (List.mem_cons_of_mem _)

variable [LE κ] [Std.IsLinearOrder κ] [Std.LawfulOrderLT κ]

theorem insert_entry_sorted (key : κ) (value : α) {entries : List (κ × α)}
    (sorted : entries.Pairwise fun earlier later => earlier.1 < later.1) :
    (insertEntry key value entries).Pairwise fun earlier later => earlier.1 < later.1 := by
  induction entries with
  | nil => exact List.pairwise_singleton _ _
  | cons head rest ih =>
      obtain ⟨other, old⟩ := head
      obtain ⟨above, later⟩ := List.pairwise_cons.mp sorted
      simp only [insertEntry]
      split
      · next before =>
        refine List.pairwise_cons.mpr ⟨?_, sorted⟩
        intro entry member
        rcases List.mem_cons.mp member with rfl | behind
        · exact before
        · exact Std.lt_trans before (above entry behind)
      split
      · next same =>
        subst same
        exact List.pairwise_cons.mpr ⟨above, later⟩
      · next notBefore different =>
        refine List.pairwise_cons.mpr ⟨?_, ih later⟩
        intro entry member
        rcases mem_insert_entry member with rfl | behind
        · exact Std.lt_of_le_of_ne (Std.not_lt.mp notBefore) (Ne.symm different)
        · exact above entry behind

def insert (map : OrderedMap κ α) (key : κ) (value : α) : OrderedMap κ α where
  entries := insertEntry key value map.entries
  sorted := insert_entry_sorted key value map.sorted

@[simp] theorem find_insert (map : OrderedMap κ α) (key other : κ) (value : α) :
    (map.insert key value).find? other = if other = key then some value else map.find? other := by
  unfold find? insert
  simp only
  induction map.entries with
  | nil =>
      by_cases same : other = key
      · simp [insertEntry, same]
      · simp [insertEntry, same, Ne.symm same]
  | cons head rest ih =>
      obtain ⟨first, old⟩ := head
      simp only [insertEntry]
      split
      · by_cases same : other = key
        · simp [same]
        · simp [same, Ne.symm same]
      split
      · next here =>
        subst here
        by_cases same : other = key
        · simp [same]
        · simp [same, Ne.symm same]
      · next notHere =>
        by_cases found : first = other
        · subst found
          simp [Ne.symm notHere]
        · simpa [List.find?_cons, found] using ih

theorem insert_entry_behind {key : κ} {value : α} {entries : List (κ × α)}
    (below : ∀ entry ∈ entries, entry.1 < key) :
    insertEntry key value entries = entries ++ [(key, value)] := by
  induction entries with
  | nil => rfl
  | cons head rest ih =>
      obtain ⟨other, old⟩ := head
      have here : other < key := below (other, old) List.mem_cons_self
      have notBefore : ¬ key < other := fun before => Std.lt_irrefl (Std.lt_trans here before)
      have different : key ≠ other := fun same => Std.lt_irrefl (same ▸ here)
      simp only [insertEntry, notBefore, different, if_false, List.cons_append]
      rw [ih fun entry member => below entry (List.mem_cons_of_mem _ member)]

theorem insert_entry_same {key : κ} {value : α} {entries : List (κ × α)}
    (sorted : entries.Pairwise fun earlier later => earlier.1 < later.1)
    (inside : (key, value) ∈ entries) : insertEntry key value entries = entries := by
  induction entries with
  | nil => cases inside
  | cons head rest ih =>
      obtain ⟨other, old⟩ := head
      obtain ⟨above, later⟩ := List.pairwise_cons.mp sorted
      simp only [insertEntry]
      rcases List.mem_cons.mp inside with same | behind
      · cases same
        rw [if_neg Std.lt_irrefl, if_pos rfl]
      · have less := above _ behind
        rw [if_neg (Std.not_lt.mpr (Std.le_of_lt less)), if_neg (Std.ne_of_lt less).symm, ih later behind]

theorem insert_same {map : OrderedMap κ α} {key : κ} {value : α} (found : map.find? key = some value) :
    map.insert key value = map := by
  have entries := insert_entry_same map.sorted (map.mem_entries.mpr found)
  cases map with
  | mk list sorted =>
      unfold insert
      congr

theorem insert_all_behind {rest front : List (κ × α)}
    (sorted : front.Pairwise fun earlier later => earlier.1 < later.1)
    (all : (front ++ rest).Pairwise fun earlier later => earlier.1 < later.1) :
    (rest.foldl (fun (built : OrderedMap κ α) entry => built.insert entry.1 entry.2) ⟨front, sorted⟩).entries =
      front ++ rest := by
  induction rest generalizing front with
  | nil => exact (List.append_nil front).symm
  | cons entry rest ih =>
      have behind : insertEntry entry.1 entry.2 front = front ++ [entry] := by
        apply insert_entry_behind
        intro earlier member
        exact (List.pairwise_append.mp all).2.2 earlier member entry List.mem_cons_self
      have grown : (front ++ [entry]).Pairwise fun earlier later => earlier.1 < later.1 :=
        behind ▸ insert_entry_sorted entry.1 entry.2 sorted
      rw [List.append_cons, ← ih grown (by rw [← List.append_cons]; exact all), List.foldl_cons]
      simp only [insert, behind]

theorem insert_entries (map : OrderedMap κ α) :
    map.entries.foldl (fun built entry => built.insert entry.1 entry.2) empty = map := by
  have whole := @insert_all_behind _ _ _ _ _ _ _ _ map.entries [] .nil map.sorted
  cases built : map.entries.foldl (fun (built : OrderedMap κ α) entry => built.insert entry.1 entry.2) empty with
  | mk entries sorted =>
      cases map with
      | mk list isSorted =>
          simp only [empty] at built
          simp only [built, List.nil_append] at whole
          subst whole
          rfl

end Insert

end OrderedMap

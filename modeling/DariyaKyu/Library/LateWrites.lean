import Mathlib.Data.List.Induction
import Mathlib.Data.List.Nodup

/-!
A log of writes and a table. A write is appended to the log at once and put into
the table in a step of its own, so that writes overtake each other on the way.
The table says of every key what the log says last, unless a write is put where
the newest one of its key has already been.
-/

namespace LateWrites

set_option autoImplicit false

variable {κ ν : Type}

def NewestAt (log : List (κ × Option ν)) (place : Nat) (key : κ) : Prop :=
  (∃ write, log[place]? = some write ∧ write.1 = key) ∧
    ∀ later write, place < later → log[later]? = some write → write.1 ≠ key

section Places

variable {log : List (κ × Option ν)} {place : Nat} {key : κ} {write : κ × Option ν}

theorem newest_at_concat (write : κ × Option ν) : NewestAt (log ++ [write]) log.length write.1 := by
  refine ⟨⟨write, by simp, rfl⟩, ?_⟩
  intro later other behind found
  have inside := (List.getElem?_eq_some_iff.mp found).1
  rw [List.length_append, List.length_singleton] at inside
  omega

theorem NewestAt.concat (newest : NewestAt log place key) (other : write.1 ≠ key) :
    NewestAt (log ++ [write]) place key := by
  obtain ⟨⟨known, found, named⟩, last⟩ := newest
  have inside := (List.getElem?_eq_some_iff.mp found).1
  refine ⟨⟨known, by rw [List.getElem?_append_left inside, found], named⟩, ?_⟩
  intro later later_write behind isLater
  rcases Nat.lt_trichotomy later log.length with before | rfl | beyond
  · rw [List.getElem?_append_left before] at isLater
    exact last later later_write behind isLater
  · rw [List.getElem?_concat_length, Option.some.injEq] at isLater
    exact isLater ▸ other
  · have within := (List.getElem?_eq_some_iff.mp isLater).1
    rw [List.length_append, List.length_singleton] at within
    omega

theorem newest_at_iff {log : List (κ × Option ν)} {place : Nat} {key : κ} :
    NewestAt log place key ↔
      (∃ write ∈ log[place]?, write.1 = key) ∧ ∀ write ∈ log.drop (place + 1), write.1 ≠ key := by
  refine and_congr Iff.rfl ?_
  constructor
  · intro last write member
    obtain ⟨behind, isWrite⟩ := List.mem_iff_getElem?.mp member
    rw [List.getElem?_drop] at isWrite
    exact last _ write (by omega) isWrite
  · intro silent later write behind isLater
    apply silent write
    apply List.mem_iff_getElem?.mpr
    refine ⟨later - (place + 1), ?_⟩
    rwa [List.getElem?_drop, Nat.add_sub_of_le behind]

end Places

variable [DecidableEq κ]

instance (log : List (κ × Option ν)) (place : Nat) (key : κ) : Decidable (NewestAt log place key) :=
  decidable_of_iff _ newest_at_iff.symm

/-- A table after one write; writing nothing removes the key. -/
def put (table : κ → Option ν) (key : κ) (value : Option ν) : κ → Option ν :=
  fun other => if other = key then value else table other

/-- A table after some writes, one behind the other. -/
def replay (table : κ → Option ν) (writes : List (κ × Option ν)) : κ → Option ν :=
  writes.foldl (fun table write => put table write.1 write.2) table

def newest (writes : List (κ × Option ν)) (key : κ) : Option (Option ν) :=
  (writes.filter (·.1 = key)).getLast?.map Prod.snd

section Replay

variable {table : κ → Option ν} {writes : List (κ × Option ν)} {key : κ} {value : Option ν}

theorem newest_concat (write : κ × Option ν) :
    newest (writes ++ [write]) key = if write.1 = key then some write.2 else newest writes key := by
  by_cases same : write.1 = key
  · simp [newest, same]
  · simp [newest, same]

theorem newest_middle {write : κ × Option ν} {before after : List (κ × Option ν)}
    (silent : ∀ other ∈ after, other.1 ≠ write.1) :
    newest (before ++ write :: after) write.1 = some write.2 := by
  have nothing : after.filter (·.1 = write.1) = [] := by
    rw [List.filter_eq_nil_iff]
    intro other member same
    exact silent other member (decide_eq_true_eq.mp same)
  rw [newest, List.filter_append, List.filter_cons_of_pos (by simp), nothing]
  simp

theorem replay_key (table : κ → Option ν) (writes : List (κ × Option ν)) (key : κ) :
    replay table writes key = (newest writes key).getD (table key) := by
  induction writes using List.reverseRecOn with
  | nil => rfl
  | append_singleton writes write ih =>
      rw [newest_concat]
      simp only [replay, List.foldl_append, List.foldl_cons, List.foldl_nil, put] at ih ⊢
      by_cases same : write.1 = key
      · simp [same]
      · simp [same, Ne.symm same, ih]

theorem replay_congr {other : List (κ × Option ν)}
    (same : ∀ key, writes.filter (·.1 = key) = other.filter (·.1 = key)) :
    replay table writes = replay table other := by
  funext key
  rw [replay_key, replay_key, newest, newest, same key]

theorem replay_parts {ι : Type} [DecidableEq ι] (part : κ → ι) {parts : List ι} (distinct : parts.Nodup)
    (covers : ∀ write ∈ writes, part write.1 ∈ parts) :
    replay table (parts.flatMap fun chosen => writes.filter (part ·.1 = chosen)) = replay table writes := by
  apply replay_congr
  intro key
  have own : ∀ chosen, (writes.filter (part ·.1 = chosen)).filter (·.1 = key) =
      if chosen = part key then writes.filter (·.1 = key) else [] := by
    intro chosen
    rw [List.filter_filter]
    split
    · next same =>
      apply List.filter_congr
      intro write _
      by_cases named : write.1 = key <;> simp [named, same]
    · next apart =>
      rw [List.filter_eq_nil_iff]
      intro write _ both
      simp only [Bool.and_eq_true, decide_eq_true_eq] at both
      exact apart (both.1 ▸ both.2.symm)
  rw [List.filter_flatMap, funext own]
  by_cases listed : part key ∈ parts
  · obtain ⟨before, after, rfl⟩ := List.append_of_mem listed
    have elsewhere : ∀ chosen ∈ before ++ after, chosen ≠ part key := by
      intro chosen member same
      subst same
      rw [List.nodup_middle, List.nodup_cons] at distinct
      exact distinct.1 member
    have silent : ∀ side : List ι, (∀ chosen ∈ side, chosen ∈ before ++ after) →
        side.flatMap (fun chosen => if chosen = part key then writes.filter (·.1 = key) else []) = [] := by
      intro side inside
      rw [List.flatMap_eq_nil_iff]
      intro chosen member
      rw [if_neg (elsewhere chosen (inside chosen member))]
    rw [List.flatMap_append, List.flatMap_cons, if_pos rfl,
      silent before fun chosen member => List.mem_append_left _ member,
      silent after fun chosen member => List.mem_append_right _ member]
    simp
  · have nothing : writes.filter (·.1 = key) = [] := by
      rw [List.filter_eq_nil_iff]
      intro write member named
      rw [decide_eq_true_eq] at named
      exact listed (named ▸ covers write member)
    rw [nothing, List.flatMap_eq_nil_iff]
    simp

theorem NewestAt.newest_eq {log : List (κ × Option ν)} {place : Nat} {write : κ × Option ν}
    (newestAt : NewestAt log place key) (found : log[place]? = some write) :
    newest log key = some write.2 := by
  obtain ⟨⟨known, isKnown, named⟩, silent⟩ := newest_at_iff.mp newestAt
  rw [Option.mem_def, found, Option.some.injEq] at isKnown
  subst isKnown named
  obtain ⟨inside, isWrite⟩ := List.getElem?_eq_some_iff.mp found
  have split : log = log.take place ++ write :: log.drop (place + 1) := by
    rw [← isWrite, List.getElem_cons_drop, List.take_append_drop]
  rw [split]
  exact newest_middle silent

end Replay

/-- The log, the places of the writes that are still on their way, and the table. -/
structure Tabled (κ ν : Type) where
  log : List (κ × Option ν) := []
  waiting : List Nat := []
  table : κ → Option ν

inductive Action (κ ν : Type) where
  | append (key : κ) (value : Option ν)
  | arrive (place : Nat)

namespace Tabled

def step : Action κ ν → Tabled κ ν → Option (Tabled κ ν)
  | .append key value, state =>
      some { state with
        log := state.log ++ [(key, value)]
        waiting := state.waiting ++ [state.log.length] }
  | .arrive place, state => do
      let position ← state.waiting[place]?
      let write ← state.log[position]?
      return { state with
        waiting := state.waiting.eraseIdx place
        table := put state.table write.1 write.2 }

/-- A write arrives while the newest one of its key, which it may be, is on its way. -/
def InTime (state : Tabled κ ν) : Action κ ν → Prop
  | .append _ _ => True
  | .arrive place => ∀ position write, state.waiting[place]? = some position →
      state.log[position]? = some write →
        ∃ newest ∈ state.waiting, NewestAt state.log newest write.1

instance (state : Tabled κ ν) (action : Action κ ν) : Decidable (state.InTime action) :=
  match action with
  | .append _ _ => .isTrue trivial
  | .arrive place => decidable_of_iff (∀ position ∈ state.waiting[place]?,
      ∀ write ∈ state.log[position]?, ∃ newest ∈ state.waiting, NewestAt state.log newest write.1)
      ⟨fun inTime position write waits found => inTime position waits write found,
        fun inTime position waits write found => inTime position write waits found⟩

/-- Of each key the table says what the log says last, or will when all have arrived. -/
def Current (origin : κ → Option ν) (state : Tabled κ ν) : Prop :=
  ∀ key, (∃ place ∈ state.waiting, NewestAt state.log place key) ∨
    state.table key = replay origin state.log key

variable {origin : κ → Option ν} {state next : Tabled κ ν}

theorem current_start : Current origin ⟨[], [], origin⟩ := fun _ => .inr rfl

theorem append_current (current : state.Current origin) (key : κ) (value : Option ν)
    (taken : step (.append key value) state = some next) : next.Current origin := by
  cases taken
  intro other
  by_cases same : key = other
  · subst same
    exact .inl ⟨state.log.length, by simp, newest_at_concat (key, value)⟩
  · rcases current other with ⟨place, waits, newest⟩ | settled
    · exact .inl ⟨place, List.mem_append_left _ waits, newest.concat same⟩
    · refine .inr ?_
      simp only [replay_key, newest_concat, if_neg same] at settled ⊢
      exact settled

theorem arrive_current (current : state.Current origin) {place : Nat}
    (inTime : state.InTime (.arrive place)) (taken : step (.arrive place) state = some next) :
    next.Current origin := by
  obtain ⟨position, waits, taken⟩ := Option.bind_eq_some_iff.mp taken
  obtain ⟨write, found, taken⟩ := Option.bind_eq_some_iff.mp taken
  cases taken
  -- who waits at another position is still there
  have stays : ∀ other ∈ state.waiting, other ≠ position → other ∈ state.waiting.eraseIdx place := by
    intro other member apart
    obtain ⟨index, isOther⟩ := List.mem_iff_getElem?.mp member
    refine List.mem_eraseIdx_iff_getElem?.mpr ⟨index, ?_, isOther⟩
    intro same
    rw [same, waits, Option.some.injEq] at isOther
    exact apart isOther.symm
  intro key
  by_cases same : key = write.1
  · subst same
    obtain ⟨last, member, newestAt⟩ := inTime position write waits found
    by_cases own : last = position
    · subst own
      refine .inr ?_
      simp only [replay_key, newestAt.newest_eq found, put, if_true, Option.getD_some]
    · exact .inl ⟨last, stays last member own, newestAt⟩
  · rcases current key with ⟨other, member, newestAt⟩ | settled
    · refine .inl ⟨other, stays other member ?_, newestAt⟩
      rintro rfl
      obtain ⟨⟨known, isKnown, named⟩, _⟩ := newestAt
      rw [found, Option.some.injEq] at isKnown
      exact same (isKnown ▸ named).symm
    · refine .inr ?_
      simp only [put, if_neg same]
      exact settled

/-- When all have arrived the table is the log, one write behind the other. -/
theorem Current.settled (current : state.Current origin) (arrived : state.waiting = []) :
    state.table = replay origin state.log := by
  funext key
  rcases current key with ⟨place, waits, _⟩ | settled
  · simp [arrived] at waits
  · exact settled

end Tabled

end LateWrites

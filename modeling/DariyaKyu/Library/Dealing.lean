import DariyaKyu.Library.OrderedMap

/-!
Items dealt out one at a time, each to somebody who wants it and none twice.
Whatever the order in which they are dealt, nobody holds what another one does.
-/

namespace Dealing

set_option autoImplicit false

variable {κ ι : Type} [LT κ] [DecidableEq κ]

/-- What has been dealt so far went to those who want it, and to one of them. -/
structure Dealt (wants : κ → ι → Prop) (dealt : ι → Prop) (shares : OrderedMap κ (List ι)) : Prop where
  wanted : ∀ key items, shares.find? key = some items → ∀ item ∈ items, wants key item
  among : ∀ key items, shares.find? key = some items → ∀ item ∈ items, dealt item
  once : ∀ key items, shares.find? key = some items → items.Nodup
  apart : ∀ key other items others, key ≠ other → shares.find? key = some items →
    shares.find? other = some others → ∀ item ∈ items, item ∉ others

section Shares

variable {wants : κ → ι → Prop} {dealt wider : ι → Prop} {shares : OrderedMap κ (List ι)} {key : κ}
  {item : ι}

theorem Dealt.mono (holds : Dealt wants dealt shares) (wide : ∀ item, dealt item → wider item) :
    Dealt wants wider shares :=
  ⟨holds.wanted, fun key items found item member => wide item (holds.among key items found item member),
    holds.once, holds.apart⟩

def share (shares : OrderedMap κ (List ι)) (key : κ) : List ι := (shares.find? key).getD []

variable [DecidableLT κ] [LE κ] [Std.IsLinearOrder κ] [Std.LawfulOrderLT κ]

def emptyShares (keys : List κ) : OrderedMap κ (List ι) :=
  keys.foldl (fun shares key => shares.insert key []) OrderedMap.empty

def push (shares : OrderedMap κ (List ι)) (key : κ) (item : ι) : OrderedMap κ (List ι) :=
  shares.insert key ((shares.find? key).getD [] ++ [item])

theorem find_empty_shares (keys : List κ) (key : κ) :
    (emptyShares keys : OrderedMap κ (List ι)).find? key = if key ∈ keys then some [] else none := by
  have started : ∀ (keys : List κ) (shares : OrderedMap κ (List ι)),
      (keys.foldl (fun shares key => shares.insert key []) shares).find? key =
        if key ∈ keys then some [] else shares.find? key := by
    intro keys
    induction keys with
    | nil => simp
    | cons first keys ih =>
        intro shares
        rw [List.foldl_cons, ih, OrderedMap.find_insert]
        by_cases later : key ∈ keys
        · simp [later]
        · simp [later]
  exact started keys OrderedMap.empty

@[simp] theorem find_push (shares : OrderedMap κ (List ι)) (key other : κ) (item : ι) :
    (push shares key item).find? other =
      if other = key then some ((shares.find? key).getD [] ++ [item]) else shares.find? other :=
  OrderedMap.find_insert _ _ _ _

@[simp] theorem share_push (shares : OrderedMap κ (List ι)) (key other : κ) (item : ι) :
    share (push shares key item) other = share shares other ++ if other = key then [item] else [] := by
  unfold share
  rw [find_push]
  by_cases same : other = key
  · rw [if_pos same, if_pos same, same, Option.getD_some]
  · rw [if_neg same, if_neg same, List.append_nil]

@[simp] theorem share_empty (keys : List κ) (key : κ) :
    share (emptyShares keys : OrderedMap κ (List ι)) key = [] := by
  rw [share, find_empty_shares]
  split
  · rfl
  · rfl

theorem push_has (has : (shares.find? key).isSome = true) (other : κ) (item : ι) :
    ((push shares other item).find? key).isSome = true := by
  rw [find_push]
  split
  · rfl
  · exact has

def Held (shares : OrderedMap κ (List ι)) (item : ι) : Prop :=
  ∃ key items, shares.find? key = some items ∧ item ∈ items

theorem push_held (shares : OrderedMap κ (List ι)) (key : κ) (item : ι) : Held (push shares key item) item :=
  ⟨key, _, by rw [find_push, if_pos rfl], List.mem_append_right _ (List.mem_singleton_self item)⟩

theorem Held.push (held : Held shares item) (other : κ) (more : ι) : Held (push shares other more) item := by
  obtain ⟨owner, items, found, member⟩ := held
  by_cases same : owner = other
  · subst same
    refine ⟨owner, _, by rw [find_push, if_pos rfl], List.mem_append_left _ ?_⟩
    rw [found, Option.getD_some]
    exact member
  · exact ⟨owner, items, by rw [find_push, if_neg same, found], member⟩

theorem Dealt.start (wants : κ → ι → Prop) (keys : List κ) :
    Dealt wants (fun _ => False) (emptyShares keys) := by
  have nothing : ∀ key items, (emptyShares keys : OrderedMap κ (List ι)).find? key = some items → items = [] := by
    intro key items found
    rw [find_empty_shares] at found
    split at found
    · exact (Option.some.inj found).symm
    · cases found
  refine ⟨?_, ?_, ?_, ?_⟩
  · intro key items found item member
    simp [nothing key items found] at member
  · intro key items found item member
    simp [nothing key items found] at member
  · intro key items found
    simp [nothing key items found]
  · intro key other items others _ found _ item member
    simp [nothing key items found] at member

/-- An item that has not been dealt goes to somebody who wants it. -/
theorem Dealt.push (holds : Dealt wants dealt shares) (fresh : ¬ dealt item) (wanted : wants key item) :
    Dealt wants (fun other => dealt other ∨ other = item) (push shares key item) := by
  have held : ∀ other items, shares.find? other = some items → item ∉ items := by
    intro other items found member
    exact fresh (holds.among other items found item member)
  have before : ∀ member, member ∈ (shares.find? key).getD [] → ∃ items, shares.find? key = some items ∧
      member ∈ items := by
    intro member inside
    cases found : shares.find? key with
    | none => simp [found] at inside
    | some items => exact ⟨items, rfl, by simpa [found] using inside⟩
  refine ⟨?_, ?_, ?_, ?_⟩
  · intro other items found member inside
    rw [find_push] at found
    split at found
    · next same =>
      cases found
      rcases List.mem_append.mp inside with old | new
      · obtain ⟨olds, isOlds, isOld⟩ := before member old
        exact same ▸ holds.wanted key olds isOlds member isOld
      · rw [same, List.mem_singleton.mp new]
        exact wanted
    · exact holds.wanted other items found member inside
  · intro other items found member inside
    rw [find_push] at found
    split at found
    · cases found
      rcases List.mem_append.mp inside with old | new
      · obtain ⟨olds, isOlds, isOld⟩ := before member old
        exact .inl (holds.among key olds isOlds member isOld)
      · exact .inr (List.mem_singleton.mp new)
    · exact .inl (holds.among other items found member inside)
  · intro other items found
    rw [find_push] at found
    split at found
    · cases found
      cases olds : shares.find? key with
      | none => simp
      | some items =>
          have distinct := holds.once key items olds
          have new := held key items olds
          refine List.nodup_append.mpr ⟨distinct, by simp, ?_⟩
          rintro member inside _ only rfl
          exact new (List.mem_singleton.mp only ▸ inside)
    · exact holds.once other items found
  · intro one other items others different foundOne foundOther member inside
    rw [find_push] at foundOne foundOther
    split at foundOne
    · next same =>
      rw [if_neg (fun also => different (same.trans also.symm))] at foundOther
      cases foundOne
      rcases List.mem_append.mp inside with old | new
      · obtain ⟨olds, isOlds, isOld⟩ := before member old
        exact holds.apart key other olds others (same ▸ different) isOlds foundOther member isOld
      · rw [List.mem_singleton.mp new]
        exact held other others foundOther
    · next elsewhere =>
      split at foundOther
      · next same =>
        cases foundOther
        intro also
        rcases List.mem_append.mp also with old | new
        · obtain ⟨olds, isOlds, isOld⟩ := before member old
          exact holds.apart one key items olds elsewhere foundOne isOlds member inside isOld
        · rw [List.mem_singleton.mp new] at inside
          exact held one items foundOne inside
      · exact holds.apart one other items others different foundOne foundOther member inside

end Shares

end Dealing

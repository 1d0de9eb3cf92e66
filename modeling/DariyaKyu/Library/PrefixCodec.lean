import Mathlib.Data.List.Basic

/-!
Decoders that take what they need from the front of a sequence, and refuse it
when it is not there. Three facts are carried through every decoder that is put
together from others: it moves by what it takes, what follows does not change
what was read, and nothing but certain failures is thrown. With what a decoder reads back of an encoding
they tell what becomes of a sequence that is cut short or goes on.
-/

namespace PrefixCodec

set_option autoImplicit false

/-- Somewhere in a sequence, of which more may come. -/
class Reader (ρ : Type) (β : outParam Type) where
  place : ρ → Nat
  unread : ρ → List β
  more : ρ → List β → ρ
  unread_more : ∀ input items, unread (more input items) = unread input ++ items

open Reader

variable {ρ β ε α γ : Type} [Reader ρ β]

/-- The reader moves by what was taken from the front; what was read stays the
same when more follows; what is thrown is of one kind. -/
structure Reads (bad : ε → Prop) (decode : ρ → Except ε (α × ρ)) : Prop where
  takes : ∀ {input value after}, decode input = .ok (value, after) →
    ∃ taken, unread input = taken ++ unread after ∧ place after = place input + taken.length
  steady : ∀ {input value after}, decode input = .ok (value, after) →
    ∀ items, decode (more input items) = .ok (value, more after items)
  refuses : ∀ {input failure}, decode input = .error failure → bad failure

/-- The decoder reads the value from what was written, and nothing behind it. -/
def Writes (decode : ρ → Except ε (α × ρ)) (value : α) (written : List β) : Prop :=
  ∀ input rest, unread input = written ++ rest →
    ∃ after, decode input = .ok (value, after) ∧ unread after = rest

section Reading

variable {bad : ε → Prop} {first : ρ → Except ε (α × ρ)} {second : α × ρ → Except ε (γ × ρ)}

theorem Reads.bind (reads : Reads bad first) (each : ∀ value, Reads bad fun after => second (value, after)) :
    Reads bad fun input => first input >>= second := by
  constructor
  · intro input value after decoded
    cases isFirst : first input with
    | error failure =>
        rw [isFirst] at decoded
        cases decoded
    | ok given =>
        rw [isFirst] at decoded
        obtain ⟨front, isFront, moved⟩ := reads.takes isFirst
        obtain ⟨back, isBack, movedOn⟩ := (each given.1).takes decoded
        refine ⟨front ++ back, by rw [isFront, isBack, List.append_assoc], ?_⟩
        rw [movedOn, moved, List.length_append, Nat.add_assoc]
  · intro input value after decoded items
    cases isFirst : first input with
    | error failure =>
        rw [isFirst] at decoded
        cases decoded
    | ok given =>
        rw [isFirst] at decoded
        rw [reads.steady isFirst items]
        exact (each given.1).steady decoded items
  · intro input failure refused
    cases isFirst : first input with
    | error other =>
        rw [isFirst] at refused
        cases refused
        exact reads.refuses isFirst
    | ok given =>
        rw [isFirst] at refused
        exact (each given.1).refuses refused

theorem Reads.ok (value : α) : Reads bad fun input : ρ => .ok (value, input) := by
  constructor
  · intro input given after decoded
    cases decoded
    exact ⟨[], rfl, rfl⟩
  · intro input given after decoded items
    cases decoded
    rfl
  · intro input failure refused
    cases refused

theorem Reads.fail {failure : ε} (isBad : bad failure) :
    Reads bad fun _ : ρ => (.error failure : Except ε (α × ρ)) := by
  constructor
  · intro input given after decoded
    cases decoded
  · intro input given after decoded
    cases decoded
  · intro input other refused
    cases refused
    exact isBad

theorem Reads.ite {condition : Prop} [Decidable condition] {one other : ρ → Except ε (α × ρ)}
    (isOne : Reads bad one) (isOther : Reads bad other) :
    Reads bad fun input => if condition then one input else other input := by
  by_cases holds : condition
  · simp only [if_pos holds]
    exact isOne
  · simp only [if_neg holds]
    exact isOther

end Reading

section Seen

/-- A decoder of which only a part of the value is looked at. -/
def seen (look : α → γ) (decode : ρ → Except ε (α × ρ)) : ρ → Except ε (γ × ρ) :=
  fun input => decode input >>= fun given => .ok (look given.1, given.2)

variable {look : α → γ} {decode : ρ → Except ε (α × ρ)} {input after : ρ}

theorem Reads.looked {bad : ε → Prop} (reads : Reads bad decode) : Reads bad (seen look decode) := by
  apply Reads.bind reads
  intro value
  exact Reads.ok (look value)

theorem seen_ok {value : γ} (isSeen : seen look decode input = .ok (value, after)) :
    ∃ original, decode input = .ok (original, after) ∧ look original = value := by
  simp only [seen] at isSeen
  cases decoded : decode input with
  | error failure =>
      rw [decoded] at isSeen
      cases isSeen
  | ok given =>
      rw [decoded] at isSeen
      cases isSeen
      exact ⟨given.1, rfl, rfl⟩

theorem seen_error {failure : ε} (refused : seen look decode input = .error failure) :
    decode input = .error failure := by
  simp only [seen] at refused
  cases decoded : decode input with
  | error other =>
      rw [decoded] at refused
      cases refused
      rfl
  | ok given =>
      rw [decoded] at refused
      cases refused

end Seen

section Writing

variable {first : ρ → Except ε (α × ρ)} {second : α × ρ → Except ε (γ × ρ)} {value : α} {result : γ}
  {written behind : List β}

theorem Writes.bind (writes : Writes first value written)
    (later : Writes (fun after => second (value, after)) result behind) :
    Writes (fun input => first input >>= second) result (written ++ behind) := by
  intro input rest isInput
  rw [List.append_assoc] at isInput
  obtain ⟨between, isFirst, isBetween⟩ := writes input _ isInput
  obtain ⟨after, isSecond, isAfter⟩ := later between rest isBetween
  refine ⟨after, ?_, isAfter⟩
  simp only [isFirst]
  exact isSecond

theorem Writes.ok (value : α) : Writes (fun input : ρ => (.ok (value, input) : Except ε _)) value [] := by
  intro input rest isInput
  exact ⟨input, rfl, isInput⟩

theorem Writes.last (writes : Writes first value written)
    (done : ∀ after, second (value, after) = .ok (result, after)) :
    Writes (fun input => first input >>= second) result written := by
  intro input rest isInput
  obtain ⟨after, decoded, isAfter⟩ := writes input rest isInput
  refine ⟨after, ?_, isAfter⟩
  simp only [decoded]
  exact done after

theorem Writes.passes {condition : Prop} [Decidable condition] {one other : ρ → Except ε (α × ρ)}
    (passes : ¬ condition) (writes : Writes other value written) :
    Writes (fun input => if condition then one input else other input) value written := by
  intro input rest isInput
  obtain ⟨after, decoded, isAfter⟩ := writes input rest isInput
  refine ⟨after, ?_, isAfter⟩
  simp only [if_neg passes]
  exact decoded

/-- An encoding is taken as it is, and nothing behind it. -/
theorem Writes.consumes {bad : ε → Prop} (reads : Reads bad first) (writes : Writes first value written)
    {input : ρ} {rest : List β} (isInput : unread input = written ++ rest) :
    ∃ after, first input = .ok (value, after) ∧ unread after = rest ∧
      place after = place input + written.length := by
  obtain ⟨after, decoded, isAfter⟩ := writes input rest isInput
  obtain ⟨taken, isTaken, moved⟩ := reads.takes decoded
  rw [isInput, isAfter] at isTaken
  have same : written = taken := List.append_cancel_right isTaken
  exact ⟨after, decoded, isAfter, same ▸ moved⟩

theorem short_refused {bad : ε → Prop} (reads : Reads bad first) {input after : ρ} {tail : List β}
    (decoded : first (more input tail) = .ok (value, after)) (nothing : unread after = []) (lacks : tail ≠ []) :
    ∃ failure, first input = .error failure ∧ bad failure := by
  cases isShort : first input with
  | error failure => exact ⟨failure, rfl, reads.refuses isShort⟩
  | ok given =>
      exfalso
      have steady := reads.steady isShort tail
      rw [decoded] at steady
      obtain ⟨_, same⟩ := Prod.mk.inj (Except.ok.inj steady)
      rw [same, unread_more] at nothing
      exact lacks (List.append_eq_nil_iff.mp nothing).2

theorem cut_refused {bad : ε → Prop} (reads : Reads bad first) (writes : Writes first value written)
    {front tail : List β} (isCut : written = front ++ tail) (lacks : tail ≠ []) {input : ρ}
    (isInput : unread input = front) : ∃ failure, first input = .error failure ∧ bad failure := by
  have whole : unread (more input tail) = written ++ [] := by
    rw [unread_more, isInput, isCut, List.append_nil]
  obtain ⟨after, decoded, nothing⟩ := writes _ _ whole
  exact short_refused reads decoded nothing lacks

end Writing

section Spelling

/-- What was read is what the bytes that were taken spell, wherever they stand and
whatever follows; what is thrown is of one kind. -/
structure Spells (bad : ε → Prop) (decode : ρ → Except ε (α × ρ)) : Prop where
  spelled : ∀ {input value after}, decode input = .ok (value, after) → ∃ written,
    unread input = written ++ unread after ∧ place after = place input + written.length ∧
      Writes decode value written
  refuses : ∀ {input failure}, decode input = .error failure → bad failure

variable {bad : ε → Prop} {first : ρ → Except ε (α × ρ)} {second : α × ρ → Except ε (γ × ρ)}

theorem Spells.bind (spells : Spells bad first) (each : ∀ value, Spells bad fun after => second (value, after)) :
    Spells bad fun input => first input >>= second := by
  constructor
  · intro input value after decoded
    cases isFirst : first input with
    | error failure =>
        rw [isFirst] at decoded
        cases decoded
    | ok given =>
        rw [isFirst] at decoded
        obtain ⟨front, isFront, moved, writes⟩ := spells.spelled isFirst
        obtain ⟨back, isBack, movedOn, writesOn⟩ := (each given.1).spelled decoded
        refine ⟨front ++ back, by rw [isFront, isBack, List.append_assoc], ?_, writes.bind writesOn⟩
        rw [movedOn, moved, List.length_append, Nat.add_assoc]
  · intro input failure refused
    cases isFirst : first input with
    | error other =>
        rw [isFirst] at refused
        cases refused
        exact spells.refuses isFirst
    | ok given =>
        rw [isFirst] at refused
        exact (each given.1).refuses refused

theorem Spells.ok (value : α) : Spells bad fun input : ρ => .ok (value, input) := by
  constructor
  · intro input given after decoded
    cases decoded
    exact ⟨[], rfl, rfl, Writes.ok value⟩
  · intro input failure refused
    cases refused

theorem Spells.fail {failure : ε} (isBad : bad failure) :
    Spells bad fun _ : ρ => (.error failure : Except ε (α × ρ)) := by
  constructor
  · intro input given after decoded
    cases decoded
  · intro input other refused
    cases refused
    exact isBad

theorem Spells.ite {condition : Prop} [Decidable condition] {one other : ρ → Except ε (α × ρ)}
    (isOne : Spells bad one) (isOther : Spells bad other) :
    Spells bad fun input => if condition then one input else other input := by
  by_cases holds : condition
  · simp only [if_pos holds]
    exact isOne
  · simp only [if_neg holds]
    exact isOther

/-- Bytes that spell a value are taken as they are, and nothing behind them. -/
theorem Spells.consumes (spells : Spells bad first) {value : α} {written rest : List β}
    (writes : Writes first value written) {input : ρ} (isInput : unread input = written ++ rest) :
    ∃ after, first input = .ok (value, after) ∧ unread after = rest ∧
      place after = place input + written.length := by
  obtain ⟨after, decoded, isAfter⟩ := writes input rest isInput
  obtain ⟨taken, isTaken, moved, _⟩ := spells.spelled decoded
  rw [isInput, isAfter] at isTaken
  have same : written = taken := List.append_cancel_right isTaken
  exact ⟨after, decoded, isAfter, same ▸ moved⟩

end Spelling

section Whole

theorem ite_bind {condition : Prop} [Decidable condition] (one other : Except ε α) (next : α → Except ε γ) :
    (if condition then one else other) >>= next = if condition then one >>= next else other >>= next := by
  split
  · rfl
  · rfl

/-- A decoder for a sequence that holds one value and no more. -/
def whole (decode : ρ → Except ε (α × ρ)) (trailing : ρ → ε) (input : ρ) : Except ε α :=
  decode input >>= fun given => if (unread given.2).isEmpty then .ok given.1 else .error (trailing given.2)

variable {decode : ρ → Except ε (α × ρ)} {trailing : ρ → ε} {bad : ε → Prop} {input after : ρ} {value : α}
  {written : List β}

theorem whole_decoded (decoded : decode input = .ok (value, after)) :
    whole decode trailing input = if (unread after).isEmpty then .ok value else .error (trailing after) := by
  rw [whole, decoded]
  rfl

theorem whole_ok_iff : whole decode trailing input = .ok value ↔
    ∃ after, decode input = .ok (value, after) ∧ unread after = [] := by
  constructor
  · intro isWhole
    cases decoded : decode input with
    | error failure =>
        rw [whole, decoded] at isWhole
        cases isWhole
    | ok given =>
        obtain ⟨found, after⟩ := given
        rw [whole_decoded decoded] at isWhole
        split at isWhole
        · next nothing =>
          cases isWhole
          exact ⟨after, rfl, List.isEmpty_iff.mp nothing⟩
        · cases isWhole
  · rintro ⟨after, decoded, nothing⟩
    rw [whole_decoded decoded, nothing]
    rfl

theorem whole_reads_back (writes : Writes decode value written) (isInput : unread input = written) :
    whole decode trailing input = .ok value := by
  obtain ⟨after, decoded, nothing⟩ := writes input [] (by rw [isInput, List.append_nil])
  exact whole_ok_iff.mpr ⟨after, decoded, nothing⟩

theorem whole_short_refused (reads : Reads bad decode) {tail : List β}
    (accepted : whole decode trailing (more input tail) = .ok value) (lacks : tail ≠ []) :
    ∃ failure, whole decode trailing input = .error failure ∧ bad failure := by
  obtain ⟨after, decoded, nothing⟩ := whole_ok_iff.mp accepted
  obtain ⟨failure, refused, kind⟩ := short_refused reads decoded nothing lacks
  refine ⟨failure, ?_, kind⟩
  rw [whole, refused]
  rfl

theorem whole_long_refused (reads : Reads bad decode) (isBad : ∀ after, bad (trailing after)) {tail : List β}
    (accepted : whole decode trailing input = .ok value) (goesOn : tail ≠ []) :
    ∃ failure, whole decode trailing (more input tail) = .error failure ∧ bad failure := by
  obtain ⟨after, decoded, nothing⟩ := whole_ok_iff.mp accepted
  have occupied : ¬ (unread (more after tail)).isEmpty = true := by
    rw [unread_more, nothing, List.nil_append, List.isEmpty_iff]
    exact goesOn
  refine ⟨_, ?_, isBad (more after tail)⟩
  rw [whole_decoded (reads.steady decoded tail), if_neg occupied]

end Whole

end PrefixCodec

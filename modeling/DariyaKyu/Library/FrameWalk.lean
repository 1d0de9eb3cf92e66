import Mathlib.Tactic.Ring

/-!
Walking a file one frame at a time. A frame starts at a position, a peek reads
what stands there, and its width leads to the next. Nothing here depends on
what a frame is: a user supplies the peek, the width and what to do at each
frame, lays the frames out once, and gets every walk over them from one lemma.
-/

namespace FrameWalk

set_option autoImplicit false

/-- What a visit decides: go on behind this frame, or stop in front of it. -/
inductive Turn (σ : Type) where
  | next (state : σ)
  | stop (state : σ)

variable {ε η σ : Type} (peekAt : Nat → Except ε (Option η)) (width : η → Nat)
  (visit : σ → Nat → η → Except ε (Turn σ))

/-- The loop. It ends at the first position without a frame, or where a visit
stops it, and returns that position with the state. -/
def walk : Nat → Nat → σ → Except ε (Nat × σ)
  | 0, position, state => .ok (position, state)
  | fuel + 1, position, state =>
      match peekAt position with
      | .error failure => .error failure
      | .ok none => .ok (position, state)
      | .ok (some frame) =>
          match visit state position frame with
          | .error failure => .error failure
          | .ok (.stop state) => .ok (position, state)
          | .ok (.next state) => walk fuel (position + width frame) state

/-- The same visits over a list of frames, without the file. -/
def visitAll : Nat → σ → List η → Except ε (Nat × σ)
  | position, state, [] => .ok (position, state)
  | position, state, frame :: frames =>
      match visit state position frame with
      | .error failure => .error failure
      | .ok (.stop state) => .ok (position, state)
      | .ok (.next state) => visitAll (position + width frame) state frames

/-- The frames stand one behind the other from `position` on, and there is no
further one. -/
def LaidOut : Nat → List η → Prop
  | position, [] => peekAt position = .ok none
  | position, frame :: frames =>
      peekAt position = .ok (some frame) ∧ LaidOut (position + width frame) frames

theorem walk_laid_out {position fuel : Nat} {frames : List η} (state : σ)
    (laid : LaidOut peekAt width position frames) (enough : frames.length < fuel) :
    walk peekAt width visit fuel position state = visitAll width visit position state frames := by
  induction frames generalizing position fuel state with
  | nil =>
      cases fuel with
      | zero => cases enough
      | succ fuel =>
          simp only [LaidOut] at laid
          simp only [walk, visitAll, laid]
  | cons frame frames ih =>
      cases fuel with
      | zero => cases enough
      | succ fuel =>
          obtain ⟨here, later⟩ := laid
          simp only [walk, visitAll, here]
          cases decision : visit state position frame with
          | error failure => rfl
          | ok turn =>
              cases turn with
              | stop state => rfl
              | next state => exact ih state later (by simpa using enough)

def totalWidth (frames : List η) : Nat := (frames.map width).sum

/-- Frames laid out without an end: something may still stand behind them. -/
def LaidFront : Nat → List η → Prop
  | _, [] => True
  | position, frame :: frames =>
      peekAt position = .ok (some frame) ∧ LaidFront (position + width frame) frames

/-- No visit of these frames stops, and they take one state to the other. -/
def PassesTo : Nat → σ → List η → σ → Prop
  | _, state, [], final => state = final
  | position, state, frame :: frames, final =>
      ∃ mid, visit state position frame = .ok (.next mid) ∧
        PassesTo (position + width frame) mid frames final

theorem walk_passes (fuel : Nat) {position : Nat} {frames : List η} {state final : σ}
    (laid : LaidFront peekAt width position frames)
    (passes : PassesTo width visit position state frames final) :
    walk peekAt width visit (frames.length + fuel) position state =
      walk peekAt width visit fuel (position + totalWidth width frames) final := by
  induction frames generalizing position state with
  | nil =>
      cases passes
      simp [totalWidth]
  | cons frame frames ih =>
      obtain ⟨here, later⟩ := laid
      obtain ⟨mid, goes, rest⟩ := passes
      have turns : (frame :: frames).length + fuel = (frames.length + fuel) + 1 := by
        simp only [List.length_cons]
        omega
      rw [turns]
      simp only [walk, here, goes]
      rw [ih later rest]
      simp [totalWidth, Nat.add_assoc]

theorem laid_front_mono (other : Nat → Except ε (Option η)) {position : Nat} {frames : List η}
    (same : ∀ position frame, peekAt position = .ok (some frame) → other position = .ok (some frame))
    (laid : LaidFront peekAt width position frames) : LaidFront other width position frames := by
  induction frames generalizing position with
  | nil => trivial
  | cons frame frames ih => exact ⟨same _ _ laid.1, ih laid.2⟩

theorem laid_out_of_front {position : Nat} {frames : List η}
    (laid : LaidFront peekAt width position frames)
    (ends : peekAt (position + totalWidth width frames) = .ok none) :
    LaidOut peekAt width position frames := by
  induction frames generalizing position with
  | nil => simpa [totalWidth, LaidOut] using ends
  | cons frame frames ih =>
      refine ⟨laid.1, ih laid.2 ?_⟩
      simpa [totalWidth, Nat.add_assoc] using ends

theorem visit_all_fold (position : Nat) (frames : List η) (state : σ) (advance : σ → η → σ)
    (goes : ∀ frame ∈ frames, ∀ state position,
      visit state position frame = .ok (.next (advance state frame))) :
    visitAll width visit position state frames =
      .ok (position + totalWidth width frames, frames.foldl advance state) := by
  induction frames generalizing position state with
  | nil => rfl
  | cons frame frames ih =>
      simp only [visitAll, goes frame List.mem_cons_self, List.foldl_cons]
      have later := ih (position + width frame) (advance state frame)
        fun other member => goes other (List.mem_cons_of_mem _ member)
      simpa [totalWidth, Nat.add_assoc] using later

theorem walk_keeps (holds : σ → Prop)
    (next : ∀ state position frame after, holds state → peekAt position = .ok (some frame) →
      visit state position frame = .ok (.next after) → holds after)
    (stop : ∀ state position frame after, holds state → peekAt position = .ok (some frame) →
      visit state position frame = .ok (.stop after) → holds after)
    {fuel position ends : Nat} {state final : σ} (initial : holds state)
    (walked : walk peekAt width visit fuel position state = .ok (ends, final)) : holds final := by
  induction fuel generalizing position state with
  | zero =>
      cases walked
      exact initial
  | succ fuel ih =>
      simp only [walk] at walked
      cases peeked : peekAt position with
      | error failure => simp [peeked] at walked
      | ok found =>
          cases found with
          | none =>
              simp only [peeked] at walked
              cases walked
              exact initial
          | some frame =>
              simp only [peeked] at walked
              cases decision : visit state position frame with
              | error failure => simp [decision] at walked
              | ok turn =>
                  cases turn with
                  | stop after =>
                      simp only [decision] at walked
                      cases walked
                      exact stop _ _ _ _ initial peeked decision
                  | next after =>
                      simp only [decision] at walked
                      exact ih (next _ _ _ _ initial peeked decision) walked

/-- A walk fails only where a frame cannot be looked at or visited. -/
theorem walk_error (fails : ε → Prop)
    (peeks : ∀ position failure, peekAt position = .error failure → fails failure)
    (visits : ∀ state position frame failure, visit state position frame = .error failure → fails failure)
    {fuel position : Nat} {state : σ} {failure : ε}
    (walked : walk peekAt width visit fuel position state = .error failure) : fails failure := by
  induction fuel generalizing position state with
  | zero => cases walked
  | succ fuel ih =>
      simp only [walk] at walked
      cases peeked : peekAt position with
      | error found =>
          simp only [peeked] at walked
          cases walked
          exact peeks position failure peeked
      | ok found =>
          cases found with
          | none => simp [peeked] at walked
          | some frame =>
              simp only [peeked] at walked
              cases decision : visit state position frame with
              | error found =>
                  simp only [decision] at walked
                  cases walked
                  exact visits state position frame failure decision
              | ok turn =>
                  cases turn with
                  | stop after => simp [decision] at walked
                  | next after =>
                      simp only [decision] at walked
                      exact ih walked

section Seek

variable (wanted : η → Bool)

/-- The first wanted frame a walk comes to, and where it stands. -/
def seek : Nat → Nat → Except ε (Option (Nat × η))
  | 0, _ => .ok none
  | fuel + 1, position =>
      match peekAt position with
      | .error failure => .error failure
      | .ok none => .ok none
      | .ok (some frame) =>
          if wanted frame then .ok (some (position, frame)) else seek fuel (position + width frame)

theorem walk_seek {α : Type} (answer : Nat → η → α) (fuel position : Nat) :
    (walk peekAt width (fun (_ : Option α) position frame =>
        if wanted frame then .ok (.stop (some (answer position frame))) else .ok (.next none))
        fuel position none).map (·.2) =
      (seek peekAt width wanted fuel position).map (Option.map fun place => answer place.1 place.2) := by
  induction fuel generalizing position with
  | zero => rfl
  | succ fuel ih =>
      simp only [walk, seek]
      cases peekAt position with
      | error failure => rfl
      | ok found =>
          cases found with
          | none => rfl
          | some frame =>
              cases isWanted : wanted frame with
              | true => simp [isWanted, Except.map]
              | false => simpa [isWanted] using ih (position + width frame)

theorem seek_found {fuel position : Nat} {place : Nat × η}
    (found : seek peekAt width wanted fuel position = .ok (some place)) :
    peekAt place.1 = .ok (some place.2) ∧ wanted place.2 = true := by
  induction fuel generalizing position with
  | zero => cases found
  | succ fuel ih =>
      simp only [seek] at found
      cases peeked : peekAt position with
      | error failure => simp [peeked] at found
      | ok there =>
          cases there with
          | none => simp [peeked] at found
          | some frame =>
              simp only [peeked] at found
              cases isWanted : wanted frame with
              | true =>
                  simp only [isWanted, if_true, Except.ok.injEq, Option.some.injEq] at found
                  subst found
                  exact ⟨peeked, isWanted⟩
              | false =>
                  simp only [isWanted, Bool.false_eq_true, if_false] at found
                  exact ih found

theorem seek_laid_out {position fuel : Nat} {frames : List η}
    (laid : LaidOut peekAt width position frames) (enough : frames.length < fuel) :
    seek peekAt width wanted fuel position =
      .ok ((frames.find? wanted).map fun frame =>
        (position + totalWidth width (frames.takeWhile (!wanted ·)), frame)) := by
  induction frames generalizing position fuel with
  | nil =>
      cases fuel with
      | zero => cases enough
      | succ fuel =>
          simp only [LaidOut] at laid
          simp [seek, laid]
  | cons frame frames ih =>
      cases fuel with
      | zero => cases enough
      | succ fuel =>
          obtain ⟨here, later⟩ := laid
          simp only [seek, here]
          cases isWanted : wanted frame with
          | true => simp [isWanted, totalWidth]
          | false =>
              have behind := ih later (by simpa using enough)
              simp only [Bool.false_eq_true, if_false, behind, List.find?_cons, isWanted,
                List.takeWhile_cons, Bool.not_false, if_true]
              simp [totalWidth, Nat.add_assoc]

variable {limit : Nat} (bounded : ∀ position frame, peekAt position = .ok (some frame) →
  0 < width frame ∧ position + width frame ≤ limit)

include bounded

/-- With frames of positive width under a limit, a seek needs no more turns
than there are positions left. -/
theorem seek_fuel_enough {position fuel more : Nat} (enough : limit - position < fuel) :
    seek peekAt width wanted (fuel + more) position = seek peekAt width wanted fuel position := by
  induction fuel generalizing position with
  | zero => cases enough
  | succ fuel ih =>
      rw [Nat.add_right_comm]
      simp only [seek]
      cases peeked : peekAt position with
      | error failure => rfl
      | ok found =>
          cases found with
          | none => rfl
          | some frame =>
              have advance := bounded position frame peeked
              have later : seek peekAt width wanted (fuel + more) (position + width frame) =
                  seek peekAt width wanted fuel (position + width frame) := ih (by omega)
              simp only [later]

theorem seek_step {position fuel : Nat} (enough : limit - position < fuel) :
    seek peekAt width wanted fuel position =
      match peekAt position with
      | .error failure => .error failure
      | .ok none => .ok none
      | .ok (some frame) =>
          if wanted frame then .ok (some (position, frame))
          else seek peekAt width wanted fuel (position + width frame) := by
  cases fuel with
  | zero => cases enough
  | succ fuel =>
      conv_lhs => rw [seek]
      cases peeked : peekAt position with
      | error failure => rfl
      | ok found =>
          cases found with
          | none => rfl
          | some frame =>
              have advance := bounded position frame peeked
              have same := @seek_fuel_enough ε η peekAt width wanted limit bounded (position + width frame)
                fuel 1 (by omega)
              simp only [same]

/-- What a walk that never stops does on the way to the first wanted frame: it
gets there, or to the end, with a state that only unwanted frames have changed. -/
theorem walk_sought (advance : σ → η → σ)
    (goes : ∀ state position frame, visit state position frame = .ok (.next (advance state frame)))
    (holds : σ → Prop)
    (keeps : ∀ state frame, holds state → wanted frame = false → holds (advance state frame))
    {position fuel : Nat} {state : σ} {found : Option (Nat × η)} (initial : holds state)
    (enough : limit - position < fuel) (sought : seek peekAt width wanted fuel position = .ok found) :
    ∃ mid, holds mid ∧
      ((found = none ∧ ∃ ends, walk peekAt width visit fuel position state = .ok (ends, mid)) ∨
        ∃ place left, found = some place ∧ limit - place.1 < left ∧
          walk peekAt width visit fuel position state = walk peekAt width visit left place.1 mid) := by
  induction fuel generalizing position state with
  | zero => cases enough
  | succ fuel ih =>
      simp only [seek] at sought
      cases peeked : peekAt position with
      | error failure => simp [peeked] at sought
      | ok there =>
          cases there with
          | none =>
              simp only [peeked] at sought
              cases sought
              exact ⟨state, initial, .inl ⟨rfl, position, by simp only [walk, peeked]⟩⟩
          | some frame =>
              simp only [peeked] at sought
              have advances := bounded position frame peeked
              cases isWanted : wanted frame with
              | true =>
                  simp only [isWanted, if_true, Except.ok.injEq] at sought
                  subst sought
                  exact ⟨state, initial, .inr ⟨_, fuel + 1, rfl, enough, rfl⟩⟩
              | false =>
                  simp only [isWanted, Bool.false_eq_true, if_false] at sought
                  have further := ih (keeps state frame initial isWanted) (by omega) sought
                  simpa only [walk, peeked, goes] using further

theorem seek_narrow {narrow : η → Bool} (narrower : ∀ frame, narrow frame = true → wanted frame = true)
    {position fuel : Nat} (enough : limit < fuel) :
    seek peekAt width narrow fuel position =
      match seek peekAt width wanted fuel position with
      | .error failure => .error failure
      | .ok none => .ok none
      | .ok (some place) => seek peekAt width narrow fuel place.1 := by
  induction left : limit - position using Nat.strong_induction_on generalizing position with
  | _ left ih =>
      have wide := @seek_step ε η peekAt width wanted limit bounded position fuel (by omega)
      have thin := @seek_step ε η peekAt width narrow limit bounded position fuel (by omega)
      rw [wide]
      cases peeked : peekAt position with
      | error failure =>
          rw [thin]
          simp only [peeked]
      | ok found =>
          cases found with
          | none =>
              rw [thin]
              simp only [peeked]
          | some frame =>
              have advance := bounded position frame peeked
              cases isWanted : wanted frame with
              | true => simp only [isWanted, if_true]
              | false =>
                  have notNarrow : narrow frame = false := by
                    by_contra isNarrow
                    simp [narrower frame (by simpa using isNarrow)] at isWanted
                  have behind := ih (limit - (position + width frame)) (by omega) rfl
                  rw [thin]
                  simp only [peeked, notNarrow, isWanted, Bool.false_eq_true, if_false]
                  exact behind

theorem seek_skip {position fuel : Nat} {frames : List η} (enough : limit - position < fuel)
    (laid : LaidFront peekAt width position frames)
    (unwanted : ∀ frame ∈ frames, wanted frame = false) :
    seek peekAt width wanted fuel position =
      seek peekAt width wanted fuel (position + totalWidth width frames) := by
  induction frames generalizing position with
  | nil => simp [totalWidth]
  | cons frame frames ih =>
      obtain ⟨here, later⟩ := laid
      obtain ⟨isFirst, isRest⟩ := List.forall_mem_cons.mp unwanted
      have advance := bounded position frame here
      rw [seek_step peekAt width wanted bounded enough, here]
      simp only [isFirst, Bool.false_eq_true, if_false]
      rw [ih (by omega) later isRest]
      simp [totalWidth, Nat.add_assoc]

end Seek

end FrameWalk

import DariyaKyu.Storage.LogSteps
import DariyaKyu.Storage.LogView
import Mathlib.Data.List.TakeWhile

/-!
Reads together with the bytes that the range they return leads to. Two logs
whose segments serve alike serve alike, and a segment serves by its batches and
by what lies below its size, so neither bytes behind that nor another descriptor
can be told from outside.
-/

namespace DariyaKyu.Storage

set_option autoImplicit false

/-- The bytes of a read, as a consumer of the range receives them. -/
def SegmentBase.serve (segment : SegmentBase) (offset : Int) (maxBytes : Nat) : Except Error Bytes := do
  let range ← segment.read offset maxBytes
  return segment.log.readAt range.position range.length

/-- Two segments that answer every read alike, with bytes and not with an error. -/
def SegmentBase.ServesAs (first second : SegmentBase) : Prop :=
  first.baseOffset = second.baseOffset ∧
    ∀ offset maxBytes, second.baseOffset ≤ offset →
      ∃ bytes, first.serve offset maxBytes = .ok bytes ∧ second.serve offset maxBytes = .ok bytes

/-- A read together with the bytes of the range it returns. -/
def Log.serve (log : Log) (offset : Int) (maxBytes : Nat) : Except Error (ReadError × Bytes) := do
  let result ← log.read offset maxBytes
  return (result.error, log.rangeBytes offset result.range)

/-- Two logs that answer every read alike, and none with an error. -/
def Log.ServesAs (first second : Log) : Prop :=
  ∀ offset maxBytes, ∃ answer,
    first.serve offset maxBytes = .ok answer ∧ second.serve offset maxBytes = .ok answer

theorem range_from_inside {log : FileHandle} {batches : List Bytes} (within : batches.flatten.length ≤ log.size)
    (offset : Int) (maxBytes : Nat) :
    (rangeFrom log batches offset maxBytes).position + (rangeFrom log batches offset maxBytes).length ≤ log.size := by
  unfold rangeFrom
  cases found : batches.dropWhile (lastOf · < offset) with
  | nil => simp
  | cons batch rest =>
      have parts := congrArg (·.flatten.length) (List.takeWhile_append_dropWhile (p := (lastOf · < offset)) (l := batches))
      simp only [found, List.flatten_append, List.flatten_cons, List.length_append] at parts
      simp only
      omega

/-- Two segments over the same batches, with the same bytes below the same size. -/
theorem held_serves_as {first second : SegmentBase} {batches : List Bytes}
    (firstHolds : SegmentHolds first batches) (secondHolds : SegmentHolds second batches)
    (base : first.baseOffset = second.baseOffset) (size : first.log.size = second.log.size)
    (shown : first.log.bytes.take first.log.size = second.log.bytes.take second.log.size) :
    first.ServesAs second := by
  refine ⟨base, ?_⟩
  intro offset maxBytes inside
  have served : ∀ {segment : SegmentBase}, SegmentHolds segment batches → segment.baseOffset ≤ offset →
      segment.serve offset maxBytes = .ok (((segment.log.bytes.take segment.log.size).drop
        (rangeFrom segment.log batches offset maxBytes).position).take
          (rangeFrom segment.log batches offset maxBytes).length) := by
    intro segment holds starts
    have bounded := range_from_inside holds.within offset maxBytes
    simp only [SegmentBase.serve, read_spec holds starts, except_ok_bind, FileHandle.readAt]
    rw [List.drop_take, List.take_take, Nat.min_eq_left (by omega)]
    rfl
  have same : (rangeFrom first.log batches offset maxBytes).position =
        (rangeFrom second.log batches offset maxBytes).position ∧
      (rangeFrom first.log batches offset maxBytes).length =
        (rangeFrom second.log batches offset maxBytes).length := by
    unfold rangeFrom
    rw [size]
    split <;> exact ⟨rfl, rfl⟩
  refine ⟨_, served firstHolds (base ▸ inside), ?_⟩
  rw [served secondHolds inside, same.1, same.2, shown]

section Serving

variable {first second : Log}

theorem serve_owner (log : Log) {offset : Int} (inside : offset < log.logEndOffset) (maxBytes : Nat) :
    log.serve offset maxBytes =
      match log.owner offset with
      | none => .ok (.belowLogStart, [])
      | some segment => (segment.serve offset maxBytes).map (ReadError.none, ·) := by
  have below : ¬ log.logEndOffset < offset := by omega
  have short : ¬ offset = log.logEndOffset := by omega
  simp only [Log.serve, Log.rangeBytes, Log.read, Log.owner, below, short, if_false]
  by_cases active : log.active.baseOffset ≤ offset
  · simp only [active, if_true, SegmentBase.serve]
    cases log.active.read offset maxBytes <;> rfl
  · simp only [active, if_false]
    cases routed : log.routed offset with
    | none => rfl
    | some segment =>
        simp only [SegmentBase.serve]
        cases segment.read offset maxBytes <;> rfl

theorem serve_outside (log : Log) {offset : Int} (outside : log.logEndOffset ≤ offset) (maxBytes : Nat) :
    log.serve offset maxBytes =
      .ok (if log.logEndOffset < offset then .aboveLogEnd else .none, []) := by
  have nothing : log.rangeBytes offset {} = [] := by
    unfold Log.rangeBytes
    cases log.owner offset <;> simp [FileHandle.readAt]
  by_cases above : log.logEndOffset < offset
  · simp only [Log.serve, Log.read, above, if_true, except_ok_bind]
    exact congrArg (fun bytes => Except.ok (ReadError.aboveLogEnd, bytes)) nothing
  · have ends : offset = log.logEndOffset := by omega
    subst ends
    simp only [Log.serve, Log.read, Int.lt_irrefl, if_false, if_true, except_ok_bind]
    exact congrArg (fun bytes => Except.ok (ReadError.none, bytes)) nothing

theorem taken_alike {related : SealedSegment → SealedSegment → Prop} {ones others : List SealedSegment}
    (alike : List.Forall₂ related ones others)
    (base : ∀ one other, related one other → one.baseOffset = other.baseOffset) (offset : Int) :
    List.Forall₂ related (ones.takeWhile (·.baseOffset ≤ offset))
      (others.takeWhile (·.baseOffset ≤ offset)) := by
  induction alike with
  | nil => exact .nil
  | @cons one other _ _ here _ ih =>
      have same := base one other here
      by_cases below : other.baseOffset ≤ offset
      · simpa only [List.takeWhile_cons, same, below, decide_true, if_true] using .cons here ih
      · simp only [List.takeWhile_cons, same, below, decide_false, Bool.false_eq_true, if_false]
        exact .nil

theorem routed_alike {related : SealedSegment → SealedSegment → Prop}
    (alike : List.Forall₂ related first.sealedMap second.sealedMap)
    (base : ∀ one other, related one other → one.baseOffset = other.baseOffset) (offset : Int) :
    Option.Rel related (first.routed offset) (second.routed offset) := by
  have heads : ∀ {ones others : List SealedSegment}, List.Forall₂ related ones others →
      Option.Rel related ones.head? others.head? := by
    intro ones others alike
    cases alike with
    | nil => exact .none
    | cons here _ => exact .some here
  unfold Log.routed
  rw [List.getLast?_eq_head?_reverse, List.getLast?_eq_head?_reverse]
  exact heads (List.forall₂_reverse_iff.mpr (taken_alike alike base offset))

theorem routed_base {log : Log} {offset : Int} {segment : SealedSegment}
    (routed : log.routed offset = some segment) : segment.baseOffset ≤ offset := by
  have member := List.mem_of_getLast? routed
  simpa using List.mem_takeWhile_imp member

theorem log_serves_as (ends : first.logEndOffset = second.logEndOffset)
    (active : first.active.toSegmentBase.ServesAs second.active.toSegmentBase)
    (alike : List.Forall₂ SegmentBase.ServesAs first.sealedMap second.sealedMap) :
    first.ServesAs second := by
  intro offset maxBytes
  by_cases outside : second.logEndOffset ≤ offset
  · rw [serve_outside first (by omega), serve_outside second outside, ends]
    exact ⟨_, rfl, rfl⟩
  rw [serve_owner first (by omega), serve_owner second (by omega)]
  simp only [Log.owner, active.1]
  by_cases inside : second.active.baseOffset ≤ offset
  · obtain ⟨bytes, firstServes, secondServes⟩ := active.2 offset maxBytes inside
    simp only [inside, if_true, firstServes, secondServes]
    exact ⟨_, rfl, rfl⟩
  · simp only [inside, if_false]
    have routes := routed_alike alike (fun one other serves => serves.1) offset
    cases firstRouted : first.routed offset with
    | none =>
        rw [firstRouted] at routes
        cases secondRouted : second.routed offset with
        | none => exact ⟨_, rfl, rfl⟩
        | some other =>
            rw [secondRouted] at routes
            cases routes
    | some one =>
        rw [firstRouted] at routes
        cases secondRouted : second.routed offset with
        | none =>
            rw [secondRouted] at routes
            cases routes
        | some other =>
            rw [secondRouted] at routes
            cases routes with
            | some serves =>
                obtain ⟨bytes, firstServes, secondServes⟩ :=
                  serves.2 offset maxBytes (routed_base secondRouted)
                simp only [firstServes, secondServes]
                exact ⟨_, rfl, rfl⟩

theorem Log.ServesAs.trans {third : Log} (one : first.ServesAs second) (two : second.ServesAs third) :
    first.ServesAs third := by
  intro offset maxBytes
  obtain ⟨answer, firstServes, secondServes⟩ := one offset maxBytes
  obtain ⟨again, secondAgain, thirdServes⟩ := two offset maxBytes
  cases secondServes.symm.trans secondAgain
  exact ⟨answer, firstServes, thirdServes⟩

end Serving

section Holding

variable {log : Log}

theorem sealed_serve_themselves (holds : LogHolds log) :
    List.Forall₂ SegmentBase.ServesAs log.sealedMap log.sealedMap := by
  apply List.forall₂_same.mpr
  intro other inside
  have otherHolds := (holds.sealedHolds other inside).toSegmentHolds
  exact held_serves_as otherHolds otherHolds rfl rfl rfl

theorem log_serves_itself (holds : LogHolds log) : log.ServesAs log := by
  apply log_serves_as rfl
  · have active := holds.activeHolds.segmentHolds
    exact held_serves_as active active rfl rfl rfl
  · exact sealed_serve_themselves holds

theorem roll_serves_as (holds : LogHolds log) {segment : SealedSegment} {active : ActiveSegment}
    (rolled : Rolled log segment active) (bare : log.active.log.bytes.length = log.active.log.size) (nextFd : Nat) :
    Log.ServesAs { log with
      sealedMap := log.sealedMap ++ [segment], active := active, nextFd := nextFd } log := by
  have itself := log_serves_itself holds
  intro offset maxBytes
  by_cases outside : log.logEndOffset ≤ offset
  · rw [serve_outside log outside, serve_outside _ (by exact outside)]
    exact ⟨_, rfl, rfl⟩
  have begins : ¬ active.baseOffset ≤ offset := by
    rw [rolled.begins, ← holds.ends]
    exact outside
  obtain ⟨answer, serves, _⟩ := itself offset maxBytes
  rw [serve_owner log (by omega)] at serves ⊢
  rw [serve_owner _ (by simpa using outside)]
  simp only [Log.owner, begins, if_false, Log.routed, List.takeWhile_append]
  by_cases inside : log.active.baseOffset ≤ offset
  · have all : log.sealedMap.takeWhile (·.baseOffset ≤ offset) = log.sealedMap := by
      rw [List.takeWhile_eq_self_iff]
      intro other member
      have below := linked_below holds.linked member
      exact decide_eq_true (by omega)
    have here : decide (segment.baseOffset ≤ offset) = true := decide_eq_true (rolled.base ▸ inside)
    have size : segment.log.size = log.active.log.size := by rw [rolled.holds.full, rolled.bytes, bare]
    have alike : segment.ServesAs log.active.toSegmentBase :=
      held_serves_as rolled.holds.toSegmentHolds holds.activeHolds.segmentHolds rolled.base size
        (by rw [size, rolled.bytes])
    obtain ⟨bytes, segmentServes, activeServes⟩ := alike.2 offset maxBytes inside
    simp [all, here, inside, segmentServes, activeServes, Except.map]
  · have beyond : decide (segment.baseOffset ≤ offset) = false := decide_eq_false (rolled.base ▸ inside)
    have same : (if (log.sealedMap.takeWhile (·.baseOffset ≤ offset)).length = log.sealedMap.length then
          log.sealedMap ++ [segment].takeWhile (·.baseOffset ≤ offset)
        else log.sealedMap.takeWhile (·.baseOffset ≤ offset)) = log.sealedMap.takeWhile (·.baseOffset ≤ offset) := by
      split
      · next whole =>
        rw [List.takeWhile_cons_of_neg (by simp [beyond]), List.append_nil]
        exact ((List.takeWhile_prefix _).eq_of_length whole).symm
      · rfl
    simp only [Log.owner, inside, if_false, Log.routed] at serves
    rw [same, if_neg inside]
    exact ⟨answer, serves, serves⟩

end Holding

end DariyaKyu.Storage

import DariyaKyu.Protocol.ErrorCodes
import DariyaKyu.Storage.OpenRanges

/-!
`handleFetch`, for one partition that is hosted. It takes the high watermark, the
log start and the read one after the other, each under a lock of its own, so
that appends, rolls and retention can come in between. The two offsets it sends
are older than the outcome of the read they are meant to explain.
-/

namespace DariyaKyu.Server

set_option autoImplicit false

open Storage Protocol

/-- One partition of a decoded request; a negative size has been refused. -/
structure FetchAsked where
  partition : Int := 0
  fetchOffset : Int := 0
  maxBytes : Nat := 2 ^ 20
  deriving DecidableEq, Repr

structure FetchAnswer where
  partition : Int := 0
  error : ErrorCode := .none
  highWatermark : Int := 0
  logStartOffset : Int := 0
  records : FileRange := {}
  deriving DecidableEq, Repr

/-- The answer made of the two samples and the outcome of the read. A read that
throws is not the client's doing. -/
def fetchAnswer (asked : FetchAsked) (highWatermark logStartOffset : Int)
    (read : Except Error ReadResult) : FetchAnswer :=
  match read with
  | .error _ =>
      { partition := asked.partition, error := .unknown, highWatermark, logStartOffset, records := {} }
  | .ok result =>
      { partition := asked.partition, error := errorCodeFor result.error, highWatermark, logStartOffset
        records := if result.error = .none then result.range else {} }

inductive FetchProgress where
  | idle
  | watermarked (asked : FetchAsked) (highWatermark : Int)
  | located (asked : FetchAsked) (highWatermark logStartOffset : Int)

/-- An answer that was sent, with the request and the outcome of its read. -/
structure Fetched where
  asked : FetchAsked
  read : Except Error ReadResult
  answer : FetchAnswer

structure Fetching where
  log : Log
  progress : FetchProgress
  fetched : List Fetched

inductive FetchAction where
  | append (batchBytes : Bytes) (rollMs clockMs : Int) (fault : Option WriteFault)
  | maybeRoll (nowMs : Int)
  | applyRetention (nowMs : Int)
  | sampleHighWatermark (asked : FetchAsked)
  | sampleLogStartOffset
  | read

namespace Fetching

def step : FetchAction → Fetching → Option Fetching
  | .append batchBytes rollMs clockMs fault, state =>
      (state.log.append batchBytes rollMs clockMs fault).log.map ({ state with log := · })
  | .maybeRoll nowMs, state => (state.log.maybeRoll nowMs).log.map ({ state with log := · })
  | .applyRetention nowMs, state => some { state with log := state.log.applyRetention nowMs }
  | .sampleHighWatermark asked, state =>
      match state.progress with
      | .idle => some { state with progress := .watermarked asked state.log.highWatermark }
      | _ => none
  | .sampleLogStartOffset, state =>
      match state.progress with
      | .watermarked asked highWatermark =>
          some { state with progress := .located asked highWatermark state.log.logStartOffset }
      | _ => none
  | .read, state =>
      match state.progress with
      | .located asked highWatermark logStartOffset =>
          let read := state.log.read asked.fetchOffset asked.maxBytes
          some { state with
            progress := .idle
            fetched := state.fetched ++
              [⟨asked, read, fetchAnswer asked highWatermark logStartOffset read⟩] }
      | _ => none

end Fetching

/-- The batch does not take the log end back: its last offset is at most one
below its first. -/
def goesForward (batchBytes : Bytes) : Bool :=
  match parseHeader batchBytes with
  | .error _ => true
  | .ok header => decide (-1 ≤ header.lastOffsetDelta)

/-- Retention between the sample of the log start and the read leaves the offset
that is asked for in the log, if the sample has it there; and no batch takes the
log end back. -/
def Fetching.undisturbed (state : Fetching) : FetchAction → Bool
  | .append batchBytes _ _ _ => goesForward batchBytes
  | .applyRetention nowMs =>
      match state.progress with
      | .located asked _ logStartOffset =>
          !decide (logStartOffset ≤ asked.fetchOffset) ||
            decide ((state.log.applyRetention nowMs).logStartOffset ≤ asked.fetchOffset)
      | _ => true
  | _ => true

/-- The two offsets of an answer say why the read was out of range. -/
structure Fetched.Explained (fetched : Fetched) : Prop where
  below : ∀ range, fetched.read = .ok ⟨.belowLogStart, range⟩ →
    fetched.answer.error = .offsetOutOfRange ∧
      fetched.asked.fetchOffset < fetched.answer.logStartOffset
  above : ∀ range, fetched.read = .ok ⟨.aboveLogEnd, range⟩ →
    fetched.answer.error = .offsetOutOfRange ∧
      fetched.answer.highWatermark < fetched.asked.fetchOffset ∧
      fetched.answer.logStartOffset ≤ fetched.asked.fetchOffset

/-- No segment begins behind the log end, and the high watermark is there. -/
structure InFront (log : Log) : Prop where
  watermark : log.highWatermark = log.logEndOffset
  ends : log.logEndOffset = log.active.nextOffset
  active : log.active.baseOffset ≤ log.logEndOffset
  sealedBelow : ∀ segment ∈ log.sealedMap, segment.baseOffset ≤ log.active.baseOffset

section InFront

variable {log next : Log}

theorem created_active {fd : Int} {dir : String} {base : Int} {policy : RollPolicy} {taken : Bool}
    {segment : ActiveSegment} (created : ActiveSegment.create fd dir base policy taken = .ok segment) :
    segment.baseOffset = base ∧ segment.nextOffset = base := by
  cases taken with
  | true => cases created
  | false =>
      obtain ⟨_, begins, ends, _⟩ := create_active_spec created
      exact ⟨begins, ends⟩

theorem create_in_front {tp : TopicPartition} {dir : String} {config : LogConfig}
    (made : Log.create tp dir config = .ok log) : InFront log := by
  obtain ⟨active, created, same⟩ := except_bind_ok made
  obtain ⟨begins, ends⟩ := created_active created
  cases Except.ok.inj same
  refine ⟨rfl, rfl, ?_, by simp [Log.ofSegments]⟩
  simp only [Log.ofSegments, begins, ends, le_refl]

theorem InFront.start_le (inFront : InFront log) : log.logStartOffset ≤ log.logEndOffset := by
  have active := inFront.active
  unfold Log.logStartOffset
  cases first : log.sealedMap with
  | nil => exact active
  | cons segment rest =>
      have below := inFront.sealedBelow segment (by simp [first])
      simp only [List.head?_cons, Option.map_some, Option.getD_some]
      omega

/-- A segment that begins behind all others is put behind the first. -/
theorem emplace_head {segment : SealedSegment} {segments : List SealedSegment}
    (behind : ∀ other ∈ segments, other.baseOffset ≤ segment.baseOffset) :
    ((emplaceSegment segment segments).head?.map (·.baseOffset)) =
      some ((segments.head?.map (·.baseOffset)).getD segment.baseOffset) := by
  cases segments with
  | nil => rfl
  | cons first rest =>
      have below := behind first List.mem_cons_self
      simp only [emplaceSegment]
      split
      · omega
      split <;> rfl

theorem roll_in_front (inFront : InFront log) {nowMs : Int}
    (rolled : (log.maybeRoll nowMs).log = some next) :
    InFront next ∧ next.logStartOffset = log.logStartOffset ∧
      next.logEndOffset = log.logEndOffset := by
  unfold Log.maybeRoll at rolled
  split at rolled
  · cases rolled
    exact ⟨inFront, rfl, rfl⟩
  simp only at rolled
  split at rolled
  · cases rolled
    exact ⟨inFront, rfl, rfl⟩
  · next active created =>
    split at rolled
    · cases rolled
    · next segment isSealed =>
      cases rolled
      obtain ⟨begins, ends⟩ := created_active created
      have base : segment.baseOffset = log.active.baseOffset := (open_sealed_ok isSealed).2
      have behind : ∀ other ∈ log.sealedMap, other.baseOffset ≤ segment.baseOffset := by
        rw [base]
        exact inFront.sealedBelow
      have forward := inFront.active
      have last := inFront.ends
      refine ⟨⟨inFront.watermark, last.trans ends.symm, by simp only; omega, ?_⟩, ?_, rfl⟩
      · intro other member
        have place := (emplace_members segment log.sealedMap).1.subset member
        simp only
        rcases List.mem_cons.mp place with rfl | old
        · omega
        · have below := behind other old
          omega
      · simp only [Log.logStartOffset, emplace_head behind, Option.getD_some, base]

theorem append_active (segment : ActiveSegment) (base : Int) (batchBytes : Bytes) (clockMs : Int)
    (fault : Option WriteFault) {after : ActiveSegment} {result : Except Error Unit}
    (appended : segment.append base batchBytes clockMs fault = (after, result)) :
    after.baseOffset = segment.baseOffset ∧
      ((∃ failure, result = .error failure ∧ after.nextOffset = segment.nextOffset) ∨
        result = .ok () ∧ ∃ header, parseHeader batchBytes = .ok header ∧ header.baseOffset = base ∧
          base = segment.nextOffset ∧ after.nextOffset = header.lastOffset + 1) := by
  unfold ActiveSegment.append at appended
  split at appended
  · cases appended
    exact ⟨rfl, .inl ⟨_, rfl, rfl⟩⟩
  next header parsed =>
  split at appended
  · cases appended
    exact ⟨rfl, .inl ⟨_, rfl, rfl⟩⟩
  next stamped =>
  split at appended
  · cases appended
    exact ⟨rfl, .inl ⟨_, rfl, rfl⟩⟩
  next starts =>
  split at appended
  · cases appended
    exact ⟨rfl, .inl ⟨_, rfl, rfl⟩⟩
  · next indexed step =>
    obtain ⟨state, _, rfl⟩ := maybe_add_index_entry_ok.mp step
    split at appended
    · cases appended
      exact ⟨rfl, .inl ⟨_, rfl, rfl⟩⟩
    · cases appended
      exact ⟨rfl, .inr ⟨rfl, header, parsed, not_not.mp stamped, not_not.mp starts, rfl⟩⟩

/-- An append that goes forward moves the log end forward, if it moves it. -/
theorem append_in_front (inFront : InFront log) {batchBytes : Bytes} {rollMs clockMs : Int}
    {fault : Option WriteFault} (forward : goesForward batchBytes = true)
    (appended : (log.append batchBytes rollMs clockMs fault).log = some next) :
    InFront next ∧ next.logStartOffset = log.logStartOffset ∧
      log.logEndOffset ≤ next.logEndOffset := by
  cases rolls : log.maybeRoll rollMs with
  | threw failure rolled =>
      simp only [Log.append, rolls] at appended
      cases appended
      obtain ⟨rolledFront, start, ends⟩ := roll_in_front inFront (by rw [rolls]; rfl)
      exact ⟨rolledFront, start, ends.ge⟩
  | ruined failure =>
      simp only [Log.append, rolls] at appended
      cases appended
  | returned done rolled =>
      obtain ⟨rolledFront, start, ends⟩ := roll_in_front inFront (by rw [rolls]; rfl)
      simp only [Log.append, rolls] at appended
      split at appended
      · cases appended
        exact ⟨rolledFront, start, ends.ge⟩
      · next batch isStamped =>
        have base := rolledFront.active
        have last := rolledFront.ends
        split at appended
        · next active failure wrote =>
          cases appended
          obtain ⟨sameBase, ⟨_, _, sameNext⟩ | ⟨accepted, _⟩⟩ := append_active _ _ _ _ _ wrote
          · refine ⟨⟨rolledFront.watermark, last.trans sameNext.symm, ?_, ?_⟩, ?_, ends.ge⟩
            · rw [sameBase]
              exact base
            · rw [sameBase]
              exact rolledFront.sealedBelow
            · rw [← start]
              simp only [Log.logStartOffset, sameBase]
          · cases accepted
        · next active done wrote =>
          cases appended
          obtain ⟨sameBase, ⟨_, refused, _⟩ | ⟨_, header, parsed, begins, _, nextOffset⟩⟩ :=
            append_active _ _ _ _ _ wrote
          · cases refused
          · -- stamping keeps the last offset delta, and it is not below -1
            have long : kBatchHeaderSize ≤ batchBytes.length := by
              obtain ⟨_, required, _⟩ := except_bind_ok isStamped
              exact require_at_least_ok required
            have same := stamp_base_offset_eq batchBytes rolled.logEndOffset long
            rw [isStamped] at same
            obtain rfl := Except.ok.inj same
            obtain ⟨_, isHeader, magic, count, size⟩ := parse_header_ok parsed
            rw [header_of_stamped] at isHeader
            have delta : -1 ≤ header.lastOffsetDelta := by
              have original : parseHeader batchBytes = .ok (headerOf batchBytes) := by
                rw [parse_header_eq _ long, if_neg, if_neg, if_neg]
                · rw [isHeader] at size
                  exact not_lt.mpr size
                · rw [isHeader] at count
                  exact not_lt.mpr count
                · rw [isHeader] at magic
                  exact not_not.mpr magic
              simp only [goesForward, original, decide_eq_true_eq] at forward
              rw [isHeader]
              exact forward
            have moved : rolled.logEndOffset ≤ active.nextOffset := by
              rw [nextOffset, BatchHeader.lastOffset, begins]
              omega
            refine ⟨⟨rfl, rfl, ?_, ?_⟩, ?_, ?_⟩
            · simp only [sameBase]
              omega
            · rw [sameBase]
              exact rolledFront.sealedBelow
            · rw [← start]
              simp only [Log.logStartOffset, sameBase]
            · simp only
              omega

theorem retention_in_front (inFront : InFront log) (nowMs : Int) :
    InFront (log.applyRetention nowMs) ∧
      (log.applyRetention nowMs).logEndOffset = log.logEndOffset := by
  obtain ⟨count, graveyard, buried⟩ := retention_buries log nowMs
  rw [buried]
  refine ⟨⟨inFront.watermark, inFront.ends, inFront.active, ?_⟩, rfl⟩
  intro segment member
  exact inFront.sealedBelow segment (List.mem_of_mem_drop member)

/-- Every log that is in order, with its high watermark at its end. -/
theorem holds_in_front (holds : LogHolds log) (watermark : log.highWatermark = log.logEndOffset) :
    InFront log := by
  refine ⟨watermark, holds.ends, ?_, ?_⟩
  · rw [holds.ends, holds.activeHolds.ends]
    exact start_le_end holds.activeHolds.consecutive.ascending
  · intro segment member
    have below := linked_below holds.linked member
    omega

end InFront

/-- What a fetch in progress has sampled, seen from the log as it is now. -/
def FetchProgress.SeenFrom (log : Log) : FetchProgress → Prop
  | .idle => True
  | .watermarked _ highWatermark => highWatermark ≤ log.logEndOffset
  | .located asked highWatermark logStartOffset =>
      highWatermark ≤ log.logEndOffset ∧ logStartOffset ≤ log.logEndOffset ∧
        (asked.fetchOffset < log.logStartOffset → asked.fetchOffset < logStartOffset)

structure FetchingHolds (state : Fetching) : Prop where
  inFront : InFront state.log
  seen : state.progress.SeenFrom state.log
  explained : ∀ fetched ∈ state.fetched, fetched.Explained

/-- A log end that moves forward and a log start that stays change nothing. -/
theorem FetchProgress.SeenFrom.later {log next : Log} {progress : FetchProgress}
    (seen : progress.SeenFrom log) (start : next.logStartOffset = log.logStartOffset)
    (ends : log.logEndOffset ≤ next.logEndOffset) : progress.SeenFrom next := by
  cases progress with
  | idle => trivial
  | watermarked asked highWatermark =>
      have bound : highWatermark ≤ log.logEndOffset := seen
      exact Int.le_trans bound ends
  | located asked highWatermark logStartOffset =>
      obtain ⟨watermark, begins, within⟩ := seen
      exact ⟨Int.le_trans watermark ends, Int.le_trans begins ends, start ▸ within⟩

theorem out_of_range {log : Log} {offset : Int} {maxBytes : Nat} {range : FileRange} :
    (log.read offset maxBytes = .ok ⟨.belowLogStart, range⟩ → offset < log.logStartOffset) ∧
      (log.read offset maxBytes = .ok ⟨.aboveLogEnd, range⟩ → log.logEndOffset < offset) := by
  unfold Log.read
  split
  · next above =>
    exact ⟨nofun, fun _ => above⟩
  split
  · exact ⟨nofun, nofun⟩
  split
  · constructor
    · intro answered
      obtain ⟨_, _, made⟩ := except_bind_ok answered
      cases made
    · intro answered
      obtain ⟨_, _, made⟩ := except_bind_ok answered
      cases made
  · next notActive =>
    split
    · next nowhere =>
      refine ⟨fun _ => ?_, nofun⟩
      -- the oldest segment begins behind the offset, or there is none
      simp only [Log.routed, List.getLast?_eq_none_iff] at nowhere
      unfold Log.logStartOffset
      cases first : log.sealedMap with
      | nil => exact not_le.mp notActive
      | cons segment rest =>
          simp only [first, List.takeWhile_cons, ite_eq_right_iff, reduceCtorEq, imp_false,
            decide_eq_true_eq] at nowhere
          exact not_le.mp nowhere
    · constructor
      · intro answered
        obtain ⟨_, _, made⟩ := except_bind_ok answered
        cases made
      · intro answered
        obtain ⟨_, _, made⟩ := except_bind_ok answered
        cases made

theorem read_explained {log : Log} {asked : FetchAsked} {highWatermark logStartOffset : Int}
    (seen : (FetchProgress.located asked highWatermark logStartOffset).SeenFrom log) :
    Fetched.Explained ⟨asked, log.read asked.fetchOffset asked.maxBytes,
      fetchAnswer asked highWatermark logStartOffset (log.read asked.fetchOffset asked.maxBytes)⟩ := by
  obtain ⟨watermark, begins, within⟩ := seen
  constructor
  · intro range below
    simp only at below
    have behind := out_of_range.1 below
    simp only [below, fetchAnswer]
    exact ⟨rfl, within behind⟩
  · intro range above
    simp only at above
    have ahead := out_of_range.2 above
    simp only [above, fetchAnswer]
    exact ⟨rfl, by omega, by omega⟩

theorem fetching_step {state next : Fetching} {action : FetchAction} (holds : FetchingHolds state)
    (undisturbed : state.undisturbed action = true) (taken : Fetching.step action state = some next) :
    FetchingHolds next := by
  cases action with
  | append batchBytes rollMs clockMs fault =>
      obtain ⟨log, appended, rfl⟩ := Option.map_eq_some_iff.mp taken
      obtain ⟨inFront, start, ends⟩ := append_in_front holds.inFront undisturbed appended
      exact ⟨inFront, holds.seen.later start ends, holds.explained⟩
  | maybeRoll nowMs =>
      obtain ⟨log, rolled, rfl⟩ := Option.map_eq_some_iff.mp taken
      obtain ⟨inFront, start, ends⟩ := roll_in_front holds.inFront rolled
      exact ⟨inFront, holds.seen.later start ends.ge, holds.explained⟩
  | applyRetention nowMs =>
      cases taken
      obtain ⟨inFront, ends⟩ := retention_in_front holds.inFront nowMs
      refine ⟨inFront, ?_, holds.explained⟩
      have seen := holds.seen
      cases at_ : state.progress with
      | idle => trivial
      | watermarked asked highWatermark =>
          rw [at_] at seen
          have bound : highWatermark ≤ state.log.logEndOffset := seen
          exact Int.le_trans bound ends.ge
      | located asked highWatermark logStartOffset =>
          rw [at_] at seen
          obtain ⟨watermark, begins, _⟩ := seen
          refine ⟨Int.le_trans watermark ends.ge, Int.le_trans begins ends.ge, ?_⟩
          -- the sample has the offset in the log, and then it stays there
          simp only [Fetching.undisturbed, at_, Bool.or_eq_true, Bool.not_eq_true',
            decide_eq_false_iff_not, decide_eq_true_eq] at undisturbed
          intro gone
          rcases undisturbed with below | stays
          · exact not_le.mp below
          · exact absurd gone (not_lt.mpr stays)
  | sampleHighWatermark asked =>
      simp only [Fetching.step] at taken
      split at taken
      · cases taken
        exact ⟨holds.inFront, holds.inFront.watermark.le, holds.explained⟩
      · cases taken
  | sampleLogStartOffset =>
      simp only [Fetching.step] at taken
      split at taken
      · next asked highWatermark at_ =>
        cases taken
        have seen := holds.seen
        rw [at_] at seen
        exact ⟨holds.inFront, ⟨seen, holds.inFront.start_le, id⟩, holds.explained⟩
      · cases taken
  | read =>
      simp only [Fetching.step] at taken
      split at taken
      · next asked highWatermark logStartOffset at_ =>
        cases taken
        have seen := holds.seen
        rw [at_] at seen
        refine ⟨holds.inFront, trivial, ?_⟩
        intro fetched member
        rcases List.mem_append.mp member with earlier | last
        · exact holds.explained fetched earlier
        · rw [List.mem_singleton.mp last]
          exact read_explained seen
      · cases taken

/-- A log as a fetch finds it: fresh, or in order and read up to its end. -/
def Fetchable (log : Log) : Prop :=
  (∃ tp dir config, Log.create tp dir config = .ok log) ∨
    LogHolds log ∧ log.highWatermark = log.logEndOffset

/-- As long as no retention takes the offset out of the log between the sample
of the log start and the read, a client can tell the two kinds of out of range
apart by the offsets it is sent. -/
theorem fetch_explains_out_of_range {log : Log} (fetchable : Fetchable log) {final : Fetching}
    (reached : GuardedRun.Reaches Fetching.step (fun state action => state.undisturbed action = true)
      ⟨log, .idle, []⟩ final) : ∀ fetched ∈ final.fetched, fetched.Explained := by
  have inFront : InFront log := by
    rcases fetchable with ⟨_, _, _, made⟩ | ⟨holds, watermark⟩
    · exact create_in_front made
    · exact holds_in_front holds watermark
  have start : FetchingHolds ⟨log, .idle, []⟩ := ⟨inFront, trivial, by simp⟩
  have kept := reached.invariant Fetching.step _ FetchingHolds start
    fun _ _ _ holds undisturbed taken => fetching_step holds undisturbed taken
  exact kept.explained

/-- A segment of two batches that is due for retention, and a fetch of its first offset. -/
def fetchOfOldest : List FetchAction :=
  [.append (recordBatchOf 10 none (some [118])) 0 0 none,
    .append (recordBatchOf 10 none (some [118])) 0 0 none, .maybeRoll 0,
    .append (recordBatchOf 2000 none (some [118])) 0 0 none,
    .sampleHighWatermark { fetchOffset := 0 }]

/-- Retention comes in front of the sample of the log start. -/
theorem fetch_explains_out_of_range_retained :
    ∃ (log : Log) (final : Fetching) (fetched : Fetched),
      Log.create ⟨[116], 0⟩ "t-0" twoBatchConfig = .ok log ∧ fetched ∈ final.fetched ∧
        fetched.answer.error = .offsetOutOfRange ∧ fetched.Explained := by
  obtain ⟨log, final, made, reached, checked⟩ := found_from_creation Fetching.step
    (fun state action => state.undisturbed action = true) (⟨·, .idle, []⟩) ⟨[116], 0⟩ "t-0"
    twoBatchConfig
    (fun state => state.fetched.any (·.answer.error == .offsetOutOfRange))
    (fetchOfOldest ++ [.applyRetention 2000, .sampleLogStartOffset, .read]) (by decide +kernel)
  simp only [List.any_eq_true, beq_iff_eq] at checked
  obtain ⟨fetched, member, outOfRange⟩ := checked
  exact ⟨log, final, fetched, made, member, outOfRange,
    fetch_explains_out_of_range (.inl ⟨_, _, _, made⟩) reached fetched member⟩

/-- Retention comes between the sample and the read: the client is told that
the log begins at the very offset that has just been deleted. -/
theorem retention_behind_the_sample_misleads :
    ¬ ∀ (log : Log) (final : Fetching), Fetchable log →
      GuardedRun.Reaches Fetching.step (fun _ _ => True) ⟨log, .idle, []⟩ final →
        ∀ fetched ∈ final.fetched, fetched.Explained := by
  intro all
  obtain ⟨log, final, made, reached, checked⟩ := found_from_creation Fetching.step
    (fun _ _ => True) (⟨·, .idle, []⟩) ⟨[116], 0⟩ "t-0" twoBatchConfig
    (fun state => state.fetched.any fun fetched => fetched.asked.fetchOffset == 0 &&
      fetched.answer.logStartOffset == 0 &&
        fetched.read.toOption.any fun result => result == ⟨.belowLogStart, {}⟩)
    (fetchOfOldest ++ [.sampleLogStartOffset, .applyRetention 2000, .read]) (by decide +kernel)
  simp only [List.any_eq_true, Bool.and_eq_true, beq_iff_eq, Option.any_eq_true] at checked
  obtain ⟨fetched, member, ⟨asked, start⟩, result, isResult, below⟩ := checked
  have explained := all log final (.inl ⟨_, _, _, made⟩) reached fetched member
  have told := (explained.below {} (ok_of_to_option (below ▸ isResult))).2
  rw [asked, start] at told
  exact absurd told (by decide)

end DariyaKyu.Server

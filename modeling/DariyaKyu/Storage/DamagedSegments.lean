import DariyaKyu.Storage.Cleaning
import DariyaKyu.Storage.LogRuns
import Mathlib.Data.List.TakeWhile

/-!
Compaction of files in which checksums fail. A segment file is a sequence of
complete batches; a reader that goes from header to header gets to each of
them, and one whose checksum holds still has its records. `scanSegment` ends at
the first batch whose checksum fails, so a rewrite that drops anything ahead of
it leaves out that batch and whatever follows.
-/

namespace DariyaKyu.Storage

set_option autoImplicit false

open FrameWalk

/-- The batch at a position, as long as its header says. -/
def frameAt (contents : Bytes) (position : Nat) : Except Error (Option Bytes) :=
  if contents.length < position + kBatchHeaderSize then .ok none
  else
    match totalSizeOf ((contents.drop position).take kBatchHeaderSize) with
    | .error _ => .ok none
    | .ok total =>
        if contents.length < position + total then .ok none
        else .ok (some ((contents.drop position).take total))

/-- The batches of a file from header to header, whatever their checksums. -/
def batchesOf (contents : Bytes) : List Bytes :=
  match walk (frameAt contents) List.length
      (fun batches _ batch => .ok (.next (batches ++ [batch]))) (contents.length + 1) 0 [] with
  | .error _ => []
  | .ok (_, batches) => batches

def crcHolds (batch : Bytes) : Bool :=
  match verifyCrc batch with
  | .error _ => false
  | .ok intact => intact

/-- The records a file still has: those of the batches whose checksums hold. -/
def readableRecords (contents : Bytes) : List LogRecord :=
  ((batchesOf contents).filter crcHolds).flatMap recordsOf

def undamagedFront (contents : Bytes) : List Bytes := (batchesOf contents).takeWhile crcHolds

/-- A file of complete batches of which any may have been damaged since. One
that was not is as it was written: its records, if they decode, are in order. -/
structure Rotted (contents : Bytes) (batches : List Bytes) : Prop where
  laid : contents = batches.flatten
  complete : ∀ batch ∈ batches, totalSizeOf batch = .ok batch.length
  sound : ∀ batch ∈ batches, crcHolds batch = true → OrderedBatch batch

/-- The pass costs this segment nothing but what the rules drop: every batch
whose checksum holds has its records still, and where a checksum does not hold
the file is there as it was. -/
structure SparesSound (rules : RetainRules) (segment : SealedSegment) (after : List SealedSegment) :
    Prop where
  readable : ∀ batch ∈ batchesOf segment.log.bytes, crcHolds batch = true →
    ∀ record ∈ recordsOf batch, rules.keeps record = true →
      ∃ left ∈ after, left.baseOffset = segment.baseOffset ∧ record ∈ readableRecords left.log.bytes
  untouched : (∃ batch ∈ batchesOf segment.log.bytes, crcHolds batch = false) →
    ∃ left ∈ after, left.baseOffset = segment.baseOffset ∧ left.log.bytes = segment.log.bytes

def DropsAheadOfDamage (rules : RetainRules) (contents : Bytes) : Prop :=
  (∃ batch ∈ batchesOf contents, crcHolds batch = false) ∧
    ∃ record ∈ (undamagedFront contents).flatMap recordsOf, rules.keeps record = false

section Frames

variable {contents : Bytes} {batches : List Bytes}

theorem frame_at_complete {before batch : Bytes} (after : Bytes)
    (complete : totalSizeOf batch = .ok batch.length) (split : contents = before ++ (batch ++ after)) :
    frameAt contents before.length = .ok (some batch) := by
  obtain ⟨long, total, within, whole⟩ := framed_at complete split
  unfold frameAt
  rw [if_neg long]
  simp only [total, whole]
  rw [if_neg within]

theorem frames_laid (before : List Bytes) {after : List Bytes}
    (complete : ∀ batch ∈ after, totalSizeOf batch = .ok batch.length)
    (split : contents = (before ++ after).flatten) :
    LaidOut (frameAt contents) List.length before.flatten.length after := by
  induction after generalizing before with
  | nil =>
      have positive : 0 < kBatchHeaderSize := by decide
      have ends : contents.length = before.flatten.length := by rw [split, List.append_nil]
      simp only [LaidOut, frameAt]
      rw [if_pos (by omega)]
  | cons batch after ih =>
      have shifted : before ++ batch :: after = (before ++ [batch]) ++ after := by simp
      have here := @frame_at_complete contents before.flatten batch after.flatten
        (complete batch (by simp)) (by rw [split]; simp)
      have later := ih (before ++ [batch])
        (fun other member => complete other (by simp [member])) (by rw [split, shifted])
      refine ⟨here, ?_⟩
      simpa using later

theorem batches_of_flatten (complete : ∀ batch ∈ batches, totalSizeOf batch = .ok batch.length) :
    batchesOf batches.flatten = batches := by
  have laid := frames_laid [] complete rfl
  have positive : ∀ batch ∈ batches, 0 < batch.length := by
    intro batch member
    have header := (total_size_of_ok (complete batch member)).2.1
    have : 0 < kBatchHeaderSize := by decide
    omega
  have enough : batches.length < batches.flatten.length + 1 :=
    Nat.lt_succ_of_le (count_le_bytes positive)
  have walked := walk_laid_out _ _
    (fun (visited : List Bytes) _ batch => .ok (.next (visited ++ [batch]))) [] laid enough
  simp only [List.flatten_nil, List.length_nil, List.nil_append] at walked
  rw [batchesOf, walked,
    visit_all_fold _ _ _ _ _ (fun visited batch => visited ++ [batch]) (fun _ _ _ _ => rfl)]
  simp only [fold_visited, List.nil_append]

theorem crc_holds_iff {batch : Bytes} : crcHolds batch = true ↔ verifyCrc batch = .ok true := by
  unfold crcHolds
  cases verifyCrc batch with
  | error failure => simp
  | ok intact => simp

/-- A scan ends in front of a complete batch whose checksum does not hold. -/
theorem scan_at_damaged {before batch : Bytes} (after : Bytes)
    (complete : totalSizeOf batch = .ok batch.length) (damaged : crcHolds batch = false)
    (split : contents = before ++ (batch ++ after)) : scanAt contents before.length = .ok none := by
  obtain ⟨long, total, within, whole⟩ := framed_at complete split
  unfold scanAt
  rw [if_neg long]
  simp only [total, whole]
  rw [if_neg within]
  cases parsed : parseHeader batch with
  | error failure => rfl
  | ok found =>
      have computed : ∃ intact, verifyCrc batch = .ok intact := by
        simp [verifyCrc, parsed, computeCrc, complete, requireAtLeast, pure, Except.pure]
      obtain ⟨intact, checked⟩ := computed
      simp only [crcHolds, checked] at damaged
      simp only [checked, except_ok_bind, damaged, Bool.false_eq_true, if_false]
      rfl

namespace Rotted

theorem in_file (rotted : Rotted contents batches) : batchesOf contents = batches := by
  rw [rotted.laid, batches_of_flatten rotted.complete]

theorem front (rotted : Rotted contents batches) :
    ∀ batch ∈ batches.takeWhile crcHolds, OrderedBatch batch := by
  intro batch member
  have holds : crcHolds batch = true := List.mem_takeWhile_imp member
  exact rotted.sound batch ((List.takeWhile_sublist crcHolds).subset member) holds

/-- What a scan of such a file visits: the batches ahead of the first damage. -/
theorem scanned (rotted : Rotted contents batches) :
    scanSegment contents = .ok (scannedAt 0 (batches.takeWhile crcHolds)) := by
  have split := List.takeWhile_append_dropWhile (p := crcHolds) (l := batches)
  apply scan_segment_spec fun batch member => (rotted.front batch member).toCheckedBatch
  · refine ⟨(batches.dropWhile crcHolds).flatten, ?_⟩
    rw [← List.flatten_append, split, rotted.laid]
  · cases behind : batches.dropWhile crcHolds with
    | nil =>
        rw [behind, List.append_nil] at split
        rw [split, rotted.laid]
        exact scan_at_end (le_refl _)
    | cons batch rest =>
        have damaged : crcHolds batch = false := by
          have := List.head?_dropWhile_not crcHolds batches
          rw [behind] at this
          simpa using this
        have member : batch ∈ batches := by
          rw [← split, behind]
          simp
        apply scan_at_damaged rest.flatten (rotted.complete batch member) damaged
        rw [rotted.laid]
        conv_lhs => rw [← split, behind]
        simp

end Rotted

end Frames

theorem drops_something {rules : RetainRules} {batches : List Bytes} {position : Nat}
    (complete : ∀ batch ∈ batches, CheckedBatch batch)
    (something : dropsAnything rules (scannedAt position batches) = .ok true) :
    ∃ record ∈ batches.flatMap recordsOf, rules.keeps record = false := by
  induction batches generalizing position with
  | nil => cases something
  | cons batch batches ih =>
      simp only [scannedAt, dropsAnything] at something
      obtain ⟨raw, decoded, something⟩ := except_bind_ok something
      have same := records_of_decoded (complete batch (by simp)) decoded
      split at something
      · next dropped =>
        obtain ⟨record, member, lost⟩ := List.any_eq_true.mp dropped
        refine ⟨record.resolve (headerOf batch), ?_, by simpa [retains_eq] using lost⟩
        simp only [List.flatMap_cons, List.mem_append]
        left
        rw [same]
        exact List.mem_map_of_mem member
      · obtain ⟨record, member, lost⟩ := ih
          (fun other member => complete other (by simp [member])) something
        refine ⟨record, ?_, lost⟩
        simp only [List.flatMap_cons, List.mem_append]
        exact .inr member

section OneSegment

variable {dir : String} {roll : RollPolicy} {rules : RetainRules} {segment : SealedSegment}
  {left : List SealedSegment}

theorem rewrite_rotted {contents : Bytes} {base : Int} {batches : List Bytes} {cleaned : CleanedSegment}
    (rotted : Rotted contents batches)
    (rewrote : rewriteSegment dir contents base roll rules = .ok cleaned) :
    ∃ news : List Bytes, cleaned.log = news.flatten ∧ (∀ batch ∈ news, CheckedBatch batch) ∧
      news.flatMap recordsOf = ((batches.takeWhile crcHolds).flatMap recordsOf).filter rules.keeps ∧
      cleaned.recordsKept =
        (((batches.takeWhile crcHolds).flatMap recordsOf).filter rules.keeps).length := by
  obtain ⟨index, _, rewrote⟩ := except_bind_ok rewrote
  simp only [rotted.scanned, except_ok_bind] at rewrote
  obtain ⟨news, written, formed, records, count, _⟩ := rewrite_batches_writes rotted.front rewrote
  exact ⟨news, by simpa using written, fun batch member => (formed batch member).1.toIntactBatch.complete,
    records, by simpa using count⟩

theorem readable_rewritten {contents : Bytes} {news : List Bytes} (written : contents = news.flatten)
    (checked : ∀ batch ∈ news, CheckedBatch batch) :
    batchesOf contents = news ∧ (∀ batch ∈ news, crcHolds batch = true) ∧
      readableRecords contents = news.flatMap recordsOf := by
  have inFile : batchesOf contents = news := by
    rw [written, batches_of_flatten fun batch member => (checked batch member).sized]
  have holds : ∀ batch ∈ news, crcHolds batch = true := by
    intro batch member
    exact crc_holds_iff.mpr (checked batch member).checked
  refine ⟨inFile, holds, ?_⟩
  rw [readableRecords, inFile, List.filter_eq_self.mpr holds]

/-- One turn of a pass costs a segment nothing exactly when it does not drop
something ahead of damage. -/
theorem turned_spares_iff {batches : List Bytes} (rotted : Rotted segment.log.bytes batches)
    (turned : Turned dir roll rules segment left) :
    SparesSound rules segment left ↔ ¬ DropsAheadOfDamage rules segment.log.bytes := by
  have inFile := rotted.in_file
  have checked : ∀ batch ∈ batches.takeWhile crcHolds, CheckedBatch batch :=
    fun batch member => (rotted.front batch member).toCheckedBatch
  unfold DropsAheadOfDamage undamagedFront
  rw [inFile]
  -- what a rewrite needs to be harmless: no damage, so that the front is the whole file
  have undamaged : (∃ record ∈ (batches.takeWhile crcHolds).flatMap recordsOf, rules.keeps record = false) →
      ¬ ((∃ batch ∈ batches, crcHolds batch = false) ∧
        ∃ record ∈ (batches.takeWhile crcHolds).flatMap recordsOf, rules.keeps record = false) →
      (∀ batch ∈ batches, crcHolds batch = true) ∧ batches.takeWhile crcHolds = batches := by
    intro dropped harmless
    have holds : ∀ batch ∈ batches, crcHolds batch = true := by
      intro batch member
      by_contra damaged
      exact harmless ⟨⟨batch, member, by simpa using damaged⟩, dropped⟩
    exact ⟨holds, List.takeWhile_eq_self_iff.mpr holds⟩
  cases turned with
  | unchanged nothing =>
      simp only [wouldDropAnything, rotted.scanned, except_ok_bind] at nothing
      have kept := drops_nothing checked nothing
      constructor
      · rintro _ ⟨_, record, member, lost⟩
        simp [kept record member] at lost
      · intro _
        exact
          { readable := by
              intro batch member holds record inside _
              refine ⟨segment, by simp, rfl, ?_⟩
              exact List.mem_flatMap.mpr ⟨batch, List.mem_filter.mpr ⟨member, holds⟩, inside⟩
            untouched := fun _ => ⟨segment, by simp, rfl, rfl⟩ }
  | replaced drops rewrote _ opened =>
      simp only [wouldDropAnything, rotted.scanned, except_ok_bind] at drops
      have dropped := drops_something checked drops
      obtain ⟨base, file, _⟩ := open_sealed_keeps opened
      have bytes := congrArg FileHandle.bytes file
      obtain ⟨news, written, newChecked, records, _⟩ := rewrite_rotted rotted rewrote
      obtain ⟨newFile, newHolds, readable⟩ := readable_rewritten (bytes.trans written) newChecked
      constructor
      · rintro spares ⟨damage, _⟩
        obtain ⟨other, member, _, same⟩ := spares.untouched (inFile.symm ▸ damage)
        rw [List.mem_singleton.mp member] at same
        rw [same, inFile] at newFile
        obtain ⟨batch, inside, damaged⟩ := damage
        simp [newHolds batch (newFile ▸ inside)] at damaged
      · intro harmless
        obtain ⟨holds, whole⟩ := undamaged dropped harmless
        rw [whole] at records
        exact
          { readable := by
              intro batch member _ record inside kept
              refine ⟨_, List.mem_singleton_self _, base, ?_⟩
              rw [readable, records]
              rw [inFile] at member
              exact List.mem_filter.mpr ⟨List.mem_flatMap.mpr ⟨batch, member, inside⟩, kept⟩
            untouched := by
              rintro ⟨batch, member, damaged⟩
              rw [inFile] at member
              simp [holds batch member] at damaged }
  | @removed cleaned drops rewrote emptied =>
      simp only [wouldDropAnything, rotted.scanned, except_ok_bind] at drops
      have dropped := drops_something checked drops
      obtain ⟨_, _, _, _, count⟩ := rewrite_rotted rotted rewrote
      constructor
      · rintro spares ⟨damage, _⟩
        obtain ⟨other, member, _⟩ := spares.untouched (inFile.symm ▸ damage)
        cases member
      · intro harmless
        obtain ⟨holds, whole⟩ := undamaged dropped harmless
        have none : cleaned.recordsKept = 0 := by simpa [CleanedSegment.empty] using emptied
        rw [whole, none] at count
        have nothing := List.length_eq_zero_iff.mp count.symm
        exact
          { readable := by
              intro batch member _ record inside kept
              rw [inFile] at member
              have there : record ∈ (batches.flatMap recordsOf).filter rules.keeps :=
                List.mem_filter.mpr ⟨List.mem_flatMap.mpr ⟨batch, member, inside⟩, kept⟩
              simp [nothing] at there
            untouched := by
              rintro ⟨batch, member, damaged⟩
              rw [inFile] at member
              simp [holds batch member] at damaged }

end OneSegment

section Pass

variable {dir : String} {roll : RollPolicy} {rules : RetainRules} {mappedThrough : Int}

/-- The segments a pass gets past: those below the end of what was mapped, up
to the first that makes it fail. -/
def reached (dir : String) (roll : RollPolicy) (rules : RetainRules) (mappedThrough : Int)
    (segments : List SealedSegment) : List SealedSegment :=
  segments.takeWhile fun segment =>
    decide (segment.baseOffset < mappedThrough) && segment.getsPast dir roll rules

/-- What the loop over the segments makes of them. -/
inductive Swept (dir : String) (roll : RollPolicy) (rules : RetainRules) (mappedThrough : Int) :
    List SealedSegment → List SealedSegment → Prop where
  | ends {pending : List SealedSegment}
      (stops : ∀ segment ∈ pending.head?,
        mappedThrough ≤ segment.baseOffset ∨ segment.getsPast dir roll rules = false) :
      Swept dir roll rules mappedThrough pending pending
  | turn {segment : SealedSegment} {left behind after : List SealedSegment}
      (below : segment.baseOffset < mappedThrough) (past : segment.getsPast dir roll rules = true)
      (turned : Turned dir roll rules segment left) (rest : Swept dir roll rules mappedThrough behind after) :
      Swept dir roll rules mappedThrough (segment :: behind) (left ++ after)

theorem clean_segments_sweep (nowMs : Int) {swap : Log} {done pending : List SealedSegment}
    (result : CleanResult) (split : swap.sealedMap = done ++ pending)
    (ordered : pending.Pairwise (·.baseOffset < ·.baseOffset))
    (ahead : ∀ segment ∈ pending, ∀ other ∈ done, other.baseOffset < segment.baseOffset) :
    ∃ after, (cleanSegments rules mappedThrough nowMs swap result (pending.map (·.info))).log.sealedMap =
        done ++ after ∧
      Swept swap.dir swap.config.roll rules mappedThrough pending after := by
  induction pending generalizing swap done result with
  | nil => exact ⟨[], split, .ends (by simp)⟩
  | cons segment behind ih =>
      obtain ⟨above, later⟩ := List.pairwise_cons.mp ordered
      by_cases beyond : mappedThrough ≤ segment.baseOffset
      · have stops : mappedThrough ≤ segment.info.baseOffset := beyond
        simp only [List.map_cons, cleanSegments, stops, if_true]
        exact ⟨segment :: behind, split, .ends (by simp [beyond])⟩
      · have goes : ¬ mappedThrough ≤ segment.info.baseOffset := beyond
        simp only [List.map_cons, cleanSegments, goes, if_false]
        have front : ∀ other ∈ done, other.baseOffset ≠ segment.baseOffset :=
          fun other member => (ahead segment (by simp) other member).ne
        have back : ∀ other ∈ behind, other.baseOffset ≠ segment.baseOffset :=
          fun other member => (above other member).ne'
        rcases @clean_segment_turn rules _ _ _ _ split front back nowMs result with
          ⟨stuck, failure, nextFd, failed⟩ |
          ⟨past, left, counted, graveyard, nextFd, turned, _, made⟩
        · rw [failed]
          exact ⟨segment :: behind, split, .ends (by simp [stuck])⟩
        · rw [made]
          have inFront : ∀ other ∈ behind, ∀ earlier ∈ done ++ left,
              earlier.baseOffset < other.baseOffset := by
            intro other member earlier inside
            rcases List.mem_append.mp inside with isDone | isLeft
            · exact ahead other (by simp [member]) earlier isDone
            · rw [turned.bases earlier isLeft]
              exact above other member
          obtain ⟨after, final, swept⟩ := @ih
            { swap with sealedMap := done ++ left ++ behind, graveyard := graveyard, nextFd := nextFd }
            (done ++ left) counted rfl later inFront
          refine ⟨left ++ after, ?_, .turn (by omega) past turned swept⟩
          rw [final, List.append_assoc]

theorem Swept.bases {pending after : List SealedSegment}
    (swept : Swept dir roll rules mappedThrough pending after) :
    ∀ other ∈ after, ∃ segment ∈ pending, other.baseOffset = segment.baseOffset := by
  induction swept with
  | ends => exact fun other member => ⟨other, member, rfl⟩
  | turn _ _ turned _ ih =>
      intro other member
      rcases List.mem_append.mp member with isLeft | isLater
      · exact ⟨_, List.mem_cons_self, turned.bases other isLeft⟩
      · obtain ⟨segment, inside, same⟩ := ih other isLater
        exact ⟨segment, List.mem_cons_of_mem _ inside, same⟩

theorem spares_congr {segment : SealedSegment} {first second : List SealedSegment}
    (same : ∀ other, other.baseOffset = segment.baseOffset → (other ∈ first ↔ other ∈ second)) :
    SparesSound rules segment first ↔ SparesSound rules segment second := by
  have moves : ∀ {first second : List SealedSegment},
      (∀ other, other.baseOffset = segment.baseOffset → (other ∈ first ↔ other ∈ second)) →
      SparesSound rules segment first → SparesSound rules segment second := by
    intro first second same spares
    constructor
    · intro batch member holds record inside kept
      obtain ⟨left, there, base, readable⟩ := spares.readable batch member holds record inside kept
      exact ⟨left, (same left base).mp there, base, readable⟩
    · intro damage
      obtain ⟨left, there, base, bytes⟩ := spares.untouched damage
      exact ⟨left, (same left base).mp there, base, bytes⟩
  exact ⟨moves same, moves fun other base => (same other base).symm⟩

theorem spares_itself {segment : SealedSegment} {after : List SealedSegment} (member : segment ∈ after) :
    SparesSound rules segment after where
  readable := by
    intro batch inside holds record isRecord _
    refine ⟨segment, member, rfl, ?_⟩
    exact List.mem_flatMap.mpr ⟨batch, List.mem_filter.mpr ⟨inside, holds⟩, isRecord⟩
  untouched := fun _ => ⟨segment, member, rfl, rfl⟩

/-- The loop costs no segment anything exactly when it drops nothing ahead of
damage in those it gets past. -/
theorem swept_spares_iff {pending after : List SealedSegment}
    (swept : Swept dir roll rules mappedThrough pending after)
    (ordered : pending.Pairwise (·.baseOffset < ·.baseOffset))
    (rotted : ∀ segment ∈ pending, ∃ batches, Rotted segment.log.bytes batches) :
    (∀ segment ∈ pending, SparesSound rules segment after) ↔
      ∀ segment ∈ reached dir roll rules mappedThrough pending,
        ¬ DropsAheadOfDamage rules segment.log.bytes := by
  induction swept with
  | @ends pending stops =>
      have none : reached dir roll rules mappedThrough pending = [] := by
        cases pending with
        | nil => rfl
        | cons segment behind =>
            rcases stops segment rfl with beyond | stuck
            · simp [reached, Int.not_lt.mpr beyond]
            · simp [reached, stuck]
      simp only [none, List.not_mem_nil, false_implies, implies_true, iff_true]
      exact fun segment member => spares_itself member
  | @turn segment left behind after below past turned rest ih =>
      obtain ⟨above, later⟩ := List.pairwise_cons.mp ordered
      obtain ⟨⟨batches, rot⟩, rotBehind⟩ := List.forall_mem_cons.mp rotted
      have goesOn : reached dir roll rules mappedThrough (segment :: behind) =
          segment :: reached dir roll rules mappedThrough behind := by
        simp [reached, below, past]
      have here : SparesSound rules segment (left ++ after) ↔ SparesSound rules segment left := by
        apply spares_congr
        intro other base
        have elsewhere : other ∉ after := by
          intro member
          obtain ⟨later, inside, same⟩ := rest.bases other member
          have := above later inside
          omega
        simp [elsewhere]
      have there : ∀ later ∈ behind,
          (SparesSound rules later (left ++ after) ↔ SparesSound rules later after) := by
        intro later member
        apply spares_congr
        intro other base
        have elsewhere : other ∉ left := by
          intro inside
          have same := turned.bases other inside
          have := above later member
          omega
        simp [elsewhere]
      rw [goesOn, List.forall_mem_cons, List.forall_mem_cons, here, turned_spares_iff rot turned,
        ← ih later rotBehind]
      exact and_congr_right fun _ => forall₂_congr there

end Pass

/-- The rules of a pass. One that cannot map the keys has none and drops
nothing, whatever the rules. -/
def Log.PassRules (log : Log) (maxKeyMapEntries : Nat) (firstDirtyOffset nowMs : Int)
    (rules : RetainRules) : Prop :=
  ∀ dirty, log.mapKeys maxKeyMapEntries firstDirtyOffset = .ok dirty →
    rules = log.rulesOf dirty.map nowMs

/-- A pass over files in which checksums fail costs every batch whose checksum
holds nothing but what the rules drop, and leaves the files with damage alone,
exactly when no file it gets past has something to drop ahead of its damage. -/
theorem damage_costs_nothing_iff (log : Log) (maxKeyMapEntries : Nat) (firstDirtyOffset nowMs : Int)
    (ordered : log.sealedMap.Pairwise (·.baseOffset < ·.baseOffset))
    (rotted : ∀ segment ∈ log.sealedMap, ∃ batches, Rotted segment.log.bytes batches) :
    (∀ rules, log.PassRules maxKeyMapEntries firstDirtyOffset nowMs rules →
        ∀ segment ∈ log.sealedMap, SparesSound rules segment
          (cleanLog log maxKeyMapEntries firstDirtyOffset nowMs).log.sealedMap) ↔
      ∀ dirty, log.mapKeys maxKeyMapEntries firstDirtyOffset = .ok dirty → dirty.map.entries ≠ [] →
        ∀ segment ∈ reached log.dir log.config.roll (log.rulesOf dirty.map nowMs) dirty.mappedThrough
            log.sealedMap,
          ¬ DropsAheadOfDamage (log.rulesOf dirty.map nowMs) segment.log.bytes := by
  rcases clean_log_cases log maxKeyMapEntries firstDirtyOffset nowMs with ⟨failure, unmapped, idle⟩ |
    ⟨dirty, result, mapped, _, ⟨none, idle⟩ | ⟨keys, ran⟩⟩
  · rw [idle]
    constructor
    · intro _ dirty mapped
      rw [unmapped] at mapped
      cases mapped
    · intro _ rules _ segment member
      exact spares_itself member
  · rw [idle]
    constructor
    · intro _ other otherMapped keys
      rw [mapped] at otherMapped
      cases otherMapped
      exact absurd none keys
    · intro _ rules _ segment member
      exact spares_itself member
  · obtain ⟨after, final, swept⟩ := @clean_segments_sweep (log.rulesOf dirty.map nowMs)
      dirty.mappedThrough nowMs log [] _ result rfl ordered (by simp)
    have swept_iff := swept_spares_iff swept ordered rotted
    rw [ran, final, List.nil_append]
    constructor
    · intro spares other otherMapped _
      rw [mapped] at otherMapped
      cases otherMapped
      refine swept_iff.mp (spares _ ?_)
      intro again same
      rw [mapped] at same
      cases same
      rfl
    · intro harmless rules isRules
      rw [isRules dirty mapped]
      exact swept_iff.mpr (harmless dirty mapped keys)

def flippedAt (contents : Bytes) (position : Nat) : Bytes := contents.modify position (· ^^^ 0xFF)

def Log.rotOldest (log : Log) (position : Nat) : Log :=
  { log with
    sealedMap := log.sealedMap.modifyHead fun oldest =>
      { oldest with
        log :=
          { oldest.log with
            bytes := flippedAt oldest.log.bytes position
            within := by simpa [flippedAt] using oldest.log.within } } }

def threeBatchConfig : LogConfig where
  roll := { maxSegmentBytes := 200 }
  cleanup := .compact

def keyedRecords (keys : List UInt8) : List LogAction :=
  keys.map fun key => .append (recordBatchOf 10 (some [key]) (some [118])) 0 0 none

instance (contents : Bytes) (batches : List Bytes) : Decidable (Rotted contents batches) :=
  decidable_of_iff (contents = batches.flatten ∧
      (∀ batch ∈ batches, totalSizeOf batch = .ok batch.length) ∧
      ∀ batch ∈ batches, crcHolds batch = true → OrderedBatch batch)
    ⟨fun ⟨laid, complete, sound⟩ => ⟨laid, complete, sound⟩,
      fun rotted => ⟨rotted.laid, rotted.complete, rotted.sound⟩⟩

instance (rules : RetainRules) (contents : Bytes) : Decidable (DropsAheadOfDamage rules contents) :=
  inferInstanceAs (Decidable (_ ∧ _))

/-- Damage with nothing to drop ahead of it costs nothing, while a segment
without damage is rewritten. -/
theorem damage_costs_nothing_iff_clean_front :
    ∃ (log : Log) (dirty : DirtyMap), log.mapKeys 10 0 = .ok dirty ∧
      (∃ segment ∈ log.sealedMap, ∃ batch ∈ batchesOf segment.log.bytes, crcHolds batch = false) ∧
      (∀ segment ∈ log.sealedMap, SparesSound (log.rulesOf dirty.map 0) segment
        (cleanLog log 10 0 0).log.sealedMap) ∧
      ∃ segment ∈ log.sealedMap, ∀ left ∈ (cleanLog log 10 0 0).log.sealedMap,
        left.log.bytes ≠ segment.log.bytes := by
  obtain ⟨created, log, made, reached, checked⟩ := found_from_creation Log.step (fun _ _ => True) id
    ⟨[116], 0⟩ "data/t-0" threeBatchConfig
    (fun log => decide (∃ dirty ∈ ((log.rotOldest 69).mapKeys 10 0).toOption,
      (log.rotOldest 69).sealedMap.Pairwise (fun earlier later : SealedSegment =>
          earlier.baseOffset < later.baseOffset) ∧
        (∀ segment ∈ (log.rotOldest 69).sealedMap,
          Rotted segment.log.bytes (batchesOf segment.log.bytes)) ∧
        (∃ segment ∈ (log.rotOldest 69).sealedMap, ∃ batch ∈ batchesOf segment.log.bytes,
          crcHolds batch = false) ∧
        (∀ segment ∈ (log.rotOldest 69).sealedMap,
          ¬ DropsAheadOfDamage ((log.rotOldest 69).rulesOf dirty.map 0) segment.log.bytes) ∧
        ∃ segment ∈ (log.rotOldest 69).sealedMap,
          ∀ left ∈ (cleanLog (log.rotOldest 69) 10 0 0).log.sealedMap,
            left.log.bytes ≠ segment.log.bytes))
    (keyedRecords [97, 98, 99, 97, 100, 97, 102]) (by decide +kernel)
  obtain ⟨dirty, isDirty, ordered, rotted, damaged, harmless, rewritten⟩ := decide_eq_true_eq.mp checked
  have mapped := ok_of_to_option isDirty
  refine ⟨log.rotOldest 69, dirty, mapped, damaged, ?_, rewritten⟩
  have spares := (damage_costs_nothing_iff (log.rotOldest 69) 10 0 0 ordered
    fun segment member => ⟨_, rotted segment member⟩).mpr
  apply spares
  · intro other same _ segment member
    rw [mapped] at same
    cases same
    exact harmless segment ((List.takeWhile_sublist _).subset member)
  · intro other same
    rw [mapped] at same
    cases same
    rfl

/-- A superseded record, a damaged one and the only record of a key: the pass
removes the whole segment. -/
theorem damage_costs_sound_records :
    ¬ ∀ (log : Log) (maxKeyMapEntries : Nat) (firstDirtyOffset nowMs : Int) (rules : RetainRules),
      log.config.compacted = true → log.sealedMap.Pairwise (·.baseOffset < ·.baseOffset) →
      (∀ segment ∈ log.sealedMap, ∃ batches, Rotted segment.log.bytes batches) →
      log.PassRules maxKeyMapEntries firstDirtyOffset nowMs rules →
      ∀ segment ∈ log.sealedMap, ∀ batch ∈ batchesOf segment.log.bytes, crcHolds batch = true →
        ∀ record ∈ recordsOf batch, rules.keeps record = true →
          ∃ left ∈ (cleanLog log maxKeyMapEntries firstDirtyOffset nowMs).log.sealedMap,
            left.baseOffset = segment.baseOffset ∧ record ∈ readableRecords left.log.bytes := by
  intro all
  obtain ⟨created, log, made, reached, checked⟩ := found_from_creation Log.step (fun _ _ => True) id
    ⟨[116], 0⟩ "data/t-0" threeBatchConfig
    (fun log => decide (∃ dirty ∈ ((log.rotOldest 139).mapKeys 10 0).toOption,
      (log.rotOldest 139).config.compacted = true ∧
        (log.rotOldest 139).sealedMap.Pairwise (fun earlier later : SealedSegment =>
          earlier.baseOffset < later.baseOffset) ∧
        (∀ segment ∈ (log.rotOldest 139).sealedMap,
          Rotted segment.log.bytes (batchesOf segment.log.bytes)) ∧
        ∃ segment ∈ (log.rotOldest 139).sealedMap, ∃ batch ∈ batchesOf segment.log.bytes,
          crcHolds batch = true ∧ ∃ record ∈ recordsOf batch,
            ((log.rotOldest 139).rulesOf dirty.map 0).keeps record = true ∧
            ∀ left ∈ (cleanLog (log.rotOldest 139) 10 0 0).log.sealedMap,
              left.baseOffset = segment.baseOffset → record ∉ readableRecords left.log.bytes))
    (keyedRecords [97, 98, 99, 97, 100, 101, 102]) (by decide +kernel)
  obtain ⟨dirty, isDirty, compacts, ordered, rotted, segment, member, batch, inFile, holds, record,
    inBatch, keeps, lost⟩ := decide_eq_true_eq.mp checked
  have mapped := ok_of_to_option isDirty
  obtain ⟨left, there, base, readable⟩ := all (log.rotOldest 139) 10 0 0
    ((log.rotOldest 139).rulesOf dirty.map 0) compacts ordered
    (fun segment member => ⟨_, rotted segment member⟩)
    (fun other same => by
      rw [mapped] at same
      cases same
      rfl)
    segment member batch inFile holds record inBatch keeps
  exact lost left there base readable

end DariyaKyu.Storage

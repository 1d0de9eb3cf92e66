import DariyaKyu.Storage.CompactedReads
import DariyaKyu.Storage.PassCompletes
import DariyaKyu.Storage.Recovery

/-!
When an append finds room. An index entry has 32 bits for the position and 32
for the offset behind the segment's base, and an append that comes upon a due
entry with more than that throws. The roll check looks at bytes, at the index
and at the age, and not at offsets: batches that span many of them take a
segment past the second limit while it is small.
-/

namespace DariyaKyu.Storage

set_option autoImplicit false

/-- The index entry for the next batch, if it is due, has 32 bits for its fields. -/
def ActiveSegment.EntryFits (segment : ActiveSegment) : Prop :=
  segment.policy.indexIntervalBytes ≤ segment.bytesSinceIndexEntry →
    segment.sizeBytes ≤ kMaxUint32 ∧ segment.nextOffset - segment.baseOffset ≤ kMaxUint32

/-- The log end is an `int64_t`, and the entry fits unless the append rolls first. -/
def Log.HasRoom (log : Log) (rollMs : Int) : Prop :=
  FitsSigned 64 log.logEndOffset ∧ (log.active.shouldRoll rollMs = false → log.active.EntryFits)

instance (segment : ActiveSegment) : Decidable segment.EntryFits :=
  inferInstanceAs (Decidable (_ → _ ∧ _))

instance (log : Log) (rollMs : Int) : Decidable (log.HasRoom rollMs) :=
  inferInstanceAs (Decidable (_ ∧ (_ → _)))

section Room

theorem index_all_writable {policy : RollPolicy} {state built : IndexState} {position : Nat}
    {batches : List Bytes} (writable : state.index.writable = true)
    (all : indexAll policy state position batches = .ok built) : built.index.writable = true := by
  induction batches generalizing state position with
  | nil =>
      cases all
      exact writable
  | cons batch batches ih =>
      obtain ⟨stepped, step, later⟩ := except_bind_ok all
      refine ih ?_ later
      unfold indexStep at step
      split at step
      · cases step
        exact writable
      split at step
      · cases step
        exact writable
      split at step
      · cases step
      obtain ⟨index, appended, made⟩ := except_bind_ok step
      cases Except.ok.inj made
      exact append_writable writable appended

variable {dir : String} {segment : ActiveSegment} {batches : List Bytes}

theorem named_below_next (settled : ActiveSettled dir segment batches) {entry : Entry}
    (names : NamesBatch segment.baseOffset batches entry) :
    entry.Below ⟨(segment.nextOffset - segment.baseOffset).toNat, segment.log.size⟩ := by
  have position := names_batch_below settled.intact names
  have ascending := settled.consecutive.ascending
  obtain ⟨before, batch, after, split, _, base⟩ := names
  have member : batch ∈ batches := by simp [split]
  have spans := start_le_base ascending member
  have below := last_lt_end ascending member
  rw [← settled.ends] at below
  rw [← settled.tight] at position
  exact ⟨by simp only; omega, position⟩

theorem entry_taken_iff (settled : ActiveSettled dir segment batches) :
    (∃ indexed, segment.maybeAddIndexEntry segment.nextOffset segment.log.size = .ok indexed) ↔
      segment.EntryFits := by
  have size : segment.sizeBytes = segment.log.size := rfl
  unfold ActiveSegment.maybeAddIndexEntry ActiveSegment.EntryFits
  by_cases early : segment.bytesSinceIndexEntry < segment.policy.indexIntervalBytes
  · simp [early, Nat.not_le.mpr early]
  rw [if_neg early, size]
  by_cases empty : segment.log.size = 0
  · have none : batches = [] := by
      by_contra occupied
      obtain ⟨batch, rest, split⟩ := List.exists_cons_of_ne_nil occupied
      have positive := (settled.intact batch (by simp [split])).positive
      have tight := settled.tight
      rw [split, List.flatten_cons, List.length_append] at tight
      omega
    have ends := settled.ends
    rw [none] at ends
    have same : segment.nextOffset - segment.baseOffset = 0 := by
      rw [ends]
      exact Int.sub_self _
    simp [empty, same]
  rw [if_neg empty]
  by_cases far : kMaxUint32 < segment.log.size
  · rw [if_pos far]
    simp only [reduceCtorEq, exists_false, false_iff, Classical.not_imp, not_and]
    exact ⟨Nat.le_of_not_lt early, fun near => absurd near (Nat.not_le.mpr far)⟩
  rw [if_neg far]
  obtain ⟨fresh, created, all⟩ := settled.plain
  have based := built_index_names settled.plain (settled.consecutive.ascending)
  have writable := index_all_writable (create_writable created) all
  have taken : (∃ index, segment.index.append segment.nextOffset segment.log.size = .ok index) ↔ _ :=
    append_iff segment.index writable (Nat.pos_of_ne_zero empty)
  have same : segment.index.baseOffset = segment.baseOffset := based.1
  have rises := start_le_end (settled.consecutive.ascending)
  rw [← settled.ends] at rises
  rw [same] at taken
  constructor
  · rintro ⟨indexed, added⟩ _
    obtain ⟨index, appended, _⟩ := except_bind_ok added
    exact ⟨Nat.le_of_not_lt far, (taken.mp ⟨index, appended⟩).2.1⟩
  · intro fits
    obtain ⟨index, appended⟩ := taken.mpr ⟨rises, (fits (Nat.le_of_not_lt early)).2,
      fun entry member => named_below_next settled (based.2 entry member)⟩
    exact ⟨_, by rw [appended]; rfl⟩

theorem segment_takes_iff (settled : ActiveSettled dir segment batches) {batch : Bytes}
    (parsed : parseHeader batch = .ok (headerOf batch)) (starts : baseOf batch = segment.nextOffset) (clockMs : Int) :
    (segment.append segment.nextOffset batch clockMs none).2 = .ok () ↔ segment.EntryFits := by
  have begins : (headerOf batch).baseOffset = segment.nextOffset := starts
  rw [← entry_taken_iff settled]
  simp only [ActiveSegment.append, parsed, begins, ne_eq, not_true_eq_false, if_false]
  cases added : segment.maybeAddIndexEntry segment.nextOffset segment.log.size with
  | error failure => simp
  | ok indexed => simp [FileHandle.append]

/-- An append of a batch that is in order returns the log end exactly when it
finds room, and throws where it does not. -/
theorem append_returns_iff {log : Log} (settled : LogSettled log) {batchBytes : Bytes}
    (intact : IntactBatch batchBytes) (rollMs clockMs : Int) :
    (∃ next, log.append batchBytes rollMs clockMs none = .returned log.logEndOffset next) ↔ log.HasRoom rollMs := by
  obtain ⟨undangling, quiet⟩ := settled_clear settled rollMs
  obtain ⟨rolled, moved, _, _, _, ends, settles⟩ := maybe_roll_spec settled.toLogHolds undangling quiet
  have rolledSettled := settles settled
  have next : rolled.active.nextOffset = log.logEndOffset := by rw [← rolledSettled.ends, ends]
  have fits : rolled.active.EntryFits ↔ (log.active.shouldRoll rollMs = false → log.active.EntryFits) := by
    rcases maybe_roll_cases settled.toLogHolds undangling quiet with
      ⟨stays, same⟩ | ⟨rolls, segment, active, fresh, made⟩
    · cases moved.symm.trans same
      simp [stays]
    · cases moved.symm.trans made
      have size : active.log.size = 0 := fresh.fresh.tight
      have ends : active.nextOffset = active.baseOffset := fresh.fresh.ends
      simp [rolls, ActiveSegment.EntryFits, SegmentBase.sizeBytes, size, ends]
  have stamps := stamp_base_offset_eq batchBytes log.logEndOffset intact.long
  have stampedIntact := intact.stamped log.logEndOffset
  by_cases range : FitsSigned 64 log.logEndOffset
  · have starts : baseOf (stamped batchBytes log.logEndOffset) = rolled.active.nextOffset := by
      rw [baseOf, header_of_stamped_in_range _ _ range, next]
    have takes := segment_takes_iff rolledSettled.settled stampedIntact.parsed starts clockMs
    rw [next] at takes
    rw [Log.HasRoom, ← fits, ← takes]
    simp only [Log.append, moved, ends, stamps, range, true_and]
    cases appended : rolled.active.append log.logEndOffset (stamped batchBytes log.logEndOffset) clockMs none with
    | mk active result => cases result <;> simp
  · simp only [Log.HasRoom, range, false_and, iff_false]
    rintro ⟨after, returned⟩
    rcases settled_append settled intact rollMs clockMs with ⟨_, _, _, fits, _⟩ | ⟨_, _, threw, _⟩
    · exact range fits
    · rw [returned] at threw
      cases threw

end Room

end DariyaKyu.Storage

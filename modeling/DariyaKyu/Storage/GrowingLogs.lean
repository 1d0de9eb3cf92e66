import DariyaKyu.Storage.WholeLogs

/-!
A log that deletes as time passes: batches come behind, batches go in front, and
the offsets of those that are there never change. So a batch that was appended is
either still there, whole and in its place, or wholly in front of the log start.
-/

namespace DariyaKyu.Storage

set_option autoImplicit false

/-- What the log becomes: some batches behind, and some gone in front. -/
def Log.Grows (log next : Log) : Prop :=
  ∃ gone new, log.batches ++ new = gone ++ next.batches ∧ Consecutive log.logEndOffset new ∧
    endOffset log.logEndOffset new = next.logEndOffset

/-- A batch that was appended: it is there or in front of the log start, and the
log goes on behind it. -/
structure Log.Remembers (log : Log) (batch : Bytes) : Prop where
  kept : batch ∈ log.batches ∨ lastOf batch < log.logStartOffset
  behind : lastOf batch < log.logEndOffset

section Growing

variable {log next : Log} {batch : Bytes}

theorem grows_same (batches : next.batches = log.batches) (ends : next.logEndOffset = log.logEndOffset) :
    log.Grows next :=
  ⟨[], [], by simp [batches], trivial, ends.symm⟩

theorem plain_grows (holds : WholeHolds log) {action : LogAction} (plain : action.Plain) :
    ∃ next, Log.step action log = some next ∧ WholeHolds next ∧ log.Grows next := by
  cases action with
  | append batchBytes rollMs clockMs fault =>
      have ⟨intact, faultless⟩ := plain
      subst faultless
      have goes : ∃ after, Log.step (.append batchBytes rollMs clockMs none) log = some after ∧ DeleteHolds after := by
        rcases delete_append holds.toDeleteHolds intact (holds.rollsClean rollMs) clockMs none with
          ⟨_, _, ⟨after, returned, afterHolds, _⟩ | ⟨_, after, threw, afterHolds, _⟩⟩
        · exact ⟨after, by simp only [Log.step, returned, Outcome.log], afterHolds⟩
        · exact ⟨after, by simp only [Log.step, threw, Outcome.log], afterHolds⟩
      rcases goes with ⟨after, moved, afterHolds⟩
      refine ⟨after, moved, whole_step holds afterHolds plain moved, ?_⟩
      rcases append_moves holds.toLogSettled intact rollMs clockMs moved with ⟨batches, ends⟩ | ⟨range, batches, ends⟩
      · exact grows_same batches ends
      · have based : baseOf (stamped batchBytes log.logEndOffset) = log.logEndOffset :=
          (base_of_stamped batchBytes log.logEndOffset).trans (as_signed_as_unsigned 64 (by decide) _ range)
        have spans := (intact.stamped log.logEndOffset).spans
        have forward : baseOf (stamped batchBytes log.logEndOffset) ≤ lastOf (stamped batchBytes log.logEndOffset) := by
          unfold baseOf lastOf BatchHeader.lastOffset
          omega
        exact ⟨[], [stamped batchBytes log.logEndOffset], by rw [batches, List.nil_append], ⟨based, forward, trivial⟩,
          ends.symm⟩
  | maybeRoll nowMs =>
      rcases delete_roll holds.toDeleteHolds (holds.rollsClean nowMs) with
        ⟨rolled, moved, rolledHolds, _, batches, ends⟩
      have stepped : Log.step (.maybeRoll nowMs) log = some rolled := by
        simp only [Log.step, moved, Outcome.log]
      exact ⟨rolled, stepped, whole_step holds rolledHolds plain stepped, grows_same batches ends⟩
  | applyRetention nowMs =>
      have deleted := (delete_retention holds.toDeleteHolds nowMs).1
      rcases retention_takes_front log nowMs with ⟨gone, batches⟩
      rcases retention_buries log nowMs with ⟨count, graveyard, buried⟩
      have ends : (log.applyRetention nowMs).logEndOffset = log.logEndOffset := by rw [buried]
      exact ⟨_, rfl, whole_step holds deleted plain rfl, gone, [], by simp [batches], trivial, ends.symm⟩
  | sweepGraveyard nowMs =>
      exact ⟨_, rfl, whole_step holds ⟨sweep_holds holds.toLogHolds nowMs, holds.deletes, holds.joined⟩ plain rfl,
        grows_same rfl rfl⟩
  | clean => exact plain.elim
  | reopen fallback clockMs =>
      rcases delete_reopen holds.toDeleteHolds holds.endsClean fallback clockMs with
        ⟨reopened, opened, reopenedHolds, batches, ends⟩
      have stepped : Log.step (.reopen fallback clockMs) log = some reopened := by
        simp only [Log.step, opened]
      exact ⟨reopened, stepped, whole_step holds reopenedHolds plain stepped, grows_same batches ends⟩

theorem grows_start {gone new : List Bytes} (holds : WholeHolds log) (nextHolds : WholeHolds next)
    (split : log.batches ++ new = gone ++ next.batches) (consecutive : Consecutive log.logEndOffset new)
    (ends : endOffset log.logEndOffset new = next.logEndOffset) :
    Consecutive log.logStartOffset (gone ++ next.batches) ∧
      endOffset log.logStartOffset gone = next.logStartOffset := by
  have ⟨before, reaches⟩ := log_consecutive holds.tiled
  have ⟨after, nextReaches⟩ := log_consecutive nextHolds.tiled
  have whole : Consecutive log.logStartOffset (gone ++ next.batches) := by
    rw [← split, consecutive_append, reaches]
    exact ⟨before, consecutive⟩
  refine ⟨whole, ?_⟩
  cases rest : next.batches with
  | nil =>
      have total := congrArg (endOffset log.logStartOffset) split
      rw [rest, end_offset_append, reaches, ends, List.append_nil] at total
      rw [rest] at nextReaches
      exact total.symm.trans nextReaches.symm
  | cons first later =>
      rw [rest, consecutive_append] at whole
      rw [rest] at after
      exact whole.2.1.symm.trans after.1

theorem grows_keeps (holds : WholeHolds log) (nextHolds : WholeHolds next) (grows : log.Grows next) :
    log.logStartOffset ≤ next.logStartOffset ∧ log.logEndOffset ≤ next.logEndOffset ∧
      ∀ batch ∈ log.batches, batch ∈ next.batches ∨ lastOf batch < next.logStartOffset := by
  rcases grows with ⟨gone, new, split, consecutive, ends⟩
  have ⟨whole, starts⟩ := grows_start holds nextHolds split consecutive ends
  have front := (consecutive_append.mp whole).1
  have later := start_le_end front.ascending
  have further := start_le_end consecutive.ascending
  refine ⟨starts ▸ later, ends ▸ further, ?_⟩
  intro batch member
  have either : batch ∈ gone ++ next.batches := split ▸ List.mem_append_left new member
  rcases List.mem_append.mp either with left | stays
  · exact .inr (starts ▸ last_lt_end front.ascending left)
  · exact .inl stays

theorem grows_member (grows : log.Grows next) (member : batch ∈ next.batches) :
    batch ∈ log.batches ∨ log.logEndOffset ≤ baseOf batch := by
  rcases grows with ⟨gone, new, split, consecutive, ends⟩
  have either : batch ∈ log.batches ++ new := split ▸ List.mem_append_right gone member
  rcases List.mem_append.mp either with old | fresh
  · exact .inl old
  · exact .inr (start_le_base consecutive.ascending fresh).1

theorem remembers_grows (holds : WholeHolds log) (nextHolds : WholeHolds next) (grows : log.Grows next)
    (remembers : log.Remembers batch) : next.Remembers batch := by
  have ⟨starts, ends, keeps⟩ := grows_keeps holds nextHolds grows
  refine ⟨?_, lt_of_lt_of_le remembers.behind ends⟩
  rcases remembers.kept with there | gone
  · exact keeps batch there
  · exact .inr (lt_of_lt_of_le gone starts)

theorem read_below_start (holds : WholeHolds log) {offset : Int} (below : offset < log.logStartOffset) (maxBytes : Nat) :
    log.read offset maxBytes = .ok ⟨.belowLogStart, {}⟩ := by
  have ⟨consecutive, reaches⟩ := log_consecutive holds.tiled
  have ordered := start_le_end consecutive.ascending
  rw [reaches] at ordered
  have start : log.logStartOffset = nextBase log.active.baseOffset log.sealedMap := rfl
  have inFront : offset < log.active.baseOffset ∧ log.routed offset = none := by
    unfold Log.routed
    cases isSealed : log.sealedMap with
    | nil =>
        rw [isSealed] at start
        have base : log.logStartOffset = log.active.baseOffset := start
        exact ⟨by omega, rfl⟩
    | cons first rest =>
        have under := linked_below holds.linked (isSealed ▸ List.mem_cons_self : first ∈ log.sealedMap)
        rw [isSealed] at start
        have base : log.logStartOffset = first.baseOffset := start
        have above : ¬ first.baseOffset ≤ offset := by omega
        refine ⟨by omega, ?_⟩
        rw [List.takeWhile_cons_of_neg (by simpa using above)]
        rfl
  unfold Log.read
  rw [if_neg (by omega), if_neg (by omega), if_neg (by omega), inFront.2]

theorem same_batch {start offset : Int} {batches : List Bytes} (ascending : Ascending start batches) {other : Bytes}
    (member : batch ∈ batches) (otherMember : other ∈ batches)
    (holds : baseOf batch ≤ offset ∧ offset ≤ lastOf batch) (otherHolds : baseOf other ≤ offset ∧ offset ≤ lastOf other) :
    batch = other := by
  induction batches generalizing start with
  | nil => cases member
  | cons first rest ih =>
      have later := ascending.2.2
      rcases List.mem_cons.mp member with rfl | inside
      · rcases List.mem_cons.mp otherMember with rfl | otherInside
        · rfl
        · have above := (start_le_base later otherInside).1
          omega
      · rcases List.mem_cons.mp otherMember with rfl | otherInside
        · have above := (start_le_base later inside).1
          omega
        · exact ih later inside otherInside

end Growing

end DariyaKyu.Storage

import DariyaKyu.Storage.PassCompletes
import DariyaKyu.Storage.UniqueKeys

/-!
How far a pass moves the mark. It maps whole segments, as many as its budget of
keys lets it, and the mark moves to the end of the last of them. A segment that
alone has more keys than the budget is never mapped, and the mark never gets
past it.
-/

namespace DariyaKyu.Storage

set_option autoImplicit false

open NewestByKey

def Log.dirtySegments (log : Log) (mark : Int) : List SealedSegment :=
  log.sealedMap.filter fun segment => decide (mark < segment.nextOffset)

/-- How many keys the records of a segment have, as the budget counts them. -/
def SealedSegment.keys (segment : SealedSegment) : Nat := keyCount (keyedOf (recordsIn segment))

/-- The oldest segment past the mark has no more keys than the budget. -/
def Log.OldestFits (log : Log) (budget : Nat) (mark : Int) : Prop :=
  ∀ segment ∈ (log.dirtySegments mark).head?, segment.keys ≤ budget

def Log.GetsThrough (log : Log) (budget : Nat) (mark nowMs : Int) : Prop :=
  ∀ dirty, log.mapKeys budget mark = .ok dirty → dirty.map.entries ≠ [] →
    ∀ segment ∈ log.sealedMap, segment.baseOffset < dirty.mappedThrough →
      segment.getsPast log.dir log.config.roll (log.rulesOf dirty.map nowMs) = true

/-- A log in order whose sealed batches are all uncompressed. -/
structure Decodable (log : Log) : Prop extends Cleanable log where
  plain : log.Uncompressed

section Mapping

variable {log : Log} {budget : Nat} {mark : Int} {dirty : DirtyMap}

/-- What the first phase maps, from any mark on: the segments in front of the
first one that the budget refuses. -/
structure Log.MapsFront (log : Log) (budget : Nat) (mark : Int) (dirty : DirtyMap)
    (front rest : List SealedSegment) : Prop where
  split : log.dirtySegments mark = front ++ rest
  onward : mark ≤ dirty.mappedThrough
  through : ∀ last ∈ front.getLast?, dirty.mappedThrough = last.nextOffset
  stays : front = [] → dirty.mappedThrough = mark
  within : ∀ segment ∈ front.head?, segment.keys ≤ budget
  refuses : ∀ segment ∈ rest.head?, front = [] → budget < segment.keys
  nothing : front ++ rest = [] → dirty.map.entries = []

theorem maps_front (cleanable : Cleanable log) (mapped : log.mapKeys budget mark = .ok dirty) :
    ∃ front rest, log.MapsFront budget mark dirty front rest := by
  obtain ⟨front, rest, some_records, chosen, maps⟩ :=
    map_dirty_spec mark (map_holds_empty budget) cleanable.sealedHolds mapped
  have moved : ∀ last ∈ front.getLast?, dirty.mappedThrough = last.nextOffset := by
    intro last isLast
    rw [maps.through, Option.mem_def.mp isLast]
    rfl
  have stays : front = [] → dirty.mappedThrough = mark := by
    intro none
    rw [maps.through, none]
    rfl
  refine ⟨front, rest, chosen, ?_, moved, stays, ?_, ?_, ?_⟩
  · cases last : front.getLast? with
    | none => exact (stays (List.getLast?_eq_none_iff.mp last)).ge
    | some segment =>
        have member : segment ∈ front ++ rest := List.mem_append_left _ (List.mem_of_getLast? last)
        rw [← chosen] at member
        have reaches := (List.mem_filter.mp member).2
        simp only [decide_eq_true_eq] at reaches
        rw [moved segment last]
        exact reaches.le
  · intro segment isFirst
    have inside := maps.holds.within
    rw [maps.holds.summary.size, maps.budget, List.nil_append] at inside
    refine Nat.le_trans (key_count_mono ?_) inside
    intro pair member
    obtain ⟨digest, offset⟩ := pair
    obtain ⟨record, isRecord, key⟩ := mem_keyed_of.mp member
    refine mem_keyed_of.mpr ⟨record, List.mem_append_left _ ?_, key⟩
    exact List.mem_flatMap.mpr ⟨segment, List.mem_of_mem_head? isFirst, isRecord⟩
  · intro segment isFirst none
    simpa [none, SealedSegment.keys] using maps.refuses segment isFirst
  · intro none
    obtain ⟨noFront, noRest⟩ := List.append_eq_nil_iff.mp none
    have empty : some_records = [] := by
      apply List.eq_nil_iff_forall_not_mem.mpr
      intro record member
      obtain ⟨segment, inside, _⟩ := maps.inside record member
      simp [noRest] at inside
    apply List.eq_nil_iff_forall_not_mem.mpr
    intro entry member
    have attained := maps.holds.summary.attained entry member
    simp [noFront, empty, keyedOf] at attained

theorem Log.MapsFront.moves_iff {front rest : List SealedSegment}
    (maps : log.MapsFront budget mark dirty front rest) (some_dirty : log.dirtySegments mark ≠ []) :
    (mark < dirty.mappedThrough ↔ front ≠ []) ∧ (front ≠ [] ↔ log.OldestFits budget mark) := by
  constructor
  · constructor
    · intro moved none
      rw [maps.stays none] at moved
      omega
    · intro occupied
      obtain ⟨last, isLast⟩ := Option.ne_none_iff_exists'.mp (mt List.getLast?_eq_none_iff.mp occupied)
      have member : last ∈ log.dirtySegments mark := by
        rw [maps.split]
        exact List.mem_append_left _ (List.mem_of_getLast? isLast)
      have reaches := (List.mem_filter.mp member).2
      simp only [decide_eq_true_eq] at reaches
      rw [maps.through last isLast]
      exact reaches
  · unfold Log.OldestFits
    rw [maps.split] at some_dirty ⊢
    constructor
    · intro occupied segment isFirst
      apply maps.within
      cases front with
      | nil => exact absurd rfl occupied
      | cons first front => exact isFirst
    · rintro fits rfl
      rw [List.nil_append] at some_dirty fits
      obtain ⟨first, isFirst⟩ := Option.ne_none_iff_exists'.mp (mt List.head?_eq_none_iff.mp some_dirty)
      have many := maps.refuses first isFirst rfl
      have few := fits first isFirst
      omega

end Mapping

section OnePass

variable {log : Log} {budget : Nat} {mark : Int}

theorem linked_bases {newest : Int} {segments : List SealedSegment}
    (linked : Linked (· ≤ ·) newest segments) : segments.Pairwise (·.baseOffset < ·.baseOffset) := by
  induction segments with
  | nil => exact List.Pairwise.nil
  | cons segment segments ih =>
      refine List.pairwise_cons.mpr ⟨?_, ih linked.2.2⟩
      intro other member
      obtain ⟨ahead, behind, rfl⟩ := List.append_of_mem member
      have before := @linked_before newest (segment :: ahead) behind other segment linked List.mem_cons_self
      omega

/-- A pass returns exactly when the first phase does and the second gets past
every segment; what it returns is the end of what was mapped. -/
theorem pass_returns_iff (decodable : Decodable log) (budget : Nat) (mark nowMs : Int) :
    ∃ dirty, log.mapKeys budget mark = .ok dirty ∧
      ((∃ result, (cleanLog log budget mark nowMs).outcome = .ok result) ↔
        log.GetsThrough budget mark nowMs) ∧
      ∀ result, (cleanLog log budget mark nowMs).outcome = .ok result →
        result.nextDirtyOffset = dirty.mappedThrough := by
  obtain ⟨dirty, mapped⟩ := map_keys_returns decodable.toCleanable decodable.plain budget mark
  refine ⟨dirty, mapped, ?_⟩
  have onlyMap : ∀ other, log.mapKeys budget mark = .ok other → other = dirty := by
    intro other isOther
    rw [mapped] at isOther
    exact (Except.ok.inj isOther).symm
  rcases clean_log_cases log budget mark nowMs with ⟨failure, unmapped, _⟩ |
    ⟨other, result, isOther, ends, ⟨noKeys, idle⟩ | ⟨keys, ran⟩⟩
  · rw [mapped] at unmapped
    cases unmapped
  · cases onlyMap other isOther
    rw [idle]
    refine ⟨⟨?_, fun _ => ⟨result, rfl⟩⟩, ?_⟩
    · intro _ again isAgain some_keys
      cases onlyMap again isAgain
      exact absurd noKeys some_keys
    · intro finished returned
      cases returned
      exact ends
  · cases onlyMap other isOther
    have returns := @clean_segments_returns (log.rulesOf dirty.map nowMs) dirty.mappedThrough nowMs log []
      log.sealedMap result rfl (linked_bases decodable.linked) (by simp)
    obtain ⟨_, _, _, _, _, _, finishes⟩ := @clean_segments_spec log log decodable.toCleanable
      (log.rulesOf dirty.map nowMs) dirty.mappedThrough nowMs [] log.sealedMap result (.start _ log)
    rw [ran]
    refine ⟨⟨?_, ?_⟩, ?_⟩
    · rintro ⟨finished, returned⟩ again isAgain _
      cases onlyMap again isAgain
      exact returns.mp ⟨finished, returned, (finishes finished returned).1⟩
    · intro through
      obtain ⟨finished, returned, _⟩ := returns.mpr (through dirty mapped keys)
      exact ⟨finished, returned⟩
    · intro finished returned
      exact (finishes finished returned).1.trans ends

def Log.PassFits (log : Log) (budget : Nat) (mark nowMs : Int) : Prop :=
  log.OldestFits budget mark ∧ log.GetsThrough budget mark nowMs

theorem pass_progress_iff (decodable : Decodable log) (nowMs : Int) (some_dirty : log.dirtySegments mark ≠ []) :
    (∃ result, (cleanLog log budget mark nowMs).outcome = .ok result ∧ mark < result.nextDirtyOffset) ↔
      log.PassFits budget mark nowMs := by
  obtain ⟨dirty, mapped, returns, ends⟩ := pass_returns_iff decodable budget mark nowMs
  obtain ⟨front, rest, maps⟩ := maps_front decodable.toCleanable mapped
  obtain ⟨moves, fits⟩ := maps.moves_iff some_dirty
  constructor
  · rintro ⟨result, returned, moved⟩
    rw [ends result returned] at moved
    exact ⟨fits.mp (moves.mp moved), returns.mp ⟨result, returned⟩⟩
  · rintro ⟨oldest, through⟩
    obtain ⟨result, returned⟩ := returns.mpr through
    refine ⟨result, returned, ?_⟩
    rw [ends result returned]
    exact moves.mpr (fits.mpr oldest)

end OnePass

section Kept

variable {rules : RetainRules}

theorem Rewritten.bound {olds news : List Bytes} (rewritten : Rewritten rules olds news) :
    rewriteBound news ≤ rewriteBound olds := by
  induction rewritten with
  | nil => exact Nat.le_refl _
  | dropped _ _ _ ih =>
      rw [rewrite_bound_cons]
      omega
  | @kept old _ _ _ _ formed _ _ ih =>
      have fewer : (((recordsOf old).filter rules.keeps).map recordBound).sum ≤
          ((recordsOf old).map recordBound).sum :=
        ((List.filter_sublist).map recordBound).sum_le_sum (fun _ _ => Nat.zero_le _)
      rw [rewrite_bound_cons, rewrite_bound_cons, records_of_formed formed]
      omega

/-- What a pass leaves of segments that it can go over can be gone over again. -/
theorem CleanedTo.plain {before after : List SealedSegment} (cleaned : CleanedTo rules before after)
    (plain : ∀ segment ∈ before, ∀ batch ∈ batchesIn segment,
      (headerOf batch).compression = compressionNone) :
    ∀ segment ∈ after, ∀ batch ∈ batchesIn segment, (headerOf batch).compression = compressionNone := by
  induction cleaned with
  | nil => simp
  | unchanged _ _ ih =>
      simp only [List.forall_mem_cons] at plain ⊢
      exact ⟨plain.1, ih plain.2⟩
  | replaced _ _ rewritten _ _ ih =>
      simp only [List.forall_mem_cons] at plain ⊢
      refine ⟨?_, ih plain.2⟩
      intro batch member
      have formed := rewritten.formed batch member
      obtain ⟨raw, decoded⟩ := decodes_of_well_formed formed
      exact plain_of_decoded formed.toIntactBatch decoded
  | removed _ _ ih =>
      simp only [List.forall_mem_cons] at plain
      exact ih plain.2

theorem CleanedTo.indexable {before after : List SealedSegment} (cleaned : CleanedTo rules before after)
    (holds : ∀ segment ∈ before, SealedHolds segment (batchesIn segment))
    (indexable : ∀ segment ∈ before, segment.Indexable) : ∀ segment ∈ after, segment.Indexable := by
  induction cleaned with
  | nil => simp
  | unchanged _ _ ih =>
      simp only [List.forall_mem_cons] at holds indexable ⊢
      exact ⟨indexable.1, ih holds.2 indexable.2⟩
  | replaced replacementHolds base rewritten occupied _ ih =>
      simp only [List.forall_mem_cons] at holds indexable ⊢
      refine ⟨?_, ih holds.2 indexable.2⟩
      have shorter := (replacement_inside holds.1 replacementHolds base rewritten occupied).2
      have span := indexable.1.span
      exact ⟨by omega, rewritten.bound.trans indexable.1.size⟩
  | removed _ _ ih =>
      simp only [List.forall_mem_cons] at holds indexable
      exact ih holds.2 indexable.2

variable {log swap : Log} {front back : List SealedSegment}

theorem PassedOver.decodable (passed : PassedOver rules log swap front back) (decodable : Decodable log) :
    Decodable swap := by
  have cleanable := passed.cleanable decodable.toCleanable
  obtain ⟨split, _, _, _, cleans, rfl⟩ := passed
  have plain := decodable.plain
  unfold Log.Uncompressed at plain
  rw [split] at plain
  simp only [List.forall_mem_append] at plain
  exact ⟨cleanable, List.forall_mem_append.mpr ⟨cleans.plain plain.1, plain.2⟩⟩

theorem PassedOver.indexable (passed : PassedOver rules log swap front back) (cleanable : Cleanable log)
    (indexable : ∀ segment ∈ log.sealedMap, segment.Indexable) :
    ∀ segment ∈ swap.sealedMap, segment.Indexable := by
  have each := cleanable.sealedHolds
  obtain ⟨split, _, _, _, cleans, rfl⟩ := passed
  rw [split] at each indexable
  simp only [List.forall_mem_append] at each indexable
  exact List.forall_mem_append.mpr ⟨cleans.indexable each.1 indexable.1, indexable.2⟩

end Kept

theorem gets_through_indexable {log : Log} (decodable : Decodable log)
    (indexable : ∀ segment ∈ log.sealedMap, segment.Indexable) (budget : Nat) (mark nowMs : Int) :
    log.GetsThrough budget mark nowMs := by
  intro dirty _ _ segment member _
  obtain ⟨_, ⟨fresh, created, _⟩, _⟩ := decodable.activeHolds.built
  rw [decodable.policy] at created
  exact gets_past_indexable (decodable.sealedHolds segment member) decodable.room created
    (decodable.sealedFormed decodable.plain member) (indexable segment member)

section Dirty

variable {log : Log} {budget : Nat} {mark : Int} {dirty : DirtyMap} {front rest : List SealedSegment}

theorem Log.MapsFront.ends_inside (maps : log.MapsFront budget mark dirty front rest)
    (cleanable : Cleanable log) (occupied : front ≠ []) {segment : SealedSegment}
    (member : segment ∈ log.sealedMap) (below : segment.baseOffset < dirty.mappedThrough) :
    segment.nextOffset ≤ dirty.mappedThrough := by
  obtain ⟨last, isLast⟩ := Option.ne_none_iff_exists'.mp (mt List.getLast?_eq_none_iff.mp occupied)
  have chosen : last ∈ log.dirtySegments mark := by
    rw [maps.split]
    exact List.mem_append_left _ (List.mem_of_getLast? isLast)
  have inside : last ∈ log.sealedMap := (List.mem_filter.mp chosen).1
  rw [maps.through last isLast] at below ⊢
  obtain ⟨ahead, behind, split⟩ := List.append_of_mem inside
  have linked := cleanable.linked
  rw [split] at member linked
  rcases List.mem_append.mp member with earlier | later
  · have before := linked_before linked earlier
    have spans := (linked_below linked (List.mem_append_right ahead List.mem_cons_self)).1
    omega
  · rcases List.mem_cons.mp later with rfl | isBehind
    · exact le_refl _
    · obtain ⟨middle, others, isSplit⟩ := List.append_of_mem isBehind
      have shape : ahead ++ last :: behind = (ahead ++ last :: middle) ++ segment :: others := by
        simp [isSplit]
      rw [shape] at linked
      have before := linked_before linked (List.mem_append_right ahead List.mem_cons_self)
      omega

/-- What is dirty behind the new mark was so before the pass, and is as it was. -/
theorem pass_leaves_dirty (cleanable : Cleanable log) (mapped : log.mapKeys budget mark = .ok dirty)
    (maps : log.MapsFront budget mark dirty front rest) (occupied : front ≠ []) (nowMs : Int) :
    (cleanLog log budget mark nowMs).log.dirtySegments dirty.mappedThrough =
      log.dirtySegments dirty.mappedThrough := by
  rcases clean_log_cases log budget mark nowMs with ⟨failure, _, idle⟩ |
    ⟨other, started, isOther, _, ⟨_, idle⟩ | ⟨_, ran⟩⟩
  · rw [idle]
  · rw [idle]
  · rw [mapped] at isOther
    cases isOther
    obtain ⟨done, pending, split, below, passed, _⟩ := @clean_segments_spec log log cleanable
      (log.rulesOf dirty.map nowMs) dirty.mappedThrough nowMs [] log.sealedMap started (.start _ log)
    rw [ran]
    have each := cleanable.sealedHolds
    obtain ⟨isSplit, cleaned, _, _, cleans, isLog⟩ := passed
    rw [isSplit] at each
    have within := cleans.within fun segment member => each segment (List.mem_append_left _ member)
    have noneDone : done.filter (fun segment => decide (dirty.mappedThrough < segment.nextOffset)) = [] := by
      apply List.filter_eq_nil_iff.mpr
      intro segment member
      have inside : segment ∈ log.sealedMap := split ▸ List.mem_append_left _ member
      have ends := maps.ends_inside cleanable occupied inside (below segment member)
      simpa using ends
    have noneCleaned : cleaned.filter (fun segment => decide (dirty.mappedThrough < segment.nextOffset)) = [] := by
      apply List.filter_eq_nil_iff.mpr
      intro left member
      obtain ⟨segment, isSegment, base, shorter⟩ := within left member
      have isDone : segment ∈ done := by simpa using isSegment
      have inside : segment ∈ log.sealedMap := split ▸ List.mem_append_left _ isDone
      have ends := maps.ends_inside cleanable occupied inside (below segment isDone)
      simpa using shorter.trans ends
    rw [isLog]
    unfold Log.dirtySegments
    rw [split]
    simp only [List.filter_append, noneDone, noneCleaned]

end Dirty

structure Marked where
  log : Log
  mark : Int

def Marked.dirty (state : Marked) : List SealedSegment := state.log.dirtySegments state.mark

def Marked.pass (budget : Nat) (state : Marked) (nowMs : Int) : Marked :=
  let run := cleanLog state.log budget state.mark nowMs
  ⟨run.log, (run.outcome.toOption.map (·.nextDirtyOffset)).getD state.mark⟩

/-- Every one of these passes, as long as there is something dirty, meets the
condition for progress. -/
def Marked.EachFits (budget : Nat) : List Int → Marked → Prop
  | [], _ => True
  | nowMs :: times, state =>
      (state.dirty ≠ [] → state.log.PassFits budget state.mark nowMs) ∧
        EachFits budget times (state.pass budget nowMs)

section Passes

variable {state : Marked} {budget : Nat}

theorem pass_step (decodable : Decodable state.log) {nowMs : Int}
    (fits : state.dirty ≠ [] → state.log.PassFits budget state.mark nowMs) :
    Decodable (state.pass budget nowMs).log ∧
      (state.pass budget nowMs).dirty.Sublist state.dirty ∧
      (state.dirty ≠ [] → (state.pass budget nowMs).dirty.length < state.dirty.length) ∧
      ((∀ segment ∈ state.log.sealedMap, segment.Indexable) →
        ∀ segment ∈ (state.pass budget nowMs).log.sealedMap, segment.Indexable) := by
  have cleanable := decodable.toCleanable
  obtain ⟨rules, cleaned, pending, passed⟩ := clean_log_passes cleanable budget state.mark nowMs
  have isLog : (state.pass budget nowMs).log = (cleanLog state.log budget state.mark nowMs).log := rfl
  rw [← isLog] at passed
  refine ⟨passed.decodable decodable, ?_⟩
  rw [← and_assoc]
  refine ⟨?_, passed.indexable cleanable⟩
  obtain ⟨dirty, mapped, returns, ends⟩ := pass_returns_iff decodable budget state.mark nowMs
  obtain ⟨front, rest, maps⟩ := maps_front cleanable mapped
  by_cases clean : state.dirty = []
  · have none : front ++ rest = [] := maps.split.symm.trans clean
    have unmoved := maps.stays (List.append_eq_nil_iff.mp none).1
    have same : state.pass budget nowMs = state := by
      rcases clean_log_cases state.log budget state.mark nowMs with ⟨failure, _, idle⟩ |
        ⟨other, result, isOther, atEnd, ⟨_, idle⟩ | ⟨some_keys, _⟩⟩
      · simp [Marked.pass, idle, Except.toOption]
      · rw [mapped] at isOther
        cases isOther
        simp [Marked.pass, idle, Except.toOption, atEnd, unmoved]
      · rw [mapped] at isOther
        cases isOther
        exact absurd (maps.nothing none) some_keys
    rw [same]
    exact ⟨List.Sublist.refl _, fun occupied => absurd clean occupied⟩
  · obtain ⟨oldest, through⟩ := fits clean
    obtain ⟨moves, fitsIff⟩ := maps.moves_iff clean
    have occupied := fitsIff.mpr oldest
    have moved := moves.mpr occupied
    obtain ⟨result, returned⟩ := returns.mpr through
    have mark : (state.pass budget nowMs).mark = dirty.mappedThrough := by
      simp [Marked.pass, returned, Except.toOption, ends result returned]
    have left : (state.pass budget nowMs).dirty =
        state.dirty.filter fun segment => decide (dirty.mappedThrough < segment.nextOffset) := by
      rw [Marked.dirty, mark, isLog, pass_leaves_dirty cleanable mapped maps occupied, Marked.dirty,
        Log.dirtySegments, Log.dirtySegments, List.filter_filter]
      apply List.filter_congr
      intro segment _
      by_cases beyond : dirty.mappedThrough < segment.nextOffset
      · simp [beyond, moved.trans beyond]
      · simp [beyond]
    rw [left]
    refine ⟨List.filter_sublist, fun _ => ?_⟩
    apply List.length_filter_lt_length_iff_exists.mpr
    obtain ⟨last, isLast⟩ := Option.ne_none_iff_exists'.mp (mt List.getLast?_eq_none_iff.mp occupied)
    refine ⟨last, ?_, ?_⟩
    · rw [Marked.dirty, maps.split]
      exact List.mem_append_left _ (List.mem_of_getLast? isLast)
    · simp [maps.through last isLast]

theorem passes_finish {times : List Int} (decodable : Decodable state.log)
    (fits : Marked.EachFits budget times state) (enough : state.dirty.length ≤ times.length) :
    (times.foldl (Marked.pass budget) state).dirty = [] := by
  induction times generalizing state with
  | nil => exact List.length_eq_zero_iff.mp (Nat.le_zero.mp enough)
  | cons nowMs times ih =>
      obtain ⟨first, later⟩ := fits
      obtain ⟨nextDecodable, fewer, less, _⟩ := pass_step decodable first
      apply ih nextDecodable later
      rw [List.length_cons] at enough
      by_cases clean : state.dirty = []
      · have length := fewer.length_le
        rw [clean, List.length_nil] at length
        omega
      · have := less clean
        omega

/-- When no dirty segment has more keys than the budget and an index can
describe them all, every pass meets the condition. -/
theorem each_fits {times : List Int} (decodable : Decodable state.log)
    (indexable : ∀ segment ∈ state.log.sealedMap, segment.Indexable)
    (small : ∀ segment ∈ state.dirty, segment.keys ≤ budget) : Marked.EachFits budget times state := by
  induction times generalizing state with
  | nil => trivial
  | cons nowMs times ih =>
      have fits : state.dirty ≠ [] → state.log.PassFits budget state.mark nowMs := fun _ =>
        ⟨fun segment isFirst => small segment (List.mem_of_mem_head? isFirst),
          gets_through_indexable decodable indexable budget state.mark nowMs⟩
      obtain ⟨nextDecodable, fewer, _, nextIndexable⟩ := pass_step decodable fits
      exact ⟨fits, ih nextDecodable (nextIndexable indexable) fun segment member =>
        small segment (fewer.subset member)⟩

end Passes

/-- A pass moves the mark exactly when the oldest segment past it has no more
keys than the budget and the pass gets past every segment it goes over, and then
as many passes as there are dirty segments bring the mark to their end. A cleaner
that has picked a partition moves its mark under the same condition. -/
theorem passes_make_progress {log : Log} (compactable : log.Compactable) (plain : log.Uncompressed)
    (budget : Nat) (mark : Int) :
    (∀ nowMs, log.dirtySegments mark ≠ [] →
      ((∃ result, (cleanLog log budget mark nowMs).outcome = .ok result ∧ mark < result.nextDirtyOffset) ↔
        log.PassFits budget mark nowMs)) ∧
    (∀ times, Marked.EachFits budget times ⟨log, mark⟩ → (log.dirtySegments mark).length ≤ times.length →
      (times.foldl (Marked.pass budget) ⟨log, mark⟩).dirty = []) ∧
    ((∀ segment ∈ log.sealedMap, segment.Indexable) →
      (∀ nowMs, log.PassFits budget mark nowMs ↔ log.OldestFits budget mark) ∧
        ((∀ segment ∈ log.dirtySegments mark, segment.keys ≤ budget) →
          ∀ times, Marked.EachFits budget times ⟨log, mark⟩)) ∧
    ∀ {ρ : Type} [LinearOrder ρ] (ratios : Ratios ρ) (cleaner : LogCleaner ρ) (logs : LogManager)
      (tp : TopicPartition) (nowMs : Int), cleaner.config.maxKeyMapEntries = budget →
      cleaner.firstDirtyOffset tp = mark → logs.get tp = some log → log.dirtySegments mark ≠ [] →
      cleaner.pickDirtiest ratios logs = some tp →
      (mark < (cleaner.runOnce ratios logs nowMs).cleaner.firstDirtyOffset tp ↔
        log.PassFits budget mark nowMs) := by
  obtain ⟨_, _, _, _, named, storable, room, made, reached⟩ := compactable
  have decodable : Decodable log := ⟨(cleanable_reached named storable room made reached).1, plain⟩
  refine ⟨fun nowMs some_dirty => pass_progress_iff decodable nowMs some_dirty, ?_, ?_, ?_⟩
  · intro times fits enough
    exact passes_finish decodable fits enough
  · intro indexable
    refine ⟨fun nowMs => ⟨And.left, fun oldest => ?_⟩, fun small times => each_fits decodable indexable small⟩
    exact ⟨oldest, gets_through_indexable decodable indexable budget mark nowMs⟩
  · intro ρ _ ratios cleaner logs tp nowMs isBudget isMark hosted some_dirty picked
    obtain ⟨other, found, compacts, dirty⟩ := cleaner.pick_dirtiest_chosen ratios logs picked
    rw [hosted] at found
    cases found
    rw [← pass_progress_iff decodable nowMs some_dirty, LogCleaner.runOnce, picked]
    have passes := cleaner.clean_once_passes ratios nowMs hosted compacts dirty
    rw [isMark, isBudget] at passes
    rcases passes.ends with ⟨failure, failed, _, same⟩ | ⟨result, returned, _, _, marks⟩
    · simp only [same, isMark, failed]
      simp
    · simp only [marks, if_true, returned, Except.ok.injEq]
      simp

instance (log : Log) : Decidable log.Uncompressed :=
  inferInstanceAs (Decidable (∀ segment ∈ log.sealedMap, ∀ batch ∈ batchesIn segment,
    (headerOf batch).compression = compressionNone))

instance (segment : SealedSegment) : Decidable segment.Indexable :=
  decidable_of_iff (segment.nextOffset ≤ segment.baseOffset + 2 ^ 32 ∧
      rewriteBound (batchesIn segment) ≤ 2 ^ 32)
    ⟨fun ⟨span, size⟩ => ⟨span, size⟩, fun indexable => ⟨indexable.span, indexable.size⟩⟩

/-- Two segments of two keys each, and a budget of two: a pass for each. -/
theorem passes_make_progress_two_segments :
    ∃ log : Log, (log.dirtySegments 0).length = 2 ∧
      ([0, 0].foldl (Marked.pass 2) ⟨log, 0⟩).dirty = [] := by
  obtain ⟨created, log, made, reached, checked⟩ := found_from_creation Log.step Log.Admits id
    ⟨[116], 0⟩ "data/t-0" { twoBatchConfig with cleanup := .compact }
    (fun log => decide (log.Uncompressed ∧ (log.dirtySegments 0).length = 2 ∧
      (∀ segment ∈ log.sealedMap, segment.Indexable) ∧ ∀ segment ∈ log.dirtySegments 0, segment.keys ≤ 2))
    (fiveRecords [97, 98, 97, 99, 97]) (by decide +kernel)
  obtain ⟨plain, two, indexable, small⟩ := decide_eq_true_eq.mp checked
  have compactable := compactable_from_creation made reached
  refine ⟨log, two, ?_⟩
  obtain ⟨_, finishes, described, _⟩ := passes_make_progress compactable plain 2 0
  exact finishes [0, 0] ((described indexable).2 small _) two.le

/-- Two keys in one segment and a budget of one: the mark stays where it is. -/
theorem pass_over_budget_stands_still :
    ¬ ∀ (log : Log) (budget : Nat) (mark nowMs : Int), log.Compactable → log.config.compacted = true →
      log.Uncompressed → log.dirtySegments mark ≠ [] → 1 ≤ budget →
      ∃ result, (cleanLog log budget mark nowMs).outcome = .ok result ∧ mark < result.nextDirtyOffset := by
  intro all
  obtain ⟨created, log, made, reached, checked⟩ := found_from_creation Log.step Log.Admits id
    ⟨[116], 0⟩ "data/t-0" { twoBatchConfig with cleanup := .compact }
    (fun log => decide (log.config.compacted = true ∧ log.Uncompressed ∧ (log.dirtySegments 0).length = 2 ∧
      ∃ result ∈ (cleanLog log 1 0 0).outcome.toOption, result.nextDirtyOffset = 0))
    (fiveRecords [97, 98, 97, 99, 97]) (by decide +kernel)
  obtain ⟨compacts, plain, two, stays, isStays, still⟩ := decide_eq_true_eq.mp checked
  have compactable := compactable_from_creation made reached
  obtain ⟨result, returned, moved⟩ := all log 1 0 0 compactable compacts plain
    (by intro none; simp [none] at two) (by decide)
  rw [ok_of_to_option isStays] at returned
  cases returned
  omega

end DariyaKyu.Storage

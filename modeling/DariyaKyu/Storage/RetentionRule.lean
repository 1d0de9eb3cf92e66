import DariyaKyu.Storage.OpenRanges
import Mathlib.Data.List.TakeWhile

/-!
Which segments retention takes, told without its two loops. The age pass takes
the longest run of the oldest segments that are due, the byte pass as many more
as it needs; the first stops at a segment that is too young, the second does
not. So what stood behind a young segment can be due when that one is gone, and
a second sweep at the same time takes it.
-/

namespace DariyaKyu.Storage

set_option autoImplicit false

/-- Nothing is in the segment, or all of it is old enough. -/
def Log.DueByAge (log : Log) (nowMs : Int) (segment : SealedSegment) : Prop :=
  segment.isEmpty = true ∨ 0 ≤ segment.largestTimestamp ∧
    log.config.retention.retentionMs ≤ nowMs - segment.largestTimestamp

instance (log : Log) (nowMs : Int) (segment : SealedSegment) : Decidable (log.DueByAge nowMs segment) :=
  inferInstanceAs (Decidable (_ ∨ (_ ∧ _)))

/-- The size of the partition when so many of the oldest segments are gone. -/
def Log.sizeWithout (log : Log) (count : Nat) : Nat :=
  log.active.sizeBytes + ((log.sealedMap.drop count).map (·.sizeBytes)).sum

/-- The rule: so many segments go by age, and so many in all. -/
structure Log.RetentionCut (log : Log) (nowMs : Int) (aged total : Nat) : Prop where
  inside : aged ≤ total ∧ total ≤ log.sealedMap.length
  due : ∀ segment ∈ log.sealedMap.take aged, log.DueByAge nowMs segment
  young : ∀ segment, log.sealedMap[aged]? = some segment → ¬ log.DueByAge nowMs segment
  unlimited : log.config.retention.retentionBytes = none → total = aged
  limited : ∀ limit, log.config.retention.retentionBytes = some limit →
    (log.sizeWithout total ≤ limit ∨ total = log.sealedMap.length) ∧
      ∀ count, aged ≤ count → count < total → limit < log.sizeWithout count

/-- The oldest segments moved to the graveyard, and nothing else. -/
def Log.without (log : Log) (nowMs : Int) (total : Nat) : Log :=
  { log with
    sealedMap := log.sealedMap.drop total
    graveyard := log.graveyard ++ (log.sealedMap.take total).map (⟨·, nowMs⟩) }

structure Log.Ascending (log : Log) : Prop where
  sorted : Sorted log.sealedMap
  below : ∀ segment ∈ log.sealedMap, segment.baseOffset ≤ log.active.baseOffset

instance (log : Log) : Decidable log.Ascending :=
  have : Decidable (Sorted log.sealedMap) :=
    inferInstanceAs (Decidable (log.sealedMap.Pairwise fun earlier later : SealedSegment =>
      earlier.baseOffset < later.baseOffset))
  decidable_of_iff (Sorted log.sealedMap ∧ ∀ segment ∈ log.sealedMap, segment.baseOffset ≤ log.active.baseOffset)
    ⟨fun both => ⟨both.1, both.2⟩, fun ascending => ⟨ascending.sorted, ascending.below⟩⟩

section Counting

variable {log : Log} {nowMs : Int}

theorem aged_out_iff (segment : SealedSegment) :
    Log.agedOut log.config.retention.retentionMs nowMs segment = true ↔ log.DueByAge nowMs segment := by
  simp [Log.agedOut, Log.DueByAge]

/-- The first element that a test stops at is the one behind what it takes. -/
theorem take_while_stops {α : Type} (test : α → Bool) (items : List α) {item : α}
    (next : items[(items.takeWhile test).length]? = some item) : test item = false := by
  induction items with
  | nil => cases next
  | cons first rest ih =>
      cases passes : test first with
      | true =>
          simp only [List.takeWhile_cons, passes, if_true, List.length_cons, List.getElem?_cons_succ] at next
          exact ih next
      | false =>
          simp only [List.takeWhile_cons, passes, Bool.false_eq_true, if_false, List.length_nil,
            List.getElem?_cons_zero, Option.some.injEq] at next
          exact next ▸ passes

/-- What the byte loop counts: it stops inside the limit or at the end, and not before. -/
theorem over_limit_spec (limit rest : Nat) (segments : List SealedSegment) :
    let count := Log.overLimit limit (rest + (segments.map (·.sizeBytes)).sum) segments
    count ≤ segments.length ∧
      (rest + ((segments.drop count).map (·.sizeBytes)).sum ≤ limit ∨ count = segments.length) ∧
      ∀ fewer < count, limit < rest + ((segments.drop fewer).map (·.sizeBytes)).sum := by
  induction segments with
  | nil => simp [Log.overLimit]
  | cons oldest later ih =>
      have remaining : rest + ((oldest :: later).map (·.sizeBytes)).sum - oldest.sizeBytes =
          rest + (later.map (·.sizeBytes)).sum := by
        simp only [List.map_cons, List.sum_cons]
        omega
      simp only [Log.overLimit, remaining]
      split
      · next above =>
        obtain ⟨inside, reached, before⟩ := ih
        refine ⟨Nat.succ_le_succ inside, ?_, ?_⟩
        · rw [List.drop_succ_cons, List.length_cons]
          exact reached.imp_right (congrArg (· + 1))
        · intro fewer less
          cases fewer with
          | zero => exact above
          | succ fewer => exact before fewer (Nat.lt_of_succ_lt_succ less)
      · next within =>
        exact ⟨Nat.zero_le _, .inl (not_lt.mp within), fun fewer less => absurd less (Nat.not_lt_zero _)⟩

theorem retention_cut (log : Log) (nowMs : Int) :
    ∃ aged total, log.RetentionCut nowMs aged total ∧ log.applyRetention nowMs = log.without nowMs total := by
  have taken := List.takeWhile_prefix (l := log.sealedMap) (Log.agedOut log.config.retention.retentionMs nowMs)
  have due : ∀ segment ∈ log.sealedMap.takeWhile (Log.agedOut log.config.retention.retentionMs nowMs),
      log.DueByAge nowMs segment := by
    intro segment member
    exact (aged_out_iff segment).mp (List.mem_takeWhile_imp member)
  have young : ∀ segment, log.sealedMap[(log.sealedMap.takeWhile
      (Log.agedOut log.config.retention.retentionMs nowMs)).length]? = some segment →
        ¬ log.DueByAge nowMs segment := by
    intro segment next isDue
    have stopped := take_while_stops _ _ next
    rw [(aged_out_iff segment).mpr isDue] at stopped
    cases stopped
  generalize agedOnes : log.sealedMap.takeWhile (Log.agedOut log.config.retention.retentionMs nowMs) = ones
    at taken due young
  have inside := taken.length_le
  rw [List.prefix_iff_eq_take.mp taken] at due
  unfold Log.applyRetention
  rw [agedOnes]
  cases limited : log.config.retention.retentionBytes with
  | none =>
      exact ⟨ones.length, ones.length, ⟨⟨le_refl _, inside⟩, due, young, fun _ => rfl,
        fun limit isLimit => by rw [limited] at isLimit; cases isLimit⟩, rfl⟩
  | some limit =>
      obtain ⟨fits, reached, before⟩ := over_limit_spec limit log.active.sizeBytes (log.sealedMap.drop ones.length)
      simp only [List.drop_drop, List.length_drop] at fits reached before
      refine ⟨ones.length, ones.length + Log.overLimit limit (log.active.sizeBytes +
        ((log.sealedMap.drop ones.length).map (·.sizeBytes)).sum) (log.sealedMap.drop ones.length),
        ⟨⟨by omega, by omega⟩, due, young, ?_, ?_⟩, ?_⟩
      · intro none
        rw [limited] at none
        cases none
      · intro other isLimit
        cases limited.symm.trans isLimit
        refine ⟨reached.imp_right fun all => by omega, ?_⟩
        intro count least less
        obtain ⟨fewer, rfl⟩ := Nat.exists_eq_add_of_le least
        exact before fewer (by omega)
      · exact bury_oldest_twice log _ _ nowMs

theorem retention_cut_unique {aged total other more : Nat} (first : log.RetentionCut nowMs aged total)
    (second : log.RetentionCut nowMs other more) : other = aged ∧ more = total := by
  have not_less : ∀ {aged total other more : Nat}, log.RetentionCut nowMs aged total →
      log.RetentionCut nowMs other more → ¬ aged < other := by
    intro aged total other more first second less
    have place : aged < log.sealedMap.length := by
      have bounds := second.inside
      omega
    obtain ⟨segment, isSegment⟩ : ∃ segment, log.sealedMap[aged]? = some segment :=
      ⟨_, List.getElem?_eq_getElem place⟩
    refine first.young segment isSegment (second.due segment ?_)
    apply List.mem_of_getElem? (i := aged)
    rw [List.getElem?_take_of_lt less]
    exact isSegment
  have sameAged : other = aged :=
    le_antisymm (not_lt.mp (not_less first second)) (not_lt.mp (not_less second first))
  subst sameAged
  have not_fewer : ∀ {total more : Nat}, log.RetentionCut nowMs other total →
      log.RetentionCut nowMs other more → ¬ total < more := by
    intro total more first second less
    cases limited : log.config.retention.retentionBytes with
    | none =>
        rw [first.unlimited limited, second.unlimited limited] at less
        exact absurd less (lt_irrefl _)
    | some limit =>
        have above := (second.limited limit limited).2 total first.inside.1 less
        rcases (first.limited limit limited).1 with within | all
        · omega
        · have bound := second.inside.2
          omega
  exact ⟨rfl, le_antisymm (not_lt.mp (not_fewer first second)) (not_lt.mp (not_fewer second first))⟩

theorem without_none (log : Log) (nowMs : Int) : log.without nowMs 0 = log := by
  simp [Log.without]

/-- What is left is within the limit, so that a second sweep goes by age alone. -/
theorem retention_cut_again {aged total : Nat} (cut : log.RetentionCut nowMs aged total)
    (young : ∀ segment, log.sealedMap[total]? = some segment → ¬ log.DueByAge nowMs segment) :
    (log.without nowMs total).RetentionCut nowMs 0 0 where
  inside := ⟨le_refl _, Nat.zero_le _⟩
  due := by simp
  young := by
    intro segment first
    rw [Log.without, List.getElem?_drop, Nat.add_zero] at first
    exact young segment first
  unlimited := fun _ => rfl
  limited := by
    intro limit isLimit
    refine ⟨?_, fun count _ less => absurd less (Nat.not_lt_zero _)⟩
    rcases (cut.limited limit isLimit).1 with within | all
    · exact .inl within
    · refine .inr ?_
      simp [Log.without, all]

/-- A second sweep at the same time finds nothing exactly if the oldest segment
that the first one left is not due. -/
theorem retention_again_iff {aged total : Nat} (cut : log.RetentionCut nowMs aged total) :
    (log.without nowMs total).applyRetention nowMs = log.without nowMs total ↔
      ∀ segment, log.sealedMap[total]? = some segment → ¬ log.DueByAge nowMs segment := by
  obtain ⟨again, more, second, applied⟩ := retention_cut (log.without nowMs total) nowMs
  constructor
  · intro same segment first isDue
    have next : (log.without nowMs total).sealedMap[0]? = some segment := by
      rw [Log.without, List.getElem?_drop, Nat.add_zero]
      exact first
    have taken : again ≠ 0 := by
      rintro rfl
      exact second.young segment next isDue
    have lengths := congrArg (fun log => log.sealedMap.length) (applied.symm.trans same)
    have bounds := second.inside
    simp only [Log.without, List.length_drop] at lengths bounds
    omega
  · intro young
    obtain ⟨_, nothing⟩ := retention_cut_unique second (retention_cut_again cut young)
    rw [applied, ← nothing, without_none]

theorem without_start {total : Nat} (ascending : log.Ascending) :
    log.logStartOffset ≤ (log.without nowMs total).logStartOffset := by
  unfold Log.logStartOffset Log.without
  cases first : log.sealedMap with
  | nil => simp
  | cons oldest rest =>
      have below := ascending.below oldest (by simp [first])
      have sorted := ascending.sorted
      rw [first] at sorted
      have ahead := (List.pairwise_cons.mp sorted).1
      cases left : (oldest :: rest).drop total with
      | nil => exact below
      | cons next others =>
          have member : next ∈ oldest :: rest := List.drop_subset total _ (left ▸ List.mem_cons_self)
          simp only [List.head?_cons, Option.map_some, Option.getD_some]
          rcases List.mem_cons.mp member with rfl | behind
          · exact le_refl _
          · exact (ahead next behind).le

end Counting

/-- Retention takes the segments that the rule says and buries each of them once;
the active segment stays, the log start does not go back, and what a second
sweep at the same time would still find is a due segment that the byte pass
stopped in front of. -/
theorem retention_follows_rule (log : Log) (nowMs : Int) (ascending : log.Ascending) :
    ∃ aged total, log.RetentionCut nowMs aged total ∧
      (∀ other more, log.RetentionCut nowMs other more → other = aged ∧ more = total) ∧
      log.applyRetention nowMs = { log with
        sealedMap := log.sealedMap.drop total
        graveyard := log.graveyard ++ (log.sealedMap.take total).map (⟨·, nowMs⟩) } ∧
      ((log.sealedMap.take total).map (·.baseOffset)).Nodup ∧
      log.logStartOffset ≤ (log.applyRetention nowMs).logStartOffset ∧
      ((log.applyRetention nowMs).applyRetention nowMs = log.applyRetention nowMs ↔
        ∀ segment, log.sealedMap[total]? = some segment → ¬ log.DueByAge nowMs segment) := by
  obtain ⟨aged, total, cut, applied⟩ := retention_cut log nowMs
  refine ⟨aged, total, cut, fun other more second => retention_cut_unique cut second, applied, ?_, ?_, ?_⟩
  · apply List.pairwise_map.mpr
    apply (ascending.sorted.sublist (List.take_sublist total _)).imp
    intro earlier later less
    exact less.ne
  · rw [applied]
    exact without_start ascending
  · rw [applied]
    exact retention_again_iff cut

def twoSegmentsConfig : LogConfig where
  roll := { maxSegmentBytes := 1, indexIntervalBytes := 1 }
  retention := { retentionMs := 500, retentionBytes := some 150 }

def youngInFront : List LogAction :=
  [.append (recordBatchOf 1000 none (some [118])) 0 0 none,
    .append (recordBatchOf 10 none (some [118])) 0 0 none,
    .append (recordBatchOf 2000 none (some [118])) 0 0 none]

/-- The young segment goes by size, and the old one behind it stays for the next sweep. -/
theorem retention_follows_rule_young_in_front :
    ∃ created log : Log, Log.create ⟨[116], 0⟩ "t-0" twoSegmentsConfig = .ok created ∧
      ∃ aged total, log.RetentionCut 1000 aged total ∧ total = 1 ∧
        log.applyRetention 1000 = log.without 1000 1 ∧
        log.logStartOffset ≤ (log.applyRetention 1000).logStartOffset := by
  obtain ⟨created, log, made, _, checked⟩ := found_from_creation Log.step (fun _ _ => True) id
    ⟨[116], 0⟩ "t-0" twoSegmentsConfig
    (fun log => decide log.Ascending && log.sealedMap.length == 2 &&
      (log.applyRetention 1000).sealedMap.length == 1)
    youngInFront (by decide +kernel)
  simp only [Bool.and_eq_true, decide_eq_true_eq, beq_iff_eq] at checked
  obtain ⟨⟨ascending, two⟩, one⟩ := checked
  obtain ⟨aged, total, cut, _, applied, _, start, _⟩ := retention_follows_rule log 1000 ascending
  have single : total = 1 := by
    rw [applied] at one
    simp only [List.length_drop, two] at one
    omega
  subst single
  exact ⟨created, log, made, aged, 1, cut, rfl, applied, start⟩

theorem retention_takes_more_again :
    ¬ ∀ (log : Log) (nowMs : Int), log.Ascending →
      (log.applyRetention nowMs).applyRetention nowMs = log.applyRetention nowMs := by
  intro all
  obtain ⟨_, log, _, _, checked⟩ := found_from_creation Log.step (fun _ _ => True) id
    ⟨[116], 0⟩ "t-0" twoSegmentsConfig
    (fun log => decide log.Ascending &&
      ((log.applyRetention 1000).applyRetention 1000).sealedMap.length != (log.applyRetention 1000).sealedMap.length)
    youngInFront (by decide +kernel)
  simp only [Bool.and_eq_true, decide_eq_true_eq, bne_iff_ne] at checked
  exact checked.2 (congrArg (fun log => log.sealedMap.length) (all log 1000 checked.1))

end DariyaKyu.Storage

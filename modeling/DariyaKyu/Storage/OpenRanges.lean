import DariyaKyu.Storage.BatchCodec
import DariyaKyu.Storage.LogRuns
import Mathlib.Data.List.Perm.Subperm

/-!
Descriptors. Every segment object of a log owns one open file; a read hands its
number out, and the bytes are sent later. The graveyard keeps the descriptors
of deleted and replaced segments open for a while. A roll is the one operation
that closes a descriptor readers may hold without burying it.
-/

namespace DariyaKyu.Storage

set_option autoImplicit false

open FrameWalk

/-- The segment objects of a log: each of them keeps one file open. -/
def Log.owners (log : Log) : List SegmentBase :=
  log.active.toSegmentBase :: (log.sealedMap ++ log.graveyard.map (·.segment))

theorem batch_at_within {log : FileHandle} {limit position : Nat} {found : BatchAt}
    (peeked : batchAt log limit position = .ok (some found)) : position + found.totalSize ≤ limit := by
  unfold batchAt at peeked
  split at peeked
  · cases peeked
  · next inside =>
    split at peeked
    · cases peeked
    simp only at peeked
    split at peeked
    · cases peeked
    obtain ⟨header, _, peeked⟩ := except_bind_ok peeked
    obtain ⟨total, _, peeked⟩ := except_bind_ok peeked
    split at peeked
    · cases peeked
    · cases peeked
      simp only
      omega

theorem read_inside {segment : SegmentBase} {offset : Int} {maxBytes : Nat} {range : FileRange}
    (answered : segment.read offset maxBytes = .ok range) :
    range.fd = segment.log.fd ∧ range.position + range.length ≤ segment.log.size := by
  unfold SegmentBase.read at answered
  split at answered
  · cases answered
  obtain ⟨entry, _, answered⟩ := except_bind_ok answered
  obtain ⟨⟨ends, found⟩, walked, answered⟩ := except_bind_ok answered
  cases Except.ok.inj answered
  have kept := walk_keeps _ _ _
    (fun found : Option FileRange => ∀ range ∈ found,
      range.fd = segment.log.fd ∧ range.position + range.length ≤ segment.log.size)
    ?_ ?_ (by simp) walked
  · cases found with
    | none => exact ⟨rfl, Nat.le_refl _⟩
    | some range => exact kept range rfl
  · intro state position frame after holds peeked visited
    split at visited
    · cases visited
    · cases visited
      simp
  · intro state position frame after holds peeked visited
    split at visited
    · cases visited
      intro range member
      obtain rfl := Option.mem_some_iff.mp member
      have within := batch_at_within peeked
      exact ⟨rfl, by simp only; omega⟩
    · cases visited

theorem log_read_inside {log : Log} {offset : Int} {maxBytes : Nat} {result : ReadResult}
    (answered : log.read offset maxBytes = .ok result) :
    result.range.length = 0 ∨ ∃ owner ∈ log.active.toSegmentBase :: log.sealedMap,
      result.range.fd = owner.log.fd ∧
        result.range.position + result.range.length ≤ owner.log.size := by
  unfold Log.read at answered
  split at answered
  · cases answered
    exact .inl rfl
  split at answered
  · cases answered
    exact .inl rfl
  split at answered
  · obtain ⟨range, read, made⟩ := except_bind_ok answered
    cases Except.ok.inj made
    exact .inr ⟨_, by simp, read_inside read⟩
  · split at answered
    · cases answered
      exact .inl rfl
    · next segment routed =>
      obtain ⟨range, read, made⟩ := except_bind_ok answered
      cases Except.ok.inj made
      have member := List.mem_of_getLast? routed
      exact .inr ⟨segment, by simp [List.takeWhile_subset _ member], read_inside read⟩

theorem emplace_members (segment : SealedSegment) (segments : List SealedSegment) :
    List.Subperm (emplaceSegment segment segments) (segment :: segments) ∧
      ∀ other ∈ segments, other ∈ emplaceSegment segment segments := by
  induction segments with
  | nil => exact ⟨List.Subperm.refl _, by simp⟩
  | cons first rest ih =>
      unfold emplaceSegment
      split
      · exact ⟨List.Subperm.refl _, fun other member => List.mem_cons_of_mem _ member⟩
      split
      · exact ⟨(List.sublist_cons_self _ _).subperm, fun other member => member⟩
      · refine ⟨?_, ?_⟩
        · exact ((List.subperm_cons first).mpr ih.1).trans (List.Perm.swap _ _ _).subperm
        · intro other member
          rcases List.mem_cons.mp member with rfl | behind
          · simp
          · simp [ih.2 other behind]

def Sorted (segments : List SealedSegment) : Prop :=
  segments.Pairwise fun earlier later => earlier.baseOffset < later.baseOffset

theorem emplace_sorted {segment : SealedSegment} {segments : List SealedSegment}
    (sorted : Sorted segments) : Sorted (emplaceSegment segment segments) := by
  induction segments with
  | nil => simp [emplaceSegment, Sorted]
  | cons first rest ih =>
      obtain ⟨ahead, later⟩ := List.pairwise_cons.mp sorted
      unfold emplaceSegment
      split
      · next below =>
        refine List.pairwise_cons.mpr ⟨?_, sorted⟩
        intro other member
        rcases List.mem_cons.mp member with rfl | behind
        · exact below
        · have := ahead other behind
          omega
      split
      · exact sorted
      · next notBelow different =>
        refine List.pairwise_cons.mpr ⟨?_, ih later⟩
        intro other member
        have place := (emplace_members _ _).1.subset member
        rcases List.mem_cons.mp place with rfl | behind
        · omega
        · exact ahead other behind

/-- The one segment a base offset names, between those ahead and behind. -/
theorem find_split {segments : List SealedSegment} {base : Int} {found : SealedSegment}
    (sorted : Sorted segments) (isFound : segments.find? (·.baseOffset == base) = some found) :
    ∃ ahead behind, segments = ahead ++ found :: behind ∧ found.baseOffset = base ∧
      (∀ other ∈ ahead, other.baseOffset ≠ base) ∧ (∀ other ∈ behind, other.baseOffset ≠ base) := by
  obtain ⟨named, ahead, behind, split, others⟩ := List.find?_eq_some_iff_append.mp isFound
  simp only [beq_iff_eq] at named
  refine ⟨ahead, behind, split, named, ?_, ?_⟩
  · intro other member
    simpa using others other member
  · intro other member
    rw [split, Sorted, List.pairwise_append] at sorted
    have later := (List.pairwise_cons.mp sorted.2.1).1 other member
    omega

/-- What a call at this time does to the segment objects: new ones get new
descriptors, and an old one goes only if the call closes it. -/
structure Handover (log next : Log) (nowMs : Int) (closes : SegmentBase → Prop) : Prop where
  config : next.config = log.config
  sorted : Sorted next.sealedMap
  counts : log.nextFd ≤ next.nextFd
  owners : ∃ fresh, List.Subperm next.owners (fresh ++ log.owners) ∧ (fresh.map (·.log.fd)).Nodup ∧
    ∀ segment ∈ fresh, (log.nextFd : Int) ≤ segment.log.fd ∧ segment.log.fd < next.nextFd
  kept : ∀ owner ∈ log.owners, owner ∈ next.owners ∨ closes owner
  buried : ∀ buried ∈ next.graveyard, buried ∈ log.graveyard ∨ buried.unlinkedAtMs = nowMs

theorem handover_same {log next : Log} (nowMs : Int) (closes : SegmentBase → Prop)
    (sorted : Sorted log.sealedMap) (config : next.config = log.config)
    (counts : log.nextFd ≤ next.nextFd) (active : next.active = log.active)
    (map : next.sealedMap = log.sealedMap) (graveyard : next.graveyard = log.graveyard) :
    Handover log next nowMs closes := by
  have same : next.owners = log.owners := by rw [Log.owners, Log.owners, active, map, graveyard]
  exact
    { config := config
      sorted := map ▸ sorted
      counts := counts
      owners := ⟨[], same ▸ List.Subperm.refl _, by simp, by simp⟩
      kept := fun owner member => .inl (same ▸ member)
      buried := fun buried member => .inl (graveyard ▸ member) }

theorem open_sealed_ok {fd baseOffset : Int} {path : String} {bytes : Bytes}
    {index : Option OffsetIndex} {segment : SealedSegment}
    (opened : SealedSegment.open fd path baseOffset bytes index = .ok segment) :
    segment.log.fd = fd ∧ segment.baseOffset = baseOffset := by
  cases index with
  | none => cases opened
  | some index =>
      obtain ⟨_, _, derived⟩ := except_bind_ok opened
      obtain ⟨_, _, made⟩ := except_bind_ok derived
      cases Except.ok.inj made
      exact ⟨rfl, rfl⟩

theorem roll_handover {log next : Log} {nowMs : Int} (sorted : Sorted log.sealedMap)
    (rolled : (log.maybeRoll nowMs).log = some next) :
    Handover log next nowMs fun owner =>
      log.active.shouldRoll nowMs = true ∧ owner = log.active.toSegmentBase := by
  unfold Log.maybeRoll at rolled
  split at rolled
  · cases rolled
    exact handover_same nowMs _ sorted rfl (Nat.le_refl _) rfl rfl rfl
  · next due =>
    simp only at rolled
    split at rolled
    · cases rolled
      exact handover_same nowMs _ sorted rfl (Nat.le_refl _) rfl rfl rfl
    · next active created =>
      split at rolled
      · cases rolled
      · next segment isSealed =>
        cases rolled
        obtain ⟨members, others⟩ := emplace_members segment log.sealedMap
        have activeFd : active.log.fd = log.nextFd := by
          simp only [ActiveSegment.create] at created
          split at created
          · cases created
          · obtain ⟨index, _, made⟩ := except_bind_ok created
            cases Except.ok.inj made
            rfl
        have segmentFd : segment.log.fd = log.nextFd + 1 := (open_sealed_ok isSealed).1
        refine ⟨rfl, emplace_sorted sorted, by simp, ⟨[active.toSegmentBase, segment], ?_, ?_, ?_⟩, ?_,
          fun buried member => .inl member⟩
        · have grown := (List.subperm_append_right (log.graveyard.map (·.segment))).mpr members
          exact (List.subperm_cons _).mpr (grown.trans (((List.subperm_cons _).mpr List.Subperm.cons_self)))
        · simp [activeFd, segmentFd]
        · intro other member
          simp only [List.mem_cons, List.not_mem_nil, or_false] at member
          rcases member with rfl | rfl
          · simp [activeFd]
          · simp [segmentFd]
        · intro owner member
          simp only [Log.owners, List.mem_cons, List.mem_append] at member ⊢
          rcases member with isActive | isSealed | isBuried
          · exact .inr ⟨by simpa using due, isActive⟩
          · exact .inl (.inr (.inl (others owner isSealed)))
          · exact .inl (.inr (.inr isBuried))

theorem bury_handover {log next : Log} {nowMs : Int} (taken : List SealedSegment)
    (config : next.config = log.config) (sorted : Sorted next.sealedMap) (counts : next.nextFd = log.nextFd)
    (active : next.active = log.active) (moved : (next.sealedMap ++ taken).Perm log.sealedMap)
    (graveyard : next.graveyard = log.graveyard ++ taken.map (⟨·, nowMs⟩)) :
    Handover log next nowMs fun _ => False := by
  have same : next.owners.Perm log.owners := by
    have buried : next.graveyard.map (·.segment) = log.graveyard.map (·.segment) ++ taken := by
      simp [graveyard, Function.comp_def]
    rw [Log.owners, Log.owners, active, buried]
    refine List.Perm.cons _ ?_
    calc next.sealedMap ++ (log.graveyard.map (·.segment) ++ taken)
        _ |>.Perm (next.sealedMap ++ (taken ++ log.graveyard.map (·.segment))) :=
          List.Perm.append_left _ List.perm_append_comm
        _ = (next.sealedMap ++ taken) ++ log.graveyard.map (·.segment) := by simp
        _ |>.Perm (log.sealedMap ++ log.graveyard.map (·.segment)) := moved.append_right _
  refine ⟨config, sorted, counts.ge, ⟨[], same.subperm, by simp, by simp⟩, ?_, ?_⟩
  · exact fun owner member => .inl (same.mem_iff.mpr member)
  · intro buried member
    rw [graveyard] at member
    rcases List.mem_append.mp member with old | new
    · exact .inl old
    · obtain ⟨segment, _, rfl⟩ := List.mem_map.mp new
      exact .inr rfl

theorem bury_oldest_twice (log : Log) (first second : Nat) (nowMs : Int) :
    (log.buryOldest first nowMs).buryOldest second nowMs = log.buryOldest (first + second) nowMs := by
  simp only [Log.buryOldest, List.drop_drop, List.take_add, List.map_append, List.append_assoc]

theorem retention_handover {log : Log} (nowMs : Int) (sorted : Sorted log.sealedMap) :
    Handover log (log.applyRetention nowMs) nowMs fun _ => False := by
  obtain ⟨count, buried⟩ : ∃ count, log.applyRetention nowMs = log.buryOldest count nowMs := by
    unfold Log.applyRetention
    split
    · exact ⟨_, rfl⟩
    · simp only [bury_oldest_twice]
      exact ⟨_, rfl⟩
  rw [buried]
  refine bury_handover _ rfl (sorted.sublist (List.drop_sublist _ _)) rfl rfl ?_ rfl
  have split := List.take_append_drop count log.sealedMap
  conv_rhs => rw [← split]
  exact List.perm_append_comm

theorem remove_handover {log : Log} (baseOffset nowMs : Int) (sorted : Sorted log.sealedMap) :
    Handover log (log.removeSegment baseOffset nowMs).2 nowMs fun _ => False := by
  unfold Log.removeSegment
  split
  · exact handover_same nowMs _ sorted rfl (Nat.le_refl _) rfl rfl rfl
  · next found isFound =>
    obtain ⟨ahead, behind, split, named, others, later⟩ := find_split sorted isFound
    refine bury_handover [found] rfl (sorted.sublist List.filter_sublist) rfl rfl ?_ rfl
    have left : log.sealedMap.filter (fun segment => decide (segment.baseOffset ≠ baseOffset)) =
        ahead ++ behind := by
      rw [split, List.filter_append, List.filter_cons_of_neg (by simp [named]),
        List.filter_eq_self.mpr (by simpa using others), List.filter_eq_self.mpr (by simpa using later)]
    rw [left, split, List.append_assoc]
    exact List.Perm.append_left _ List.perm_append_comm

theorem replace_handover {log next : Log} {baseOffset nowMs : Int} {cleanedLog : Bytes}
    {cleanedIndex : OffsetIndex} (sorted : Sorted log.sealedMap)
    (replaced : (log.replaceSegment baseOffset cleanedLog cleanedIndex nowMs).log = some next) :
    Handover log next nowMs fun _ => False := by
  unfold Log.replaceSegment at replaced
  split at replaced
  · cases replaced
    exact handover_same nowMs _ sorted rfl (Nat.le_refl _) rfl rfl rfl
  · next found isFound =>
    split at replaced
    · cases replaced
      exact handover_same nowMs _ sorted rfl (Nat.le_succ _) rfl rfl rfl
    · next replacement opened =>
      cases replaced
      obtain ⟨ahead, behind, split, named, others, later⟩ := find_split sorted isFound
      obtain ⟨fd, base⟩ := open_sealed_ok opened
      have unmoved : ∀ segments : List SealedSegment, (∀ other ∈ segments, other.baseOffset ≠ baseOffset) →
          (segments.map fun segment =>
            if segment.baseOffset = baseOffset then replacement else segment) = segments := by
        intro segments different
        conv_rhs => rw [← List.map_id segments]
        exact List.map_congr_left fun other member => if_neg (different other member)
      have swapped : (log.sealedMap.map fun segment =>
          if segment.baseOffset = baseOffset then replacement else segment) =
            ahead ++ replacement :: behind := by
        rw [split, List.map_append, List.map_cons, if_pos named, unmoved _ others, unmoved _ later]
      have sameBases : (ahead ++ replacement :: behind).map (·.baseOffset) =
          log.sealedMap.map (·.baseOffset) := by
        simp [split, named, base]
      have moved : (ahead ++ replacement :: behind ++
          (log.graveyard ++ [(⟨found, nowMs⟩ : BuriedSegment)]).map (·.segment)).Perm
            (replacement :: (log.sealedMap ++ log.graveyard.map (·.segment))) := by
        simp only [List.map_append, List.map_cons, List.map_nil, split]
        calc ahead ++ replacement :: behind ++ (log.graveyard.map (·.segment) ++ [found])
            _ |>.Perm (replacement :: (ahead ++ behind) ++ (log.graveyard.map (·.segment) ++ [found])) :=
              List.perm_middle.append_right _
            _ = replacement :: (ahead ++ behind ++ log.graveyard.map (·.segment) ++ [found]) := by simp
            _ |>.Perm (replacement :: found :: (ahead ++ behind ++ log.graveyard.map (·.segment))) :=
              (List.perm_append_singleton _ _).cons _
            _ |>.Perm (replacement :: (ahead ++ found :: behind ++ log.graveyard.map (·.segment))) :=
              (List.perm_middle.symm.append_right _).cons _
      refine ⟨rfl, ?_, Nat.le_succ _, ⟨[replacement], ?_, by simp, ?_⟩, ?_, ?_⟩
      · simp only [swapped]
        have sortedBases := List.pairwise_map.mpr sorted
        rw [← sameBases] at sortedBases
        exact List.pairwise_map.mp sortedBases
      · simp only [Log.owners, swapped]
        exact ((List.subperm_cons _).mpr moved.subperm).trans (List.Perm.swap _ _ _).subperm
      · simp [fd]
      · intro owner member
        simp only [Log.owners, swapped, List.mem_cons] at member ⊢
        rcases member with isActive | other
        · exact .inl (.inl isActive)
        · exact .inl (.inr (moved.mem_iff.mpr (List.mem_cons_of_mem _ other)))
      · intro buried member
        rcases List.mem_append.mp member with old | new
        · exact .inl old
        · simp only [List.mem_singleton] at new
          exact .inr (new ▸ rfl)

theorem sweep_handover {log : Log} (nowMs : Int) (sorted : Sorted log.sealedMap) :
    Handover log (log.sweepGraveyard nowMs) nowMs fun owner => ∃ buried ∈ log.graveyard,
      buried.segment = owner ∧
        log.config.retention.segmentDeleteDelayMs ≤ nowMs - buried.unlinkedAtMs where
  config := rfl
  sorted := sorted
  counts := Nat.le_refl _
  owners := by
    refine ⟨[], List.Sublist.subperm ?_, by simp, by simp⟩
    exact List.Sublist.cons_cons _
      (List.Sublist.append (List.Sublist.refl _) (List.filter_sublist.map _))
  kept := by
    intro owner member
    simp only [Log.owners, List.mem_cons, List.mem_append, List.mem_map] at member ⊢
    rcases member with isActive | isSealed | ⟨buried, isBuried, rfl⟩
    · exact .inl (.inl isActive)
    · exact .inl (.inr (.inl isSealed))
    · by_cases swept : log.config.retention.segmentDeleteDelayMs ≤ nowMs - buried.unlinkedAtMs
      · exact .inr ⟨buried, isBuried, rfl, swept⟩
      · refine .inl (.inr (.inr ⟨buried, ?_, rfl⟩))
        exact List.mem_filter.mpr ⟨isBuried, by simpa using swept⟩
  buried := fun buried member => .inl (List.mem_filter.mp member).1

/-- A write to the active segment: same descriptor, and a longer file. -/
structure Extends (first second : FileHandle) : Prop where
  fd : second.fd = first.fd
  size : first.size ≤ second.size
  keeps : ∀ position count, position + count ≤ first.size →
    second.readAt position count = first.readAt position count

theorem append_extends (segment : ActiveSegment) (baseOffset : Int) (batchBytes : Bytes)
    (clockMs : Int) (fault : Option WriteFault) :
    Extends segment.log (segment.append baseOffset batchBytes clockMs fault).1.log := by
  have same : Extends segment.log segment.log := ⟨rfl, Nat.le_refl _, fun _ _ _ => rfl⟩
  unfold ActiveSegment.append
  split
  · exact same
  split
  · exact same
  split
  · exact same
  split
  · exact same
  · next indexed step =>
    obtain ⟨state, _, rfl⟩ := maybe_add_index_entry_ok.mp step
    obtain ⟨fd, size, keeps⟩ := segment.log.append_keeps batchBytes fault
    split
    · next log failure appended =>
      rw [appended] at fd size keeps
      exact ⟨fd, size, keeps⟩
    · next log done appended =>
      rw [appended] at fd size keeps
      exact ⟨fd, size, keeps⟩

theorem append_hands_over {log next : Log} {batchBytes : Bytes} {rollMs clockMs : Int}
    {fault : Option WriteFault} (appended : (log.append batchBytes rollMs clockMs fault).log = some next) :
    ∃ rolled, (log.maybeRoll rollMs).log = some rolled ∧
      Extends rolled.active.log next.active.log ∧ next.config = rolled.config ∧
      next.sealedMap = rolled.sealedMap ∧ next.graveyard = rolled.graveyard ∧
      next.nextFd = rolled.nextFd := by
  have same : ∀ handle : FileHandle, Extends handle handle :=
    fun _ => ⟨rfl, Nat.le_refl _, fun _ _ _ => rfl⟩
  cases rolls : log.maybeRoll rollMs with
  | threw failure rolled =>
      simp only [Log.append, rolls] at appended
      cases appended
      exact ⟨_, rfl, same _, rfl, rfl, rfl, rfl⟩
  | ruined failure =>
      simp only [Log.append, rolls] at appended
      cases appended
  | returned done rolled =>
      simp only [Log.append, rolls] at appended
      refine ⟨rolled, rfl, ?_⟩
      split at appended
      · cases appended
        exact ⟨same _, rfl, rfl, rfl, rfl⟩
      · next batch _ =>
        have longer := append_extends rolled.active rolled.logEndOffset batch clockMs fault
        split at appended
        · next active failure wrote =>
          cases appended
          rw [wrote] at longer
          exact ⟨longer, rfl, rfl, rfl, rfl⟩
        · next active done wrote =>
          cases appended
          rw [wrote] at longer
          exact ⟨longer, rfl, rfl, rfl, rfl⟩

structure HandedRange where
  range : FileRange
  bytes : Bytes
  atMs : Int

structure Serving where
  log : Log
  handed : List HandedRange
  nowMs : Int

inductive ServingCall where
  | read (offset : Int) (maxBytes : Nat)
  | append (batchBytes : Bytes) (fault : Option WriteFault)
  | maybeRoll
  | applyRetention
  | replaceSegment (baseOffset : Int) (cleanedLog : Bytes) (cleanedIndex : OffsetIndex)
  | removeSegment (baseOffset : Int)
  | sweepGraveyard

structure TimedCall where
  nowMs : Int
  call : ServingCall

/-- The bytes a send of this range would put on the wire now. -/
def Log.bytesAt (log : Log) (range : FileRange) : Option Bytes :=
  (log.owners.find? (·.log.fd == range.fd)).map (·.log.readAt range.position range.length)

def Log.perform (log : Log) (nowMs : Int) : ServingCall → Option Log
  | .read _ _ => some log
  | .append batchBytes fault => (log.append batchBytes nowMs nowMs fault).log
  | .maybeRoll => (log.maybeRoll nowMs).log
  | .applyRetention => some (log.applyRetention nowMs)
  | .replaceSegment baseOffset cleanedLog cleanedIndex =>
      (log.replaceSegment baseOffset cleanedLog cleanedIndex nowMs).log
  | .removeSegment baseOffset => some (log.removeSegment baseOffset nowMs).2
  | .sweepGraveyard => some (log.sweepGraveyard nowMs)

def Log.handsOut (log : Log) : ServingCall → Option FileRange
  | .read offset maxBytes =>
      match log.read offset maxBytes with
      | .error _ => none
      | .ok result => if result.range.length = 0 then none else some result.range
  | _ => none

/-- One call; the clock never runs backwards. -/
def Serving.step (timed : TimedCall) (state : Serving) : Option Serving :=
  if timed.nowMs < state.nowMs then none
  else do
    let log ← state.log.perform timed.nowMs timed.call
    let handed := (state.log.handsOut timed.call).toList.map fun range =>
      ⟨range, (state.log.bytesAt range).getD [], timed.nowMs⟩
    return ⟨log, state.handed ++ handed, timed.nowMs⟩

/-- Whether the call comes upon an active segment that is due to roll. -/
def Log.rollsDuring (log : Log) (timed : TimedCall) : Bool :=
  match timed.call with
  | .append _ _ | .maybeRoll => log.active.shouldRoll timed.nowMs
  | _ => false

/-- No roll while a range of the active segment may still be waiting to be sent. -/
def Serving.RollsLate (state : Serving) (timed : TimedCall) : Prop :=
  state.log.rollsDuring timed = true → ∀ handed ∈ state.handed,
    handed.range.fd = state.log.active.log.fd →
      state.log.config.retention.segmentDeleteDelayMs ≤ timed.nowMs - handed.atMs

/-- Every range handed out less than the delay ago can still be sent: a segment
of the log owns its descriptor and has the same bytes there. -/
def Serving.KeepsOpen (state : Serving) : Prop :=
  ∀ handed ∈ state.handed,
    state.nowMs - handed.atMs < state.log.config.retention.segmentDeleteDelayMs →
      ∃ owner ∈ state.log.owners, owner.log.fd = handed.range.fd ∧
        owner.log.readAt handed.range.position handed.range.length = handed.bytes

structure ServingHolds (state : Serving) : Prop where
  sorted : Sorted state.log.sealedMap
  distinct : (state.log.owners.map (·.log.fd)).Nodup
  numbered : ∀ owner ∈ state.log.owners, owner.log.fd < state.log.nextFd
  past : ∀ handed ∈ state.handed, handed.atMs ≤ state.nowMs ∧ handed.range.fd < state.log.nextFd
  frozen : ∀ handed ∈ state.handed, ∀ owner ∈ state.log.owners, owner.log.fd = handed.range.fd →
    handed.range.position + handed.range.length ≤ owner.log.size ∧
      owner.log.readAt handed.range.position handed.range.length = handed.bytes
  buried : ∀ handed ∈ state.handed, ∀ buried ∈ state.log.graveyard,
    buried.segment.log.fd = handed.range.fd → handed.atMs ≤ buried.unlinkedAtMs
  owned : ∀ handed ∈ state.handed,
    state.nowMs - handed.atMs < state.log.config.retention.segmentDeleteDelayMs →
      ∃ owner ∈ state.log.owners, owner.log.fd = handed.range.fd

theorem ServingHolds.keepsOpen {state : Serving} (holds : ServingHolds state) : state.KeepsOpen := by
  intro handed member recent
  obtain ⟨owner, isOwner, sameFd⟩ := holds.owned handed member recent
  exact ⟨owner, isOwner, sameFd, (holds.frozen handed member owner isOwner sameFd).2⟩

theorem holds_handover {state : Serving} {next : Log} {nowMs : Int} {closes : SegmentBase → Prop}
    (holds : ServingHolds state) (handover : Handover state.log next nowMs closes)
    (later : state.nowMs ≤ nowMs)
    (late : ∀ handed ∈ state.handed, ∀ owner ∈ state.log.owners, closes owner →
      owner.log.fd = handed.range.fd →
        state.log.config.retention.segmentDeleteDelayMs ≤ nowMs - handed.atMs) :
    ServingHolds ⟨next, state.handed, nowMs⟩ := by
  obtain ⟨fresh, members, freshDistinct, freshNumbers⟩ := handover.owners
  have old : ∀ owner ∈ next.owners, owner ∈ state.log.owners ∨ (state.log.nextFd : Int) ≤ owner.log.fd := by
    intro owner member
    rcases List.mem_append.mp (members.subset member) with new | known
    · exact .inr (freshNumbers owner new).1
    · exact .inl known
  have counts := handover.counts
  exact
    { sorted := handover.sorted
      distinct := by
        obtain ⟨middle, perm, sub⟩ := members
        rw [← (perm.map (·.log.fd)).nodup_iff]
        refine (sub.map (·.log.fd)).nodup ?_
        rw [List.map_append, List.nodup_append]
        refine ⟨freshDistinct, holds.distinct, ?_⟩
        rintro first isFresh second isOld rfl
        obtain ⟨segment, segmentFresh, rfl⟩ := List.mem_map.mp isFresh
        obtain ⟨owner, isOwner, same⟩ := List.mem_map.mp isOld
        have above := (freshNumbers segment segmentFresh).1
        have below := holds.numbered owner isOwner
        omega
      numbered := by
        intro owner member
        rcases List.mem_append.mp (members.subset member) with new | known
        · exact (freshNumbers owner new).2
        · have below := holds.numbered owner known
          simp only
          omega
      past := by
        intro handed member
        obtain ⟨past, below⟩ := holds.past handed member
        exact ⟨by simp only; omega, by simp only; omega⟩
      frozen := by
        intro handed member owner isOwner sameFd
        have below := (holds.past handed member).2
        rcases old owner isOwner with known | new
        · exact holds.frozen handed member owner known sameFd
        · omega
      buried := by
        intro handed member buried isBuried sameFd
        rcases handover.buried buried isBuried with known | new
        · exact holds.buried handed member buried known sameFd
        · have past := (holds.past handed member).1
          omega
      owned := by
        intro handed member recent
        simp only [handover.config] at recent
        obtain ⟨owner, isOwner, sameFd⟩ := holds.owned handed member (by omega)
        rcases handover.kept owner isOwner with stays | closed
        · exact ⟨owner, stays, sameFd⟩
        · have tooOld := late handed member owner isOwner closed sameFd
          omega }

theorem holds_write {state : Serving} {next : Log} (holds : ServingHolds state)
    (longer : Extends state.log.active.log next.active.log) (config : next.config = state.log.config)
    (map : next.sealedMap = state.log.sealedMap) (graveyard : next.graveyard = state.log.graveyard)
    (counts : next.nextFd = state.log.nextFd) : ServingHolds { state with log := next } := by
  have owners : next.owners = next.active.toSegmentBase ::
      (state.log.sealedMap ++ state.log.graveyard.map (·.segment)) := by
    rw [Log.owners, map, graveyard]
  have sameFds : next.owners.map (·.log.fd) = state.log.owners.map (·.log.fd) := by
    simp only [Log.owners, List.map_cons, longer.fd, map, graveyard]
  have active : state.log.active.toSegmentBase ∈ state.log.owners := by simp [Log.owners]
  have fdOf : ∀ owner ∈ next.owners, ∃ before ∈ state.log.owners, before.log.fd = owner.log.fd := by
    intro owner member
    have known : owner.log.fd ∈ state.log.owners.map (·.log.fd) :=
      sameFds ▸ List.mem_map_of_mem member
    exact List.mem_map.mp known
  exact
    { sorted := map ▸ holds.sorted
      distinct := sameFds ▸ holds.distinct
      numbered := by
        intro owner member
        obtain ⟨before, isOwner, same⟩ := fdOf owner member
        simp only [← same, counts]
        exact holds.numbered before isOwner
      past := by
        simp only [counts]
        exact holds.past
      frozen := by
        intro handed member owner isOwner sameFd
        rw [owners] at isOwner
        rcases List.mem_cons.mp isOwner with rfl | other
        · obtain ⟨inside, same⟩ := holds.frozen handed member _ active (longer.fd ▸ sameFd)
          exact ⟨inside.trans longer.size, (longer.keeps _ _ inside).trans same⟩
        · exact holds.frozen handed member owner (List.mem_cons_of_mem _ other) sameFd
      buried := by
        simp only [graveyard]
        exact holds.buried
      owned := by
        intro handed member recent
        simp only [config] at recent
        obtain ⟨owner, isOwner, sameFd⟩ := holds.owned handed member recent
        have known : owner.log.fd ∈ next.owners.map (·.log.fd) := sameFds ▸ List.mem_map_of_mem isOwner
        obtain ⟨heir, isHeir, same⟩ := List.mem_map.mp known
        exact ⟨heir, isHeir, same.trans sameFd⟩ }

theorem owner_unique {owners : List SegmentBase} (distinct : (owners.map (·.log.fd)).Nodup)
    {first second : SegmentBase} (isFirst : first ∈ owners) (isSecond : second ∈ owners)
    (same : first.log.fd = second.log.fd) : first = second :=
  List.inj_on_of_nodup_map distinct isFirst isSecond same

theorem holds_hand_out {state : Serving} {range : FileRange} {owner : SegmentBase} {nowMs : Int}
    (holds : ServingHolds state) (later : state.nowMs ≤ nowMs)
    (isOwner : owner ∈ state.log.active.toSegmentBase :: state.log.sealedMap)
    (sameFd : range.fd = owner.log.fd) (inside : range.position + range.length ≤ owner.log.size) :
    ServingHolds ⟨state.log, state.handed ++ [⟨range, (state.log.bytesAt range).getD [], nowMs⟩], nowMs⟩ := by
  have split : state.log.owners =
      (state.log.active.toSegmentBase :: state.log.sealedMap) ++ state.log.graveyard.map (·.segment) := rfl
  have member : owner ∈ state.log.owners := by
    rw [split]
    exact List.mem_append_left _ isOwner
  obtain ⟨found, isFound, foundFd⟩ : ∃ found, state.log.owners.find? (·.log.fd == range.fd) = some found ∧
      found = owner := by
    cases search : state.log.owners.find? (·.log.fd == range.fd) with
    | none =>
        have missing := List.find?_eq_none.mp search owner member
        simp [sameFd] at missing
    | some found =>
        refine ⟨found, rfl, owner_unique holds.distinct (List.mem_of_find?_eq_some search) member ?_⟩
        have named := List.find?_some search
        rw [← sameFd]
        simpa using named
  subst foundFd
  have bytes : (state.log.bytesAt range).getD [] = found.log.readAt range.position range.length := by
    simp [Log.bytesAt, isFound]
  have both : ∀ {holds : HandedRange → Prop}, (∀ handed ∈ state.handed, holds handed) →
      holds ⟨range, (state.log.bytesAt range).getD [], nowMs⟩ →
      ∀ handed ∈ state.handed ++ [⟨range, (state.log.bytesAt range).getD [], nowMs⟩], holds handed := by
    intro holds earlier new handed isHanded
    rcases List.mem_append.mp isHanded with known | last
    · exact earlier handed known
    · exact List.mem_singleton.mp last ▸ new
  exact
    { sorted := holds.sorted
      distinct := holds.distinct
      numbered := holds.numbered
      past := by
        refine both (fun handed isHanded => ?_) ⟨Int.le_refl _, sameFd ▸ holds.numbered found member⟩
        obtain ⟨past, below⟩ := holds.past handed isHanded
        exact ⟨past.trans later, below⟩
      frozen := by
        refine both holds.frozen ?_
        intro other isOther named
        have same := owner_unique holds.distinct isOther member (named.trans sameFd)
        exact ⟨same ▸ inside, by rw [same, bytes]⟩
      buried := by
        refine both holds.buried ?_
        intro buried isBuried named
        have separate := (List.nodup_append.mp (by
          have distinct := holds.distinct
          rw [split, List.map_append] at distinct
          exact distinct)).2.2
        exact absurd (sameFd.symm.trans named.symm) (separate _ (List.mem_map_of_mem isOwner) _
          (List.mem_map_of_mem (List.mem_map_of_mem isBuried)))
      owned := by
        refine both (fun handed isHanded recent => holds.owned handed isHanded ?_) ?_
        · simp only at recent
          omega
        · exact fun _ => ⟨found, member, sameFd.symm⟩ }

theorem holds_idle {state : Serving} {nowMs : Int} (holds : ServingHolds state)
    (later : state.nowMs ≤ nowMs) : ServingHolds ⟨state.log, state.handed, nowMs⟩ :=
  holds_handover holds (handover_same nowMs (fun _ => False) holds.sorted rfl (Nat.le_refl _) rfl rfl rfl)
    later (fun _ _ _ _ closed => closed.elim)

theorem holds_kept {state : Serving} {next : Log} {nowMs : Int} (holds : ServingHolds state)
    (later : state.nowMs ≤ nowMs) (handover : Handover state.log next nowMs fun _ => False) :
    ServingHolds ⟨next, state.handed, nowMs⟩ :=
  holds_handover holds handover later fun _ _ _ _ closed => closed.elim

theorem holds_rolled {state : Serving} {next : Log} {nowMs : Int} (holds : ServingHolds state)
    (later : state.nowMs ≤ nowMs) (rolled : (state.log.maybeRoll nowMs).log = some next)
    (late : state.log.active.shouldRoll nowMs = true → ∀ handed ∈ state.handed,
      handed.range.fd = state.log.active.log.fd →
        state.log.config.retention.segmentDeleteDelayMs ≤ nowMs - handed.atMs) :
    ServingHolds ⟨next, state.handed, nowMs⟩ := by
  refine holds_handover holds (roll_handover holds.sorted rolled) later ?_
  rintro handed member owner _ ⟨due, rfl⟩ sameFd
  exact late due handed member sameFd.symm

theorem holds_step {state next : Serving} {timed : TimedCall} (holds : ServingHolds state)
    (late : state.RollsLate timed) (taken : Serving.step timed state = some next) :
    ServingHolds next := by
  obtain ⟨nowMs, call⟩ := timed
  unfold Serving.step at taken
  split at taken
  · cases taken
  next later =>
  have forward : state.nowMs ≤ nowMs := by
    simp only at later
    omega
  obtain ⟨log, performed, made⟩ := Option.bind_eq_some_iff.mp taken
  cases made
  simp only at performed
  cases call with
  | read offset maxBytes =>
      cases performed
      simp only [Log.handsOut]
      cases answered : state.log.read offset maxBytes with
      | error failure => simpa using holds_idle holds forward
      | ok result =>
          by_cases empty : result.range.length = 0
          · simpa [empty] using holds_idle holds forward
          · rcases log_read_inside answered with nothing | ⟨owner, isOwner, sameFd, inside⟩
            · exact absurd nothing empty
            · simpa [empty] using holds_hand_out holds forward isOwner sameFd inside
  | append batchBytes fault =>
      obtain ⟨rolled, moved, longer, config, map, graveyard, counts⟩ := append_hands_over performed
      have rolledHolds := holds_rolled holds forward moved late
      simpa [Log.handsOut] using holds_write rolledHolds longer config map graveyard counts
  | maybeRoll => simpa [Log.handsOut] using holds_rolled holds forward performed late
  | applyRetention =>
      cases performed
      simpa [Log.handsOut] using holds_kept holds forward (retention_handover nowMs holds.sorted)
  | replaceSegment baseOffset cleanedLog cleanedIndex =>
      simpa [Log.handsOut] using holds_kept holds forward (replace_handover holds.sorted performed)
  | removeSegment baseOffset =>
      cases performed
      simpa [Log.handsOut] using
        holds_kept holds forward (remove_handover baseOffset nowMs holds.sorted)
  | sweepGraveyard =>
      cases performed
      have swept := holds_handover holds (sweep_handover nowMs holds.sorted) forward
        (by
          rintro handed member owner _ ⟨buried, isBuried, rfl, old⟩ sameFd
          have taken := holds.buried handed member buried isBuried sameFd
          omega)
      simpa [Log.handsOut] using swept

/-- What a log needs to start from: its segments in order, each with its own
descriptor, and nothing buried. -/
structure Log.Unshared (log : Log) : Prop where
  sorted : Sorted log.sealedMap
  distinct : (log.owners.map (·.log.fd)).Nodup
  numbered : ∀ owner ∈ log.owners, owner.log.fd < log.nextFd

theorem create_unshared {tp : TopicPartition} {dir : String} {config : LogConfig} {log : Log}
    (made : Log.create tp dir config = .ok log) : log.Unshared := by
  obtain ⟨active, created, result⟩ := except_bind_ok made
  cases Except.ok.inj result
  obtain ⟨_, _, _, _, fd, _⟩ := create_active_spec created
  have only : (Log.ofSegments tp dir (encodePartitionMeta ⟨tp, config⟩) config [] active 1).owners =
      [active.toSegmentBase] := rfl
  refine ⟨List.Pairwise.nil, by simp [only], ?_⟩
  intro owner member
  rw [only, List.mem_singleton] at member
  subst member
  rw [fd]
  simp [Log.ofSegments]

theorem open_sealed_segments_ok {dir : String} {fd : Nat} {segments : List SegmentFiles}
    {opened : List SealedSegment} (all : openSealedSegments dir fd segments = .ok opened) :
    opened.map (·.baseOffset) = segments.map (·.baseOffset) ∧ (opened.map (·.log.fd)).Nodup ∧
      ∀ segment ∈ opened, (fd : Int) ≤ segment.log.fd ∧ segment.log.fd < fd + segments.length := by
  induction segments generalizing fd opened with
  | nil =>
      cases Except.ok.inj all
      simp
  | cons files rest ih =>
      obtain ⟨segment, first, all⟩ := except_bind_ok all
      obtain ⟨segments, others, made⟩ := except_bind_ok all
      cases Except.ok.inj made
      obtain ⟨sameFd, base⟩ := open_sealed_ok first
      obtain ⟨bases, distinct, numbers⟩ := ih others
      refine ⟨by simp [base, bases], ?_, ?_⟩
      · refine List.nodup_cons.mpr ⟨?_, distinct⟩
        intro again
        obtain ⟨other, isOther, same⟩ := List.mem_map.mp again
        have above := (numbers other isOther).1
        simp only at same
        omega
      · intro other member
        rw [List.length_cons]
        rcases List.mem_cons.mp member with rfl | behind
        · omega
        · have := numbers other behind
          omega

theorem open_unshared {tp : TopicPartition} {dir : String} {files : PartitionDir}
    {fallback : LogConfig} {clockMs : Int} {log : Log}
    (sorted : files.segments.Pairwise fun earlier later => earlier.baseOffset < later.baseOffset)
    (opened : Log.open tp dir files fallback clockMs = .ok log) : log.Unshared := by
  unfold Log.open at opened
  split at opened
  · obtain ⟨⟨config, written⟩, _, opened⟩ := except_bind_ok opened
    obtain ⟨active, created, made⟩ := except_bind_ok opened
    cases Except.ok.inj made
    obtain ⟨_, _, _, _, fd, _⟩ := create_active_spec created
    refine ⟨List.Pairwise.nil, by simp [Log.owners, Log.ofSegments], ?_⟩
    intro owner member
    simp only [Log.owners, Log.ofSegments, List.map_nil, List.append_nil, List.mem_singleton] at member
    subst member
    rw [fd]
    simp [Log.ofSegments]
  · next newest isNewest =>
    obtain ⟨sealedMap, all, opened⟩ := except_bind_ok opened
    obtain ⟨⟨config, written⟩, _, opened⟩ := except_bind_ok opened
    obtain ⟨_, _, opened⟩ := except_bind_ok opened
    obtain ⟨active, recovered, made⟩ := except_bind_ok opened
    cases Except.ok.inj made
    obtain ⟨bases, distinct, numbers⟩ := open_sealed_segments_ok all
    have activeFd : active.log.fd = files.segments.length := by
      obtain ⟨index, _, recovered⟩ := except_bind_ok recovered
      obtain ⟨⟨good, state⟩, _, made⟩ := except_bind_ok recovered
      cases Except.ok.inj made
      simp only
      split <;> rfl
    have owners : (Log.ofSegments tp dir written config sealedMap active
        (files.segments.length + 1)).owners = active.toSegmentBase :: sealedMap := by
      simp [Log.owners, Log.ofSegments]
    have below : ∀ segment ∈ sealedMap, segment.log.fd < files.segments.length := by
      intro segment member
      have number := (numbers segment member).2
      have shorter : files.segments.dropLast.length ≤ files.segments.length := by simp
      omega
    refine ⟨?_, ?_, ?_⟩
    · have sortedFiles := List.pairwise_map.mpr (sorted.sublist (List.dropLast_sublist files.segments))
      rw [← bases] at sortedFiles
      exact List.pairwise_map.mp sortedFiles
    · rw [owners, List.map_cons, List.nodup_cons]
      refine ⟨?_, distinct⟩
      intro again
      obtain ⟨other, isOther, same⟩ := List.mem_map.mp again
      have := below other isOther
      omega
    · intro owner member
      rw [owners] at member
      simp only [Log.ofSegments]
      rcases List.mem_cons.mp member with rfl | isSealed
      · omega
      · have := below owner isSealed
        omega

/-- A log as a process gets it: made in an empty directory, or opened from the
files of one, which are listed by base offset. -/
def Log.Started (log : Log) : Prop :=
  (∃ tp dir config, Log.create tp dir config = .ok log) ∨
    ∃ tp dir files fallback clockMs, Log.open tp dir files fallback clockMs = .ok log ∧
      files.segments.Pairwise fun earlier later => earlier.baseOffset < later.baseOffset

/-- A range a read hands out stays open on the same bytes for the delay, as
long as no roll comes within the delay of a read of the active segment. -/
theorem handed_ranges_stay_open {log : Log} {startMs : Int} {final : Serving} (started : log.Started)
    (reached : GuardedRun.Reaches Serving.step (fun state timed => state.RollsLate timed)
      ⟨log, [], startMs⟩ final) : final.KeepsOpen := by
  have unshared : log.Unshared := by
    rcases started with ⟨_, _, _, made⟩ | ⟨_, _, _, _, _, opened, sorted⟩
    · exact create_unshared made
    · exact open_unshared sorted opened
  have holds := reached.invariant Serving.step _ ServingHolds
    { sorted := unshared.sorted
      distinct := unshared.distinct
      numbered := unshared.numbered
      past := by simp
      frozen := by simp
      buried := by simp
      owned := by simp }
    (fun state timed next holds late taken => holds_step holds late taken)
  exact holds.keepsOpen

instance (state : Serving) (timed : TimedCall) : Decidable (state.RollsLate timed) :=
  inferInstanceAs (Decidable (_ = true → ∀ handed ∈ _, _))

def readThenRoll (rollMs : Int) : List TimedCall :=
  [⟨0, .append (recordBatchOf 0 none (some [118])) none⟩,
    ⟨0, .append (recordBatchOf 0 none (some [118])) none⟩, ⟨0, .read 0 4096⟩, ⟨rollMs, .maybeRoll⟩]

theorem handed_ranges_stay_open_late_roll :
    ∃ (log : Log) (final : Serving), Log.create ⟨[116], 0⟩ "t-0" twoBatchConfig = .ok log ∧
      final.handed.length = 1 ∧ final.log.sealedMap.length = 1 ∧ final.KeepsOpen := by
  obtain ⟨log, final, made, reached, checked⟩ := found_from_creation Serving.step
    (fun state timed => state.RollsLate timed) (⟨·, [], 0⟩) ⟨[116], 0⟩ "t-0" twoBatchConfig
    (fun state => state.handed.length == 1 && state.log.sealedMap.length == 1)
    (readThenRoll 60000) (by decide +kernel)
  simp only [Bool.and_eq_true, beq_iff_eq] at checked
  exact ⟨log, final, made, checked.1, checked.2,
    handed_ranges_stay_open (.inl ⟨_, _, _, made⟩) reached⟩

theorem roll_closes_handed_range :
    ¬ ∀ (log : Log) (startMs : Int) (final : Serving), log.Started →
      GuardedRun.Reaches Serving.step (fun _ _ => True) ⟨log, [], startMs⟩ final → final.KeepsOpen := by
  intro all
  refine refuted_from_creation Serving.step (fun _ _ => True) (⟨·, [], 0⟩) ⟨[116], 0⟩ "t-0"
    twoBatchConfig Serving.KeepsOpen
    (fun state => state.handed.all fun handed =>
      !decide (state.nowMs - handed.atMs < state.log.config.retention.segmentDeleteDelayMs) ||
        state.log.owners.any (·.log.fd == handed.range.fd)) ?_ (readThenRoll 1) (by decide +kernel) ?_
  · intro state keeps
    simp only [List.all_eq_true, Bool.or_eq_true, Bool.not_eq_true', decide_eq_false_iff_not]
    intro handed member
    by_cases recent : state.nowMs - handed.atMs < state.log.config.retention.segmentDeleteDelayMs
    · obtain ⟨owner, isOwner, sameFd, _⟩ := keeps handed member recent
      exact .inr (List.any_eq_true.mpr ⟨owner, isOwner, by simpa using sameFd⟩)
    · exact .inl recent
  · intro log final made reached
    exact all log 0 final (.inl ⟨_, _, _, made⟩) reached

end DariyaKyu.Storage

import DariyaKyu.Storage.SegmentScan

/-!
The invariant of a log over whole runs, and what each operation does to the
batches it holds. Sealed segments are never empty and never overlap; on a log
that has not been compacted each ends exactly where the next begins. A failed
append does not break the invariant; only a roll or an open that comes upon
what it left behind can.
-/

namespace DariyaKyu.Storage

set_option autoImplicit false

/-- Where the segment behind a sealed one begins. -/
def nextBase (newest : Int) (rest : List SealedSegment) : Int :=
  (rest.head?.map (·.baseOffset)).getD newest

/-- No sealed segment is empty, and each ends in this relation to the next. -/
def Linked (close : Int → Int → Prop) (newest : Int) : List SealedSegment → Prop
  | [] => True
  | segment :: rest => segment.baseOffset < segment.nextOffset ∧
      close segment.nextOffset (nextBase newest rest) ∧ Linked close newest rest

structure LogHolds (log : Log) : Prop where
  sealedHolds : ∀ segment ∈ log.sealedMap, SealedHolds segment (batchesIn segment)
  activeHolds : ActiveHolds log.dir log.active (batchesIn log.active.toSegmentBase)
  linked : Linked (· ≤ ·) log.active.baseOffset log.sealedMap
  ends : log.logEndOffset = log.active.nextOffset
  policy : log.active.policy = log.config.roll
  stored : ∃ bytes, log.partitionMeta = some bytes ∧
    decodePartitionMeta bytes = .ok ⟨log.tp, log.config.reloaded⟩
  storable : log.config.Storable

/-- A log in which no append has failed since the last batch. -/
structure LogSettled (log : Log) : Prop extends LogHolds log where
  settled : ActiveSettled log.dir log.active (batchesIn log.active.toSegmentBase)

def Log.batches (log : Log) : List Bytes :=
  log.sealedMap.flatMap batchesIn ++ batchesIn log.active.toSegmentBase

section Linked

variable {close : Int → Int → Prop} {newest : Int}

@[simp] theorem next_base_concat (rest : List SealedSegment) (segment : SealedSegment) :
    nextBase newest (rest ++ [segment]) = nextBase segment.baseOffset rest := by
  cases rest <;> rfl

theorem linked_concat {segments : List SealedSegment} {segment : SealedSegment} :
    Linked close newest (segments ++ [segment]) ↔
      Linked close segment.baseOffset segments ∧ segment.baseOffset < segment.nextOffset ∧
        close segment.nextOffset newest := by
  induction segments with
  | nil => simp [Linked, nextBase]
  | cons first segments ih =>
      simp only [List.cons_append, Linked, next_base_concat, ih]
      tauto

theorem linked_drop {segments : List SealedSegment} (linked : Linked close newest segments)
    (count : Nat) : Linked close newest (segments.drop count) := by
  induction segments generalizing count with
  | nil => simp [Linked]
  | cons first segments ih =>
      cases count with
      | zero => exact linked
      | succ count => exact ih linked.2.2 count

theorem linked_mono {wide : Int → Int → Prop} (widen : ∀ ends begins, close ends begins → wide ends begins)
    {segments : List SealedSegment} (linked : Linked close newest segments) :
    Linked wide newest segments := by
  induction segments with
  | nil => trivial
  | cons first segments ih => exact ⟨linked.1, widen _ _ linked.2.1, ih linked.2.2⟩

theorem linked_head_below {segments : List SealedSegment} {first : SealedSegment}
    (linked : Linked (· ≤ ·) newest (first :: segments)) : first.nextOffset ≤ newest := by
  induction segments generalizing first with
  | nil => exact linked.2.1
  | cons second segments ih =>
      obtain ⟨_, ends, later⟩ := linked
      have occupied := later.1
      have behind := ih later
      simp only [nextBase, List.head?_cons, Option.map_some, Option.getD_some] at ends
      omega

theorem linked_below {segments : List SealedSegment} (linked : Linked (· ≤ ·) newest segments)
    {segment : SealedSegment} (member : segment ∈ segments) :
    segment.baseOffset < segment.nextOffset ∧ segment.nextOffset ≤ newest := by
  induction segments with
  | nil => cases member
  | cons first segments ih =>
      rcases List.mem_cons.mp member with rfl | behind
      · exact ⟨linked.1, linked_head_below linked⟩
      · exact ih linked.2.2 behind

theorem next_base_le {segments : List SealedSegment}
    (linked : Linked (· ≤ ·) newest segments) : nextBase newest segments ≤ newest := by
  cases segments with
  | nil => exact Int.le_refl newest
  | cons first rest =>
      have below := linked_below linked (List.mem_cons_self)
      simp only [nextBase, List.head?_cons, Option.map_some, Option.getD_some]
      omega

theorem linked_meets {ahead behind : List SealedSegment} {segment : SealedSegment}
    (linked : Linked close newest (ahead ++ segment :: behind)) :
    close segment.nextOffset (nextBase newest behind) := by
  induction ahead with
  | nil => exact linked.2.1
  | cons first ahead ih => exact ih linked.2.2

theorem linked_front {before after : List SealedSegment} (linked : Linked close newest (before ++ after)) :
    Linked close (nextBase newest after) before := by
  induction before with
  | nil => trivial
  | cons first before ih =>
      obtain ⟨spans, ends, later⟩ := linked
      refine ⟨spans, ?_, ih later⟩
      cases before <;> exact ends

theorem linked_before {before after : List SealedSegment} {segment earlier : SealedSegment}
    (linked : Linked (· ≤ ·) newest (before ++ segment :: after)) (member : earlier ∈ before) :
    earlier.baseOffset < earlier.nextOffset ∧ earlier.nextOffset ≤ segment.baseOffset :=
  linked_below (linked_front linked) member

theorem begin_behind {front back : List SealedSegment} {offset : Int}
    (linked : Linked (· ≤ ·) newest (front ++ back))
    (stops : ∀ segment ∈ back.head?, offset ≤ segment.baseOffset) :
    ∀ segment ∈ back, offset ≤ segment.baseOffset := by
  cases back with
  | nil => simp
  | cons first behind =>
      have starts := stops first rfl
      intro segment member
      rcases List.mem_cons.mp member with rfl | later
      · exact starts
      · obtain ⟨middle, rest, split⟩ := List.append_of_mem later
        have shape : front ++ first :: behind = (front ++ first :: middle) ++ segment :: rest := by
          simp [split]
        rw [shape] at linked
        have before := linked_before linked (List.mem_append_right front List.mem_cons_self)
        omega

theorem emplace_behind {segments : List SealedSegment} {segment : SealedSegment}
    (above : ∀ other ∈ segments, other.baseOffset < segment.baseOffset) :
    emplaceSegment segment segments = segments ++ [segment] := by
  induction segments with
  | nil => rfl
  | cons first segments ih =>
      have here := above first (by simp)
      rw [emplaceSegment, if_neg (by omega), if_neg (by omega),
        ih (fun other member => above other (by simp [member]))]
      rfl

end Linked

theorem batches_in_sealed {segment : SealedSegment} {batches : List Bytes}
    (holds : SealedHolds segment batches) : SealedHolds segment (batchesIn segment) := by
  rw [batches_in_eq holds.toHoldsBatches]
  exact holds

theorem batches_in_active {dir : String} {segment : ActiveSegment} {batches : List Bytes}
    (holds : ActiveHolds dir segment batches) : batchesIn segment.toSegmentBase = batches :=
  batches_in_eq holds.segmentHolds.toHoldsBatches

theorem create_active_spec {fd : Int} {dir : String} {base : Int} {policy : RollPolicy}
    {segment : ActiveSegment} (created : ActiveSegment.create fd dir base policy false = .ok segment) :
    ActiveSettled dir segment [] ∧ segment.baseOffset = base ∧ segment.nextOffset = base ∧
      segment.policy = policy ∧ segment.log.fd = fd ∧ segment.log.bytes = [] := by
  simp only [ActiveSegment.create, Bool.false_eq_true, if_false] at created
  obtain ⟨index, indexed, made⟩ := except_bind_ok created
  cases Except.ok.inj made
  have built : BuiltIndex dir base policy [] ⟨index, 0⟩ := ⟨index, indexed, rfl⟩
  refine ⟨?_, rfl, rfl, rfl, rfl, rfl⟩
  exact
    { shaped := by simp
      intact := by simp
      front := List.nil_prefix
      tight := rfl
      consecutive := trivial
      ends := rfl
      largest := rfl
      built := ⟨_, built, .inl rfl⟩
      whole := rfl
      plain := built }

theorem create_active_succeeds {dir : String} {base : Int} {policy : RollPolicy}
    {batches : List Bytes} {state : IndexState} (built : BuiltIndex dir base policy batches state)
    (fd : Int) (newBase : Int) :
    ∃ segment, ActiveSegment.create fd dir newBase policy false = .ok segment := by
  obtain ⟨fresh, created, _⟩ := built
  unfold OffsetIndex.create at created
  split at created
  · cases created
  · next room =>
    simp only [ActiveSegment.create, OffsetIndex.create, room, Bool.false_eq_true, if_false,
      except_ok_bind]
    exact ⟨_, rfl⟩

/-- What a roll does: nothing, or it seals the active segment and puts an empty
one behind it. -/
structure Rolled (log : Log) (segment : SealedSegment) (active : ActiveSegment) : Prop where
  holds : SealedHolds segment (batchesIn log.active.toSegmentBase)
  base : segment.baseOffset = log.active.baseOffset
  next : segment.nextOffset = log.active.nextOffset
  bytes : segment.log.bytes = log.active.log.bytes
  entries : segment.index.entries = log.active.index.entries
  fd : segment.log.fd = log.nextFd + 1
  fresh : ActiveSettled log.dir active []
  begins : active.baseOffset = log.active.nextOffset
  policy : active.policy = log.active.policy
  activeFd : active.log.fd = log.nextFd

theorem should_roll_occupied {segment : ActiveSegment} {nowMs : Int}
    (rolls : segment.shouldRoll nowMs = true) : segment.nextOffset ≠ segment.baseOffset := by
  unfold ActiveSegment.shouldRoll at rolls
  split at rolls
  · cases rolls
  · next occupied => simpa [SegmentBase.isEmpty] using occupied

theorem maybe_roll_cases {log : Log} (holds : LogHolds log) {nowMs : Int}
    (undangling : log.active.shouldRoll nowMs = true → log.active.undangling = true)
    (quiet : log.active.shouldRoll nowMs = true → log.active.quietTail = true) :
    (log.active.shouldRoll nowMs = false ∧ log.maybeRoll nowMs = .returned () log) ∨
      (log.active.shouldRoll nowMs = true ∧ ∃ segment active, Rolled log segment active ∧
        log.maybeRoll nowMs = .returned ()
          { log with
            sealedMap := log.sealedMap ++ [segment]
            active := active
            nextFd := log.nextFd + 2 }) := by
  cases rolls : log.active.shouldRoll nowMs with
  | false => exact .inl ⟨rfl, by simp [Log.maybeRoll, rolls]⟩
  | true =>
      refine .inr ⟨rfl, ?_⟩
      have active := holds.activeHolds
      have above : log.active.baseOffset < log.active.nextOffset := by
        have occupied := should_roll_occupied rolls
        have ordered := start_le_end active.consecutive.ascending
        rw [← active.ends] at ordered
        omega
      obtain ⟨sealedIs, sealedHolds⟩ := seal_spec active (undangling rolls) (quiet rolls) (log.nextFd + 1)
      obtain ⟨plain, built, _⟩ := active.built
      obtain ⟨next, created⟩ := create_active_succeeds built log.nextFd log.active.nextOffset
      obtain ⟨fresh, base, _, policy, fd, _⟩ := create_active_spec created
      have untaken : log.holdsFile log.active.nextOffset = false := by
        simp only [Log.holdsFile, Bool.or_eq_false_iff, beq_eq_false_iff_ne, List.any_eq_false]
        refine ⟨by omega, ?_⟩
        intro segment member
        have below := linked_below holds.linked member
        simp only [beq_iff_eq]
        omega
      have behind : ∀ other ∈ log.sealedMap, other.baseOffset < log.active.baseOffset := by
        intro other member
        have below := linked_below holds.linked member
        omega
      refine ⟨_, next, ⟨sealedHolds, rfl, active.ends.symm, rfl, rfl, rfl, fresh, base, policy, fd⟩, ?_⟩
      rw [holds.policy] at created
      simp only [Log.maybeRoll, rolls, Bool.true_eq_false, if_false, untaken, created, sealedIs]
      rw [emplace_behind (by simpa [sealedSegment] using behind)]

theorem rolled_batches {log : Log} {segment : SealedSegment} {active : ActiveSegment}
    (rolled : Rolled log segment active) :
    batchesIn segment = batchesIn log.active.toSegmentBase ∧ batchesIn active.toSegmentBase = [] :=
  ⟨batches_in_eq rolled.holds.toHoldsBatches, batches_in_active rolled.fresh.toActiveHolds⟩

theorem rolled_settled {log : Log} (holds : LogHolds log) {segment : SealedSegment}
    {active : ActiveSegment} (rolled : Rolled log segment active)
    (occupied : log.active.nextOffset ≠ log.active.baseOffset) (nextFd : Nat) :
    LogSettled { log with
      sealedMap := log.sealedMap ++ [segment], active := active, nextFd := nextFd } := by
  obtain ⟨sealedBatches, activeBatches⟩ := rolled_batches rolled
  have ordered := start_le_end holds.activeHolds.consecutive.ascending
  rw [← holds.activeHolds.ends] at ordered
  exact
    { sealedHolds := by
        intro other member
        rcases List.mem_append.mp member with earlier | same
        · exact holds.sealedHolds other earlier
        · simp only [List.mem_singleton] at same
          subst same
          exact batches_in_sealed rolled.holds
      activeHolds := by
        simp only [activeBatches]
        exact rolled.fresh.toActiveHolds
      linked := by
        rw [linked_concat]
        refine ⟨rolled.base ▸ holds.linked, ?_, ?_⟩
        · rw [rolled.base, rolled.next]
          omega
        · rw [rolled.next, rolled.begins]
      ends := by
        rw [holds.ends, ← rolled.begins]
        exact rolled.fresh.ends.symm
      policy := by
        rw [← holds.policy]
        exact rolled.policy
      stored := holds.stored
      storable := holds.storable
      settled := by
        simp only [activeBatches]
        exact rolled.fresh }

/-- What no operation after the creation of a log changes. -/
structure SameIdentity (before after : Log) : Prop where
  tp : after.tp = before.tp
  dir : after.dir = before.dir
  partitionMeta : after.partitionMeta = before.partitionMeta
  config : after.config = before.config

theorem SameIdentity.refl (log : Log) : SameIdentity log log := ⟨rfl, rfl, rfl, rfl⟩

/-- A roll that finds the active segment in order moves batches, not offsets. -/
theorem maybe_roll_spec {log : Log} (holds : LogHolds log) {nowMs : Int}
    (undangling : log.active.shouldRoll nowMs = true → log.active.undangling = true)
    (quiet : log.active.shouldRoll nowMs = true → log.active.quietTail = true) :
    ∃ rolled, log.maybeRoll nowMs = .returned () rolled ∧ LogHolds rolled ∧
      SameIdentity log rolled ∧ rolled.batches = log.batches ∧
      rolled.logEndOffset = log.logEndOffset ∧ (LogSettled log → LogSettled rolled) := by
  rcases maybe_roll_cases holds undangling quiet with ⟨_, stays⟩ | ⟨rolls, segment, active, rolled, moves⟩
  · exact ⟨log, stays, holds, .refl log, rfl, rfl, id⟩
  · have settled := rolled_settled holds rolled (should_roll_occupied rolls) (log.nextFd + 2)
    obtain ⟨sealedBatches, activeBatches⟩ := rolled_batches rolled
    refine ⟨_, moves, settled.toLogHolds, ⟨rfl, rfl, rfl, rfl⟩, ?_, rfl, fun _ => settled⟩
    simp [Log.batches, sealedBatches, activeBatches]

theorem settled_clear {log : Log} (settled : LogSettled log) (nowMs : Int) :
    (log.active.shouldRoll nowMs = true → log.active.undangling = true) ∧
      (log.active.shouldRoll nowMs = true → log.active.quietTail = true) := by
  obtain ⟨undangling, quiet⟩ := settled_seals settled.settled
  exact ⟨fun _ => undangling, fun _ => quiet⟩

theorem base_of_stamped (batch : Bytes) (base : Int) :
    baseOf (stamped batch base) = asSigned 64 (asUnsigned 64 base) := by
  rw [baseOf, header_of_stamped]

theorem with_active_holds {log : Log} {active : ActiveSegment} {batches : List Bytes} {ends : Int}
    (watermark : Int)
    (holds : LogHolds log) (activeHolds : ActiveHolds log.dir active batches)
    (base : active.baseOffset = log.active.baseOffset) (policy : active.policy = log.active.policy)
    (next : ends = active.nextOffset) :
    LogHolds { log with active := active, logEndOffset := ends, highWatermark := watermark } where
  sealedHolds := holds.sealedHolds
  activeHolds := by
    simp only [batches_in_active activeHolds]
    exact activeHolds
  linked := base ▸ holds.linked
  ends := next
  policy := policy.trans holds.policy
  stored := holds.stored
  storable := holds.storable

/-- The two ways an append can end, after a roll that went well. -/
theorem append_spec {log : Log} (holds : LogHolds log) {batch : Bytes} (intact : IntactBatch batch)
    {rollMs : Int} (clockMs : Int) (fault : Option WriteFault)
    (undangling : log.active.shouldRoll rollMs = true → log.active.undangling = true)
    (quiet : log.active.shouldRoll rollMs = true → log.active.quietTail = true) :
    ∃ rolled, log.maybeRoll rollMs = .returned () rolled ∧
      ((∃ active, log.append batch rollMs clockMs fault = .returned log.logEndOffset
            { rolled with
              active := active
              logEndOffset := active.nextOffset
              highWatermark := active.nextOffset } ∧
          fault = none ∧ FitsSigned 64 log.logEndOffset ∧
          ActiveHolds rolled.dir active
            (batchesIn rolled.active.toSegmentBase ++ [stamped batch log.logEndOffset]) ∧
          (LogSettled log → ActiveSettled rolled.dir active
            (batchesIn rolled.active.toSegmentBase ++ [stamped batch log.logEndOffset])) ∧
          active.baseOffset = rolled.active.baseOffset ∧ active.policy = rolled.active.policy ∧
          active.log.fd = rolled.active.log.fd ∧
          active.nextOffset = lastOf (stamped batch log.logEndOffset) + 1) ∨
        (∃ failure active, log.append batch rollMs clockMs fault =
            .threw failure { rolled with active := active } ∧
          ActiveHolds rolled.dir active (batchesIn rolled.active.toSegmentBase) ∧
          (fault = none → active = rolled.active) ∧
          active.baseOffset = rolled.active.baseOffset ∧ active.policy = rolled.active.policy ∧
          active.log.fd = rolled.active.log.fd ∧ active.log.size = rolled.active.log.size ∧
          active.nextOffset = rolled.active.nextOffset)) := by
  obtain ⟨rolled, moved, rolledHolds, same, _, ends, settles⟩ := maybe_roll_spec holds undangling quiet
  refine ⟨rolled, moved, ?_⟩
  have stampedIntact := intact.stamped log.logEndOffset
  have next : rolled.active.nextOffset = log.logEndOffset := by rw [← rolledHolds.ends, ends]
  simp only [Log.append, moved, ends, stamp_base_offset_eq batch _ intact.long]
  by_cases range : baseOf (stamped batch log.logEndOffset) = log.logEndOffset
  · cases appended : rolled.active.append log.logEndOffset (stamped batch log.logEndOffset) clockMs fault with
    | mk active result =>
        rw [← next] at appended
        have starts : baseOf (stamped batch log.logEndOffset) = rolled.active.nextOffset :=
          range.trans next.symm
        rw [next] at starts
        cases result with
        | error failure =>
            rw [next] at appended
            obtain ⟨unchanged, activeHolds, fd, size, base, policy, after⟩ :=
              append_active_failed rolledHolds.activeHolds stampedIntact (starts.trans next.symm)
                (by rw [next]; exact appended)
            exact .inr ⟨failure, active, rfl, activeHolds, unchanged, base, policy, fd, size, after⟩
        | ok done =>
            rw [next] at appended
            obtain ⟨faultless, activeHolds, _, _, fd, base, policy, after⟩ :=
              append_active_ok rolledHolds.activeHolds stampedIntact (starts.trans next.symm)
                (by rw [next]; exact appended)
            refine .inl ⟨active, rfl, faultless, ?_, activeHolds, ?_, base, policy, fd, after⟩
            · rw [base_of_stamped] at range
              rw [← range]
              exact as_signed_fits 64 _ (by norm_num) (as_unsigned_lt 64 _)
            · intro settled
              exact append_settled_ok (settles settled).settled stampedIntact (starts.trans next.symm)
                (by rw [next]; exact appended)
  · have stamp : (headerOf (stamped batch log.logEndOffset)).baseOffset ≠ log.logEndOffset := range
    have refused : rolled.active.append log.logEndOffset (stamped batch log.logEndOffset) clockMs fault =
        (rolled.active, .error (.offsetInvariantViolated s!"segment append: batch header says {(headerOf (stamped batch log.logEndOffset)).baseOffset} but the caller says {log.logEndOffset} — the stamp did not happen")) := by
      simp only [ActiveSegment.append, stampedIntact.parsed, stamp, if_true, ne_eq, not_false_eq_true]
    rw [refused]
    exact .inr ⟨_, rolled.active, rfl, rolledHolds.activeHolds, fun _ => rfl, rfl, rfl, rfl, rfl, rfl⟩

theorem bury_oldest_holds {log : Log} (holds : LogHolds log) (count : Nat) (nowMs : Int) :
    LogHolds (log.buryOldest count nowMs) where
  sealedHolds := fun segment member => holds.sealedHolds segment (List.mem_of_mem_drop member)
  activeHolds := holds.activeHolds
  linked := linked_drop holds.linked count
  ends := holds.ends
  policy := holds.policy
  stored := holds.stored
  storable := holds.storable

theorem retention_buries (log : Log) (nowMs : Int) :
    ∃ count graveyard, log.applyRetention nowMs =
      { log with sealedMap := log.sealedMap.drop count, graveyard := graveyard } := by
  unfold Log.applyRetention
  split
  · exact ⟨_, _, rfl⟩
  · simp only [Log.buryOldest, List.drop_drop]
    exact ⟨_, _, rfl⟩

theorem retention_holds {log : Log} (holds : LogHolds log) (nowMs : Int) :
    LogHolds (log.applyRetention nowMs) := by
  unfold Log.applyRetention
  split
  · exact bury_oldest_holds holds _ _
  · exact bury_oldest_holds (bury_oldest_holds holds _ _) _ _

theorem sweep_holds {log : Log} (holds : LogHolds log) (nowMs : Int) :
    LogHolds (log.sweepGraveyard nowMs) where
  sealedHolds := holds.sealedHolds
  activeHolds := holds.activeHolds
  linked := holds.linked
  ends := holds.ends
  policy := holds.policy
  stored := holds.stored
  storable := holds.storable

theorem open_sealed_each {α : Type} {dir : String} {files : α → SegmentFiles} {items : List α}
    {opens : SealedSegment → α → Prop}
    (each : ∀ item ∈ items, ∀ fd : Nat, ∃ segment,
      SealedSegment.open fd (segmentLogPath dir (files item).baseOffset) (files item).baseOffset
        (files item).bytes (files item).index = .ok segment ∧ opens segment item) (fd : Nat) :
    ∃ opened, openSealedSegments dir fd (items.map files) = .ok opened ∧
      List.Forall₂ opens opened items := by
  induction items generalizing fd with
  | nil => exact ⟨[], rfl, .nil⟩
  | cons item items ih =>
      obtain ⟨first, opened, here⟩ := each item (by simp) fd
      obtain ⟨rest, others, behind⟩ := ih (fun other member => each other (by simp [member])) (fd + 1)
      refine ⟨first :: rest, ?_, .cons here behind⟩
      simp only [List.map_cons, openSealedSegments, opened, others, except_ok_bind]
      rfl

theorem open_sealed_segments_spec {segments : List SealedSegment}
    (holds : ∀ segment ∈ segments, SealedHolds segment (batchesIn segment)) (dir : String) (fd : Nat) :
    ∃ reopened, openSealedSegments dir fd (segments.map SegmentBase.files) = .ok reopened ∧
      List.Forall₂ (fun reopened segment => SealedHolds reopened (batchesIn segment) ∧
        SameSegment reopened segment) reopened segments := by
  apply open_sealed_each
  intro segment member fd
  obtain ⟨reopened, opened, reopenedHolds, same, _⟩ := reopen_sealed_spec (holds segment member) fd
    (segmentLogPath dir segment.baseOffset)
  exact ⟨reopened, opened, reopenedHolds, same⟩

theorem same_batches_in {first second : SegmentBase} (same : SameSegment first second) :
    batchesIn first = batchesIn second := by
  rw [batchesIn, batchesIn, same.bytes, same.size]

theorem same_member {first second : List SealedSegment} (same : List.Forall₂ SameSegment first second)
    {segment : SealedSegment} (member : segment ∈ first) :
    ∃ original ∈ second, SameSegment segment original := by
  induction same with
  | nil => cases member
  | cons here _ ih =>
      rcases List.mem_cons.mp member with rfl | behind
      · exact ⟨_, by simp, here⟩
      · obtain ⟨original, originalMember, both⟩ := ih behind
        exact ⟨original, by simp [originalMember], both⟩

theorem same_next_base {reopened segments : List SealedSegment}
    (same : List.Forall₂ SameSegment reopened segments) (newest : Int) :
    nextBase newest reopened = nextBase newest segments := by
  cases same with
  | nil => rfl
  | cons first _ => simp [nextBase, first.base]

theorem same_linked {close : Int → Int → Prop} {newest : Int} {reopened segments : List SealedSegment}
    (same : List.Forall₂ SameSegment reopened segments) :
    Linked close newest reopened ↔ Linked close newest segments := by
  induction same with
  | nil => rfl
  | cons first rest ih =>
      simp only [Linked, ih, same_next_base rest, first.base, first.next]

theorem same_batches {reopened segments : List SealedSegment}
    (same : List.Forall₂ (fun reopened segment => SealedHolds reopened (batchesIn segment) ∧
      SameSegment reopened segment) reopened segments) :
    reopened.flatMap batchesIn = segments.flatMap batchesIn ∧
      ∀ segment ∈ reopened, SealedHolds segment (batchesIn segment) := by
  induction same with
  | nil => simp
  | cons first rest ih =>
      obtain ⟨batches, holds⟩ := ih
      have here := batches_in_eq first.1.toHoldsBatches
      refine ⟨by simp [here, batches], ?_⟩
      intro segment member
      rcases List.mem_cons.mp member with rfl | behind
      · exact batches_in_sealed first.1
      · exact holds segment behind

theorem check_contiguity_ok (dir : String) (config : LogConfig) {newest : Int}
    {segments : List SealedSegment} (occupied : ∀ segment ∈ segments, segment.baseOffset < segment.nextOffset) :
    checkContiguity dir config newest segments = .ok () ↔
      Linked (fun ends begins => if config.compacted then ends ≤ begins else ends = begins) newest
        segments := by
  induction segments with
  | nil => simp [checkContiguity, Linked]
  | cons segment rest ih =>
      have here := occupied segment (by simp)
      have later := ih (fun other member => occupied other (by simp [member]))
      simp only [checkContiguity, Linked, here, true_and, ← later, nextBase]
      cases compacted : config.compacted
      · by_cases joined : segment.nextOffset = (rest.head?.map (·.baseOffset)).getD newest
        · simp [joined]
        · simp [joined]
      · by_cases ordered : segment.nextOffset ≤ (rest.head?.map (·.baseOffset)).getD newest
        · have notBroken : ¬ (rest.head?.map (·.baseOffset)).getD newest < segment.nextOffset := by omega
          simp [ordered, notBroken]
        · have broken : (rest.head?.map (·.baseOffset)).getD newest < segment.nextOffset := by omega
          simp [ordered, broken]

theorem continues_log_congr {first second : FileHandle} (same : first.bytes = second.bytes)
    (position : Nat) (next : Int) :
    continuesLog first position next = continuesLog second position next := by
  have reads : first.readAt = second.readAt := by
    funext position count
    simp only [FileHandle.readAt, same]
  rw [continuesLog, continuesLog, batch_at_congr same, reads, same]

theorem settled_ends {dir : String} {segment : ActiveSegment} {batches : List Bytes}
    (settled : ActiveSettled dir segment batches) (next : Int) :
    continuesLog segment.log segment.log.size next = false := by
  have ends : segment.log.bytes.length = segment.log.size := by rw [settled.whole, settled.tight]
  rw [continuesLog, batch_at_end _ ends.le]

/-- Startup with the active segment's files of a log behind sealed ones that
open: all that can go wrong is the hole check. -/
theorem open_from {log : Log} (holds : LogHolds log)
    (ends : continuesLog log.active.log log.active.log.size log.active.nextOffset = false)
    {front : List SegmentFiles} {sealedMap : List SealedSegment}
    (opened : openSealedSegments log.dir 0 front = .ok sealedMap) (fallback : LogConfig) (clockMs : Int) :
    ∃ bytes active, log.partitionMeta = some bytes ∧
      ActiveSettled log.dir active (batchesIn log.active.toSegmentBase) ∧
      active.baseOffset = log.active.baseOffset ∧ active.policy = log.active.policy ∧
      active.nextOffset = log.active.nextOffset ∧
      Log.open log.tp log.dir ⟨log.partitionMeta, front ++ [log.active.toSegmentBase.files]⟩ fallback
          clockMs =
        (checkContiguity log.dir log.config.reloaded log.active.baseOffset sealedMap >>= fun _ =>
          .ok (Log.ofSegments log.tp log.dir bytes log.config.reloaded sealedMap active
            (front.length + 1 + 1))) := by
  obtain ⟨plain, built, _⟩ := holds.activeHolds.built
  obtain ⟨bytes, stored, decoded⟩ := holds.stored
  have activeEnds : continuesLog
      (FileHandle.ofContents (front.length + 1 : Nat) (segmentLogPath log.dir log.active.baseOffset)
        log.active.log.bytes)
      (batchesIn log.active.toSegmentBase).flatten.length
      (endOffset log.active.baseOffset (batchesIn log.active.toSegmentBase)) = false := by
    rw [← holds.activeHolds.tight, ← holds.activeHolds.ends, ← ends]
    exact continues_log_congr rfl _ _
  obtain ⟨active, recovered, settled, _, base, policy, _⟩ :=
    recover_spec holds.activeHolds.intact holds.activeHolds.front holds.activeHolds.consecutive built
      (front.length + 1 : Nat) clockMs activeEnds
  have next : active.nextOffset = log.active.nextOffset := by
    rw [settled.ends, base, ← holds.activeHolds.ends]
  refine ⟨bytes, active, stored, settled, base, policy, next, ?_⟩
  have last : (front ++ [log.active.toSegmentBase.files]).getLast? =
      some log.active.toSegmentBase.files := by simp
  have before : (front ++ [log.active.toSegmentBase.files]).dropLast = front := by simp
  have count : (front ++ [log.active.toSegmentBase.files]).length = front.length + 1 := by simp
  have roll : log.config.reloaded.roll = log.active.policy := holds.policy.symm
  simp only [Log.open, last, before, opened, except_ok_bind, count, stored]
  simp only [resolveConfig, decoded, except_ok_bind, ne_eq, not_true_eq_false, if_false,
    SegmentBase.files, roll, recovered]
  rfl

/-- Startup on the files of a log: all that can go wrong is the hole check. -/
theorem open_spec {log : Log} (holds : LogHolds log)
    (ends : continuesLog log.active.log log.active.log.size log.active.nextOffset = false)
    (fallback : LogConfig) (clockMs : Int) :
    ∃ reopened, Log.open log.tp log.dir log.files fallback clockMs =
        (checkContiguity log.dir log.config.reloaded log.active.baseOffset reopened.sealedMap >>=
          fun _ => .ok reopened) ∧
      LogSettled reopened ∧ reopened.batches = log.batches ∧
      reopened.logEndOffset = log.logEndOffset ∧ reopened.tp = log.tp ∧ reopened.dir = log.dir ∧
      reopened.partitionMeta = log.partitionMeta ∧ reopened.config = log.config.reloaded ∧
      reopened.active.baseOffset = log.active.baseOffset ∧
      List.Forall₂ SameSegment reopened.sealedMap log.sealedMap := by
  obtain ⟨sealedMap, opened, sealedHolds⟩ := open_sealed_segments_spec holds.sealedHolds log.dir 0
  obtain ⟨sealedBatches, eachHolds⟩ := same_batches sealedHolds
  have same : List.Forall₂ SameSegment sealedMap log.sealedMap := sealedHolds.imp fun _ _ both => both.2
  obtain ⟨bytes, active, stored, settled, base, policy, next, isOpen⟩ :=
    open_from holds ends opened fallback clockMs
  have activeBatches := batches_in_active settled.toActiveHolds
  obtain ⟨_, isStored, decoded⟩ := holds.stored
  rw [stored] at isStored
  cases isStored
  refine ⟨Log.ofSegments log.tp log.dir bytes log.config.reloaded sealedMap active
    ((log.sealedMap.map SegmentBase.files).length + 1 + 1), isOpen, ?_, ?_, ?_, rfl, rfl, stored.symm,
    rfl, base, same⟩
  · exact
      { sealedHolds := eachHolds
        activeHolds := by
          simp only [Log.ofSegments, activeBatches]
          exact settled.toActiveHolds
        linked := by
          simp only [Log.ofSegments]
          rw [base, same_linked same]
          exact holds.linked
        ends := rfl
        policy := policy.trans holds.policy
        stored := ⟨bytes, rfl, by
          simp only [Log.ofSegments, reloaded_reloaded holds.storable]
          exact decoded⟩
        storable := by
          have storable := holds.storable
          exact
            { storable with
              retentionBytes := by
                intro limit member
                have field := limit_of_field_to_field storable.retentionBytes
                simp only [Log.ofSegments, LogConfig.reloaded, field] at member
                split at member
                · cases member
                · exact storable.retentionBytes limit member }
        settled := by
          simp only [Log.ofSegments, activeBatches]
          exact settled }
  · simp only [Log.batches, Log.ofSegments, sealedBatches, activeBatches]
  · rw [holds.ends, ← next]
    rfl

theorem create_spec {tp : TopicPartition} {dir : String} {config : LogConfig} {log : Log}
    (named : StorableName tp) (storable : config.Storable) (created : Log.create tp dir config = .ok log) :
    LogSettled log ∧ log.batches = [] ∧ log.sealedMap = [] ∧ log.tp = tp ∧ log.dir = dir ∧
      log.config = config ∧ log.active.baseOffset = 0 ∧ log.logEndOffset = 0 := by
  obtain ⟨active, made, result⟩ := except_bind_ok created
  cases Except.ok.inj result
  obtain ⟨settled, base, next, policy, _⟩ := create_active_spec made
  have batches := batches_in_active settled.toActiveHolds
  refine ⟨?_, ?_, rfl, rfl, rfl, rfl, base, next⟩
  · exact
      { sealedHolds := by simp [Log.ofSegments]
        activeHolds := by
          simp only [Log.ofSegments, batches]
          exact settled.toActiveHolds
        linked := trivial
        ends := rfl
        policy := policy
        stored := ⟨_, rfl, decode_partition_meta_encode ⟨tp, config⟩ named storable⟩
        storable := storable
        settled := by
          simp only [Log.ofSegments, batches]
          exact settled }
  · simp only [Log.batches, Log.ofSegments, List.flatMap_nil, batches, List.append_nil]

end DariyaKyu.Storage

import DariyaKyu.Protocol.ErrorCodes
import DariyaKyu.Storage.PartitionCreation

/-!
`handleCreateTopic` of `server/handlers.cpp`. A topic is as many partitions as
were asked for, created one after the other behind a check that none of them is
there. What one creation leaves when it fails decides how the next request for
the same topic ends.
-/

namespace DariyaKyu.Server

set_option autoImplicit false

open Protocol Storage

structure TopicRequest where
  name : Bytes
  partitionCount : Int
  retentionMs : Option Int := none
  retentionBytes : Option Int := none
  maxSegmentBytes : Option Int := none
  compact : Option Bool := none

namespace TopicRequest

/-- The defaults of the broker with what was asked for in their place. -/
def config (asked : TopicRequest) (defaults : LogConfig) : LogConfig where
  roll := { defaults.roll with
    maxSegmentBytes := (asked.maxSegmentBytes.map (asUnsigned 64)).getD defaults.roll.maxSegmentBytes }
  retention := { defaults.retention with
    retentionMs := asked.retentionMs.getD defaults.retention.retentionMs
    retentionBytes := (asked.retentionBytes.map (asUnsigned 64)).or defaults.retention.retentionBytes }
  compaction := defaults.compaction
  cleanup := (asked.compact.map fun compact => if compact then .compact else .delete).getD defaults.cleanup

def partition (asked : TopicRequest) (number : Nat) : TopicPartition := ⟨asked.name, number⟩

def numbers (asked : TopicRequest) : List Nat := List.range asked.partitionCount.toNat

end TopicRequest

/-- Which step fails in the creation of each partition of a topic. -/
abbrev Faults := Nat → Option CreateFault

def faultless : Faults := fun _ => none

def createAll (asked : TopicRequest) (config : LogConfig) (faults : Faults) :
    List Nat → DataDirectory → DataDirectory × Option Error
  | [], data => (data, none)
  | number :: rest, data =>
      let created := data.createPartition (asked.partition number) config (faults number)
      match created.2 with
      | some failure => (created.1, some failure)
      | none => createAll asked config faults rest created.1

def createTopic (data : DataDirectory) (asked : TopicRequest) (faults : Faults) : DataDirectory × ErrorCode :=
  if isUsableTopicName asked.name = false ∨ asked.partitionCount < 1 then (data, .invalidTopic)
  else if asked.numbers.any fun number => data.hosts (asked.partition number) then
    (data, .topicAlreadyExists)
  else
    let created := createAll asked (asked.config data.manager.defaults) faults asked.numbers data
    match created.2 with
    | some _ => (created.1, .unknown)
    | none => (created.1, .none)

def handleCreateTopic : List (TopicRequest × Faults) → DataDirectory → DataDirectory × List (Bytes × ErrorCode)
  | [], data => (data, [])
  | (asked, faults) :: rest, data =>
      let answered := createTopic data asked faults
      let (data, answers) := handleCreateTopic rest answered.1
      (data, (asked.name, answered.2) :: answers)

section Creating

variable {data next : DataDirectory} {asked : TopicRequest} {config : LogConfig} {faults : Faults}
  {numbers : List Nat}

theorem partition_ne {number other : Nat} (different : number ≠ other) :
    asked.partition number ≠ asked.partition other := by
  intro same
  simp only [TopicRequest.partition, TopicPartition.mk.injEq, Nat.cast_inj, true_and] at same
  exact different same

def AllCreatable (data : DataDirectory) (asked : TopicRequest) (numbers : List Nat) : Prop :=
  ∀ number ∈ numbers, data.Creatable (asked.partition number)

theorem AllCreatable.later {number : Nat} (creatable : AllCreatable data asked (number :: numbers))
    (new : number ∉ numbers) {fault : Option CreateFault} :
    AllCreatable (data.createPartition (asked.partition number) config fault).1 asked numbers := by
  intro other inside
  have before := creatable other (List.mem_cons_of_mem _ inside)
  have different : other ≠ number := fun same => new (same ▸ inside)
  have frame := @create_partition_frame data (asked.partition number) (asked.partition other) config fault
    (creatable number List.mem_cons_self) (partition_ne different)
  exact ⟨before.usable, before.numbered, frame.1.trans before.absent⟩

/-- The loop ends without an exception if every creation is complete. -/
theorem create_all_none_iff (creatable : AllCreatable data asked numbers) (distinct : numbers.Nodup) :
    (createAll asked config faults numbers data).2 = none ↔ ∀ number ∈ numbers,
      faults number = none ∧ data.Free (asked.partition number) ∧ kEntrySize ≤ config.roll.maxIndexBytes := by
  induction numbers generalizing data with
  | nil => simp [createAll]
  | cons number numbers ih =>
      obtain ⟨new, distinct⟩ := List.nodup_cons.mp distinct
      have first := creatable number List.mem_cons_self
      have done := @create_partition_none_iff data (asked.partition number) config (faults number) first
      have rest := @ih (data.createPartition (asked.partition number) config (faults number)).1
        (creatable.later new) distinct
      have frame : ∀ other ∈ numbers,
          ((data.createPartition (asked.partition number) config (faults number)).1.Free
            (asked.partition other) ↔ data.Free (asked.partition other)) := by
        intro other inside
        have different : other ≠ number := fun same => new (same ▸ inside)
        exact (create_partition_frame first (partition_ne different)).2.1
      simp only [createAll, List.forall_mem_cons]
      cases failed : (data.createPartition (asked.partition number) config (faults number)).2 with
      | some failure =>
          rw [failed] at done
          exact iff_of_false (Option.some_ne_none _) fun all => absurd (done.mpr all.1) (Option.some_ne_none _)
      | none =>
          simp only
          rw [rest]
          constructor
          · intro later
            refine ⟨done.mp failed, ?_⟩
            intro other inside
            rw [← frame other inside]
            exact later other inside
          · intro all other inside
            rw [frame other inside]
            exact all.2 other inside

theorem create_all_hosts (creatable : AllCreatable data asked numbers) (distinct : numbers.Nodup)
    {tp : TopicPartition} (hosted : data.hosts tp = true) :
    (createAll asked config faults numbers data).1.hosts tp = true := by
  induction numbers generalizing data with
  | nil => exact hosted
  | cons number numbers ih =>
      obtain ⟨new, distinct⟩ := List.nodup_cons.mp distinct
      have first := creatable number List.mem_cons_self
      have different : tp ≠ asked.partition number := by
        rintro rfl
        rw [first.absent] at hosted
        cases hosted
      have stays : (data.createPartition (asked.partition number) config (faults number)).1.hosts tp = true :=
        (create_partition_frame first different).1.trans hosted
      simp only [createAll]
      split
      · exact stays
      · exact ih (creatable.later new) distinct stays

theorem create_all_complete (creatable : AllCreatable data asked numbers) (distinct : numbers.Nodup)
    (complete : (createAll asked config faults numbers data).2 = none) :
    ∀ number ∈ numbers, (createAll asked config faults numbers data).1.hosts (asked.partition number) = true := by
  induction numbers generalizing data with
  | nil => exact List.forall_mem_nil _
  | cons number numbers ih =>
      obtain ⟨new, distinct⟩ := List.nodup_cons.mp distinct
      have first := creatable number List.mem_cons_self
      simp only [createAll] at complete ⊢
      cases failed : (data.createPartition (asked.partition number) config (faults number)).2 with
      | some failure => simp [failed] at complete
      | none =>
          simp only [failed] at complete ⊢
          rw [List.forall_mem_cons]
          refine ⟨?_, ih (creatable.later new) distinct complete⟩
          exact create_all_hosts (creatable.later new) distinct ((create_partition_hosts first).mpr failed)

theorem create_all_first_failed {number : Nat} (creatable : AllCreatable data asked (number :: numbers))
    (distinct : (number :: numbers).Nodup)
    (unhosted : (createAll asked config faults (number :: numbers) data).1.hosts (asked.partition number) = false) :
    (data.createPartition (asked.partition number) config (faults number)).2 ≠ none ∧
      (createAll asked config faults (number :: numbers) data).1 =
        (data.createPartition (asked.partition number) config (faults number)).1 := by
  obtain ⟨new, distinct⟩ := List.nodup_cons.mp distinct
  have first := creatable number List.mem_cons_self
  simp only [createAll] at unhosted ⊢
  cases failed : (data.createPartition (asked.partition number) config (faults number)).2 with
  | some failure => exact ⟨Option.some_ne_none _, rfl⟩
  | none =>
      simp only [failed] at unhosted
      have stays := @create_all_hosts _ asked config faults numbers (creatable.later new) distinct _
        ((create_partition_hosts first).mpr failed)
      rw [unhosted] at stays
      cases stays

def TopicRefused (data : DataDirectory) (asked : TopicRequest) : Prop :=
  isUsableTopicName asked.name = false ∨ asked.partitionCount < 1 ∨
    ∃ number ∈ asked.numbers, data.hosts (asked.partition number) = true

/-- Either all partitions of the topic are there and the answer says so, or none
has been made; and where making them was tried, asking again makes them. -/
structure WholeOrNot (data : DataDirectory) (asked : TopicRequest) (answer : ErrorCode)
    (next : DataDirectory) : Prop where
  whole : answer = .none → ∀ number ∈ asked.numbers, next.hosts (asked.partition number) = true
  nothing : answer ≠ .none → ∀ number ∈ asked.numbers, next.hosts (asked.partition number) = true →
    data.hosts (asked.partition number) = true
  again : answer = .unknown → (createTopic next asked faultless).2 = .none

/-- A first segment can be made in the directory of every partition. -/
structure Unobstructed (data : DataDirectory) (asked : TopicRequest) : Prop where
  free : ∀ number ∈ asked.numbers, data.Free (asked.partition number)
  roomy : kEntrySize ≤ data.manager.defaults.roll.maxIndexBytes

/-- Nothing fails, or the first partition does before anything of it is made that stays. -/
def FailsEarly (asked : TopicRequest) (faults : Faults) : Prop :=
  (∀ number ∈ asked.numbers, faults number = none) ∨
    ∃ early ∈ faults 0, early.step = .makeDirectory ∨ early.step = .openLog

theorem all_creatable (allowed : ¬ TopicRefused data asked) : AllCreatable data asked asked.numbers := by
  unfold TopicRefused at allowed
  push Not at allowed
  obtain ⟨usable, _, absent⟩ := allowed
  intro number inside
  have named : isUsableTopicName asked.name = true := by simpa using usable
  exact ⟨named, Int.natCast_nonneg number, by simpa using absent number inside⟩

theorem numbers_cons (allowed : ¬ TopicRefused data asked) : ∃ later, asked.numbers = 0 :: later := by
  unfold TopicRefused at allowed
  push Not at allowed
  obtain ⟨count, isCount⟩ : ∃ count, asked.partitionCount.toNat = count + 1 :=
    ⟨asked.partitionCount.toNat - 1, by omega⟩
  exact ⟨_, by rw [TopicRequest.numbers, isCount, List.range_succ_eq_map]⟩

theorem create_topic_refused (refused : TopicRefused data asked) (faults : Faults) :
    (createTopic data asked faults).1 = data ∧ (createTopic data asked faults).2 ≠ .none ∧
      (createTopic data asked faults).2 ≠ .unknown := by
  unfold createTopic
  split
  · exact ⟨rfl, by simp, by simp⟩
  · next usable =>
    rw [not_or] at usable
    have exists_one : (asked.numbers.any fun number => data.hosts (asked.partition number)) = true := by
      rw [List.any_eq_true]
      exact (refused.resolve_left usable.1).resolve_left usable.2
    rw [if_pos exists_one]
    exact ⟨rfl, by simp, by simp⟩

theorem create_topic_allowed (allowed : ¬ TopicRefused data asked) (faults : Faults) :
    (createTopic data asked faults).1 =
        (createAll asked (asked.config data.manager.defaults) faults asked.numbers data).1 ∧
      ((createTopic data asked faults).2 = .none ∨ (createTopic data asked faults).2 = .unknown) ∧
      ((createTopic data asked faults).2 = .none ↔
        (createAll asked (asked.config data.manager.defaults) faults asked.numbers data).2 = none) := by
  unfold TopicRefused at allowed
  have usable : ¬ (isUsableTopicName asked.name = false ∨ asked.partitionCount < 1) :=
    fun refused => allowed (refused.imp_right .inl)
  have absent : (asked.numbers.any fun number => data.hosts (asked.partition number)) = false := by
    rw [Bool.eq_false_iff, ne_eq, List.any_eq_true]
    exact fun hosted => allowed (.inr (.inr hosted))
  unfold createTopic
  simp only [if_neg usable, absent, Bool.false_eq_true, if_false]
  split
  · next failed => simp [failed]
  · next complete => simp [complete]

/-- The answer is that all went well if nothing is refused, obstructed or fails. -/
theorem create_topic_none_iff :
    (createTopic data asked faults).2 = .none ↔
      ¬ TopicRefused data asked ∧ Unobstructed data asked ∧ ∀ number ∈ asked.numbers, faults number = none := by
  by_cases refused : TopicRefused data asked
  · exact iff_of_false (create_topic_refused refused faults).2.1 fun all => all.1 refused
  · obtain ⟨later, isNumbers⟩ := numbers_cons refused
    rw [(create_topic_allowed refused faults).2.2,
      create_all_none_iff (all_creatable refused) List.nodup_range]
    constructor
    · intro all
      have roomy := (all 0 (by rw [isNumbers]; exact List.mem_cons_self)).2.2
      exact ⟨refused, ⟨fun number inside => (all number inside).2.1, roomy⟩, fun number inside => (all number inside).1⟩
    · intro all number inside
      exact ⟨all.2.2 number inside, all.2.1.free number inside, all.2.1.roomy⟩

theorem refused_same (same : next.manager = data.manager) : TopicRefused next asked ↔ TopicRefused data asked := by
  unfold TopicRefused DataDirectory.hosts
  rw [same]

/-- After a failure at its first partition a topic is asked for as it was, if that
partition left nothing behind. -/
theorem unobstructed_after_failure (allowed : ¬ TopicRefused data asked)
    (failed : (data.createPartition (asked.partition 0) config (faults 0)).2 ≠ none) :
    Unobstructed (data.createPartition (asked.partition 0) config (faults 0)).1 asked ↔
      Unobstructed data asked ∧ ∃ early ∈ faults 0, early.step = .makeDirectory ∨ early.step = .openLog := by
  obtain ⟨later, isNumbers⟩ := numbers_cons allowed
  have first : data.Creatable (asked.partition 0) :=
    all_creatable allowed 0 (by rw [isNumbers]; exact List.mem_cons_self)
  obtain ⟨same, left⟩ := create_partition_leaves first failed
  have frame : ∀ number, number ≠ 0 →
      ((data.createPartition (asked.partition 0) config (faults 0)).1.Free (asked.partition number) ↔
        data.Free (asked.partition number)) :=
    fun number different => (create_partition_frame first (partition_ne different)).2.1
  constructor
  · rintro ⟨free, roomy⟩
    have firstFree := left.mp (free 0 (by rw [isNumbers]; exact List.mem_cons_self))
    refine ⟨⟨?_, same ▸ roomy⟩, firstFree.2⟩
    intro number inside
    by_cases isFirst : number = 0
    · exact isFirst ▸ firstFree.1
    · exact (frame number isFirst).mp (free number inside)
  · rintro ⟨⟨free, roomy⟩, early⟩
    refine ⟨?_, same ▸ roomy⟩
    intro number inside
    by_cases isFirst : number = 0
    · subst isFirst
      exact left.mpr ⟨free 0 inside, early⟩
    · exact (frame number isFirst).mpr (free number inside)

/-- A topic is created whole or not at all, and can be asked for again, if and
only if it is refused or not obstructed, and fails early if it fails. -/
theorem create_topic_whole_iff :
    WholeOrNot data asked (createTopic data asked faults).2 (createTopic data asked faults).1 ↔
      TopicRefused data asked ∨ Unobstructed data asked ∧ FailsEarly asked faults := by
  by_cases refused : TopicRefused data asked
  · obtain ⟨same, notNone, notUnknown⟩ := create_topic_refused refused faults
    refine iff_of_true ⟨fun none => absurd none notNone, ?_, fun unknown => absurd unknown notUnknown⟩
      (.inl refused)
    intro _ number _ hosted
    rwa [same] at hosted
  obtain ⟨later, isNumbers⟩ := numbers_cons refused
  have creatable := all_creatable refused
  have distinct : asked.numbers.Nodup := List.nodup_range
  obtain ⟨isNext, answers, none_iff⟩ := create_topic_allowed refused faults
  have firstInside : 0 ∈ asked.numbers := by
    rw [isNumbers]
    exact List.mem_cons_self
  constructor
  · intro holds
    right
    rcases answers with isNone | isUnknown
    · obtain ⟨_, unobstructed, faultless⟩ := create_topic_none_iff.mp isNone
      exact ⟨unobstructed, .inl faultless⟩
    · have unhosted : (createTopic data asked faults).1.hosts (asked.partition 0) = false := by
        rw [Bool.eq_false_iff]
        intro hosted
        have before := holds.nothing (by simp [isUnknown]) 0 firstInside hosted
        rw [(creatable 0 firstInside).absent] at before
        cases before
      rw [isNext, isNumbers] at unhosted
      rw [isNumbers] at creatable distinct isNext
      obtain ⟨failed, isFirst⟩ := create_all_first_failed creatable distinct unhosted
      have retried := (create_topic_none_iff.mp (holds.again isUnknown)).2.1
      rw [isNext, isFirst] at retried
      obtain ⟨unobstructed, early⟩ := (unobstructed_after_failure refused failed).mp retried
      exact ⟨unobstructed, .inr early⟩
  · rintro (isRefused | ⟨unobstructed, faultless | early⟩)
    · exact absurd isRefused refused
    · have isNone := create_topic_none_iff.mpr ⟨refused, unobstructed, faultless⟩
      refine ⟨fun _ => ?_, fun other => absurd isNone other, ?_⟩
      · rw [isNext]
        exact create_all_complete creatable distinct (none_iff.mp isNone)
      · rw [isNone]
        exact fun other => by cases other
    · have failed : (data.createPartition (asked.partition 0) (asked.config data.manager.defaults)
          (faults 0)).2 ≠ none := by
        obtain ⟨fault, isFault, _⟩ := early
        rw [ne_eq, create_partition_none_iff (creatable 0 firstInside)]
        rintro ⟨noFault, _⟩
        rw [noFault] at isFault
        cases isFault
      have stops : createAll asked (asked.config data.manager.defaults) faults asked.numbers data =
          data.createPartition (asked.partition 0) (asked.config data.manager.defaults) (faults 0) := by
        obtain ⟨failure, isFailure⟩ := Option.ne_none_iff_exists'.mp failed
        rw [isNumbers, createAll]
        simp only [isFailure]
        exact Prod.ext rfl isFailure.symm
      have same := (create_partition_leaves (creatable 0 firstInside) failed).1
      rw [stops] at isNext none_iff
      rw [isNext]
      refine ⟨fun isNone => absurd (none_iff.mp isNone) failed, ?_, ?_⟩
      · intro _ number _ hosted
        rwa [DataDirectory.hosts, same] at hosted
      · intro _
        apply create_topic_none_iff.mpr
        exact ⟨fun again => refused ((refused_same same).mp again),
          (unobstructed_after_failure refused failed).mpr ⟨unobstructed, early⟩, fun _ _ => rfl⟩

/-- What matters of a partition to a request for its topic. -/
structure SameAt (data next : DataDirectory) (tp : TopicPartition) : Prop where
  hosts : next.hosts tp = data.hosts tp
  free : next.Free tp ↔ data.Free tp
  defaults : next.manager.defaults = data.manager.defaults

theorem SameAt.trans {last : DataDirectory} {tp : TopicPartition} (first : SameAt data next tp)
    (second : SameAt next last tp) : SameAt data last tp :=
  ⟨second.hosts.trans first.hosts, second.free.trans first.free, second.defaults.trans first.defaults⟩

theorem create_all_elsewhere (creatable : AllCreatable data asked numbers) (distinct : numbers.Nodup)
    {tp : TopicPartition} (elsewhere : tp.topic ≠ asked.name) :
    SameAt data (createAll asked config faults numbers data).1 tp := by
  induction numbers generalizing data with
  | nil => exact ⟨rfl, Iff.rfl, rfl⟩
  | cons number numbers ih =>
      obtain ⟨new, distinct⟩ := List.nodup_cons.mp distinct
      have different : tp ≠ asked.partition number := fun same => elsewhere (congrArg TopicPartition.topic same)
      obtain ⟨hosts, free, defaults⟩ := @create_partition_frame data (asked.partition number) tp config
        (faults number) (creatable number List.mem_cons_self) different
      simp only [createAll]
      split
      · exact ⟨hosts, free, defaults⟩
      · exact SameAt.trans ⟨hosts, free, defaults⟩ (ih (creatable.later new) distinct)

theorem handle_create_topic_elsewhere {request : List (TopicRequest × Faults)} {tp : TopicPartition}
    (elsewhere : ∀ other ∈ request, other.1.name ≠ tp.topic) :
    SameAt data (handleCreateTopic request data).1 tp := by
  induction request generalizing data with
  | nil => exact ⟨rfl, Iff.rfl, rfl⟩
  | cons first request ih =>
      obtain ⟨different, elsewhere⟩ := List.forall_mem_cons.mp elsewhere
      have here : SameAt data (createTopic data first.1 first.2).1 tp := by
        by_cases refused : TopicRefused data first.1
        · rw [(create_topic_refused refused first.2).1]
          exact ⟨rfl, Iff.rfl, rfl⟩
        · rw [(create_topic_allowed refused first.2).1]
          exact create_all_elsewhere (all_creatable refused) List.nodup_range (Ne.symm different)
      exact here.trans (ih elsewhere)

theorem SameAt.whole_iff {last : DataDirectory} {answer : ErrorCode}
    (same : ∀ number, SameAt next last (asked.partition number)) :
    WholeOrNot data asked answer last ↔ WholeOrNot data asked answer next := by
  have refused : TopicRefused last asked ↔ TopicRefused next asked := by
    simp only [TopicRefused, (same _).hosts]
  have unobstructed : Unobstructed last asked ↔ Unobstructed next asked := by
    constructor
    · intro open_
      exact ⟨fun number inside => (same number).free.mp (open_.free number inside), (same 0).defaults ▸ open_.roomy⟩
    · intro open_
      exact ⟨fun number inside => (same number).free.mpr (open_.free number inside),
        (same 0).defaults.symm ▸ open_.roomy⟩
  have again : (createTopic last asked faultless).2 = .none ↔ (createTopic next asked faultless).2 = .none := by
    rw [create_topic_none_iff, create_topic_none_iff, refused, unobstructed]
  constructor
  · rintro ⟨whole, nothing, retry⟩
    simp only [(same _).hosts, again] at whole nothing retry
    exact ⟨whole, nothing, retry⟩
  · rintro ⟨whole, nothing, retry⟩
    simp only [← (same _).hosts, ← again] at whole nothing retry
    exact ⟨whole, nothing, retry⟩

theorem handle_create_topic_append (before after : List (TopicRequest × Faults)) (data : DataDirectory) :
    (handleCreateTopic (before ++ after) data).1 =
        (handleCreateTopic after (handleCreateTopic before data).1).1 ∧
      (handleCreateTopic (before ++ after) data).2 =
        (handleCreateTopic before data).2 ++
          (handleCreateTopic after (handleCreateTopic before data).1).2 := by
  induction before generalizing data with
  | nil => exact ⟨rfl, rfl⟩
  | cons first before ih =>
      obtain ⟨left, answers⟩ := ih (createTopic data first.1 first.2).1
      exact ⟨left, congrArg _ answers⟩

theorem answers_length (request : List (TopicRequest × Faults)) (data : DataDirectory) :
    (handleCreateTopic request data).2.length = request.length := by
  induction request generalizing data with
  | nil => rfl
  | cons first request ih => exact congrArg (· + 1) (ih _)

/-- Each topic of a request is created whole or not at all exactly if it is refused,
or nothing obstructs it and it fails early if it fails. So it stands when the topic
has been answered, and at the end of the request if that asks for it no more. -/
theorem topics_created_whole_or_not (before after : List (TopicRequest × Faults)) (asked : TopicRequest)
    (faults : Faults) (data : DataDirectory) :
    let met := (handleCreateTopic before data).1
    let answered := createTopic met asked faults
    (handleCreateTopic (before ++ (asked, faults) :: after) data).2[before.length]? =
        some (asked.name, answered.2) ∧
      (WholeOrNot met asked answered.2 answered.1 ↔
        TopicRefused met asked ∨ Unobstructed met asked ∧ FailsEarly asked faults) ∧
      ((∀ later ∈ after, later.1.name ≠ asked.name) →
        (WholeOrNot met asked answered.2 (handleCreateTopic (before ++ (asked, faults) :: after) data).1 ↔
          TopicRefused met asked ∨ Unobstructed met asked ∧ FailsEarly asked faults)) := by
  intro met answered
  obtain ⟨left, answers⟩ := handle_create_topic_append before ((asked, faults) :: after) data
  refine ⟨?_, create_topic_whole_iff, ?_⟩
  · rw [answers, List.getElem?_append_right (by rw [answers_length]), answers_length, Nat.sub_self]
    rfl
  · intro last
    rw [← create_topic_whole_iff]
    apply SameAt.whole_iff
    intro number
    rw [left]
    exact handle_create_topic_elsewhere last

end Creating

def emptyBroker : DataDirectory := ⟨{ dataDir := "data", defaults := {} }, fun _ => none⟩

def twoPartitions : TopicRequest := { name := [116], partitionCount := 2 }

/-- The disk is full when the `.log` of this partition is to be opened. -/
def fullAt (number : Nat) : Faults := fun other =>
  if other = number then some ⟨.openLog, .ioError "open" "data" 28⟩ else none

theorem topics_created_whole_or_not_first :
    ((handleCreateTopic [(twoPartitions, fullAt 0)] emptyBroker).2 = [([116], .unknown)]) ∧
      WholeOrNot emptyBroker twoPartitions .unknown
        (handleCreateTopic [(twoPartitions, fullAt 0)] emptyBroker).1 := by
  have settled := topics_created_whole_or_not [] [] twoPartitions (fullAt 0) emptyBroker
  refine ⟨by decide +kernel, ?_⟩
  have isUnknown : (createTopic emptyBroker twoPartitions (fullAt 0)).2 = .unknown := by decide +kernel
  rw [← isUnknown]
  apply (settled.2.2 (List.forall_mem_nil _)).mpr
  exact .inr ⟨⟨fun _ _ => rfl, by decide⟩, .inr ⟨_, rfl, .inr rfl⟩⟩

/-- The second partition cannot be made: the first stays, and the topic exists. -/
theorem half_a_topic_stays :
    ¬ ∀ (before after : List (TopicRequest × Faults)) (asked : TopicRequest) (faults : Faults)
        (data : DataDirectory), (∀ later ∈ after, later.1.name ≠ asked.name) →
      WholeOrNot (handleCreateTopic before data).1 asked
        (createTopic (handleCreateTopic before data).1 asked faults).2
        (handleCreateTopic (before ++ (asked, faults) :: after) data).1 := by
  intro all
  have whole := all [] [] twoPartitions (fullAt 1) emptyBroker (List.forall_mem_nil _)
  have before := whole.nothing (by decide +kernel) 0 (by decide) (by decide +kernel)
  exact absurd before (by decide)

end DariyaKyu.Server

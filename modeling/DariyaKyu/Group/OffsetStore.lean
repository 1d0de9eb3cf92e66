import DariyaKyu.Group.CommitRecord
import DariyaKyu.Storage.LogManager

/-!
`group/offset_store.cpp`: where every group has got to. A commit is appended to
a partition of `__offsets` first and put into the map afterwards; a fetch only
looks at the map. Which partition a group goes to is its hash, modulo how many
there are. `std::hash` is a parameter: no code depends on its values.
-/

namespace DariyaKyu.Groups

set_option autoImplicit false

open Storage

def kOffsetsTopic : Bytes := [95, 95, 111, 102, 102, 115, 101, 116, 115]

def coordinatorPartition (hash : Bytes → Nat) (group : Bytes) (partitions : Int) : Except Error Int :=
  if partitions ≤ 0 then .error (.error s!"coordinatorPartition: {partitions} partitions")
  else .ok (hash group % partitions.toNat : Nat)

/-- One commit as a batch of one record; without a value it is a tombstone. -/
def batchFor (key : CommitKey) (value : Option CommitValue) (timestampMs : Int) :
    Except Error Bytes := do
  let keyBytes ← encodeCommitKey key
  let valueBytes ← value.mapM encodeCommitValue
  let builder ← ({} : RecordBatchBuilder).append timestampMs (some keyBytes) valueBytes []
  builder.build

structure OffsetStore where
  partitions : Int
  committed : CommitKey → Option CommitValue := fun _ => none

/-- What the world adds to an append: two readings of the clock, and whether the
write fails. -/
structure AppendIo where
  rollMs : Int
  clockMs : Int
  fault : Option WriteFault := none
  deriving DecidableEq

/-- How a commit ends; a roll that ruins the log ends the model. -/
inductive Committing where
  | committed (logs : LogManager) (store : OffsetStore)
  | threw (failure : Error) (logs : LogManager)
  | ruined (failure : Error)

namespace OffsetStore

def partitionFor (store : OffsetStore) (hash : Bytes → Nat) (group : Bytes) : Except Error Int :=
  coordinatorPartition hash group store.partitions

/-- The first half of a commit or of a forget: the append. -/
def appendRecord (store : OffsetStore) (hash : Bytes → Nat) (logs : LogManager) (key : CommitKey)
    (value : Option CommitValue) (timestampMs : Int) (io : AppendIo) : Except Error (TopicPartition × Outcome Int) :=
  match store.partitionFor hash key.group with
  | .error failure => .error failure
  | .ok partition =>
      match logs.get ⟨kOffsetsTopic, partition⟩ with
      | none => .error (.error s!"__offsets partition for group '{shownBytes key.group}' is not hosted here")
      | some log =>
          match batchFor key value timestampMs with
          | .error failure => .error failure
          | .ok batch => .ok (⟨kOffsetsTopic, partition⟩, log.append batch io.rollMs io.clockMs io.fault)

def update (store : OffsetStore) (key : CommitKey) (value : Option CommitValue) : OffsetStore :=
  { store with committed := fun other => if other = key then value else store.committed other }

def record (store : OffsetStore) (hash : Bytes → Nat) (logs : LogManager) (key : CommitKey)
    (value : Option CommitValue) (timestampMs : Int) (io : AppendIo) : Committing :=
  match store.appendRecord hash logs key value timestampMs io with
  | .error failure => .threw failure logs
  | .ok (_, .ruined failure) => .ruined failure
  | .ok (tp, .threw failure log) => .threw failure (logs.put tp log)
  | .ok (tp, .returned _ log) => .committed (logs.put tp log) (store.update key value)

def commit (store : OffsetStore) (hash : Bytes → Nat) (logs : LogManager) (key : CommitKey)
    (value : CommitValue) (io : AppendIo) : Committing :=
  store.record hash logs key (some value) value.commitTimestampMs io

def forget (store : OffsetStore) (hash : Bytes → Nat) (logs : LogManager) (key : CommitKey)
    (nowMs : Int) (io : AppendIo) : Committing :=
  store.record hash logs key none nowMs io

def fetch (store : OffsetStore) (key : CommitKey) : Option CommitValue := store.committed key

end OffsetStore

end DariyaKyu.Groups

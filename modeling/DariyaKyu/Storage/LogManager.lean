import DariyaKyu.Storage.Log

/-!
`storage/log_manager.cpp`: every partition a broker hosts. The hash map of the
source is an association list, in whatever order its iteration has. A directory
scan gets the names and contents of the data directory as an argument, and the
lock, the thread that runs the sweeps and its counters are left out.
-/

namespace DariyaKyu.Storage

set_option autoImplicit false

def asciiBytes (text : String) : Bytes := text.toList.map fun letter => UInt8.ofNat letter.toNat

def kDeletedSuffix : Bytes := asciiBytes ".delete"
def kMetaDirName : Bytes := asciiBytes "meta"

/-- `isdigit` and `isalnum` of the C locale. -/
def isDigit (byte : UInt8) : Bool := 48 ≤ byte && byte ≤ 57

def isAlnum (byte : UInt8) : Bool :=
  isDigit byte || (65 ≤ byte && byte ≤ 90) || (97 ≤ byte && byte ≤ 122)

def behindLastDash (name : Bytes) : Bytes := (name.reverse.takeWhile (· ≠ 45)).reverse

def digitsValue (digits : Bytes) : Nat :=
  digits.foldl (fun value digit => value * 10 + (digit.toNat - 48)) 0

def topicPartitionFromDirName (name : Bytes) : Except Error TopicPartition :=
  let digits := behindLastDash name
  let refuse (why : String) : Except Error TopicPartition :=
    .error (.corruptData s!"data directory: '{shownBytes name}' {why}")
  if digits.length = name.length then refuse "has no partition number"
  else
    let dash := name.length - digits.length - 1
    if dash = 0 then refuse "has an empty topic name"
    else if digits = [] then refuse "ends with its separator"
    else if digits.any (!isDigit ·) then refuse "has a non-digit in its partition number"
    else if 2 ^ 31 ≤ digitsValue digits then refuse "has a partition number too large for int32"
    else
      let tp : TopicPartition := ⟨name.take dash, digitsValue digits⟩
      if tp.toBytes ≠ name then refuse s!"is not the canonical name for {shownBytes tp.toBytes}"
      else .ok tp

def isUsableTopicName (topic : Bytes) : Bool :=
  if topic = [] ∨ topic = [46] ∨ topic = [46, 46] then false
  else topic.all fun byte => isAlnum byte || byte = 46 || byte = 95 || byte = 45

def requireUsableName (tp : TopicPartition) : Except Error Unit :=
  if isUsableTopicName tp.topic = false then
    .error (.error s!"partition: topic name '{shownBytes tp.topic}' cannot be a directory name — it must be non-empty and made only of letters, digits, dot, underscore and hyphen")
  else if tp.partition < 0 then
    .error (.error s!"partition: negative partition number {tp.partition}")
  else .ok ()

structure RemovedPartition where
  log : Log
  directory : Bytes
  removedAtMs : Int

structure LogManager where
  dataDir : String
  defaults : LogConfig
  logs : List (TopicPartition × Log) := []
  removed : List RemovedPartition := []

structure DirEntry where
  name : Bytes
  contents : PartitionDir

/-- How a sweep over the partitions ends; a roll that ruins a log ends the model. -/
inductive Sweep where
  | completed (manager : LogManager)
  | threw (failure : Error) (manager : LogManager)
  | ruined (failure : Error)

def Sweep.manager : Sweep → Option LogManager
  | .completed manager => some manager
  | .threw _ manager => some manager
  | .ruined _ => none

def Log.maintain (log : Log) (nowMs : Int) : Outcome Unit :=
  match log.maybeRoll nowMs with
  | .returned _ rolled => .returned () ((rolled.applyRetention nowMs).sweepGraveyard nowMs)
  | .threw failure log => .threw failure log
  | .ruined failure => .ruined failure

namespace LogManager

def get (manager : LogManager) (tp : TopicPartition) : Option Log :=
  (manager.logs.find? (·.1 = tp)).map (·.2)

/-- The log of a hosted partition, as a call on it left it. -/
def put (manager : LogManager) (tp : TopicPartition) (log : Log) : LogManager :=
  { manager with
    logs := manager.logs.map fun hosted => if hosted.1 = tp then (tp, log) else hosted }

def partitionDir (manager : LogManager) (tp : TopicPartition) : String :=
  manager.dataDir ++ "/" ++ shownBytes tp.toBytes

def loadEntries (manager : LogManager) (clockMs : Int) : List DirEntry → Except Error LogManager
  | [] => .ok manager
  | entry :: entries =>
      if entry.name = kMetaDirName then manager.loadEntries clockMs entries
      else if kDeletedSuffix.isSuffixOf entry.name then manager.loadEntries clockMs entries
      else do
        let tp ← topicPartitionFromDirName entry.name
        let log ← Log.open tp (manager.dataDir ++ "/" ++ shownBytes entry.name) entry.contents
          manager.defaults clockMs
        { manager with logs := manager.logs ++ [(tp, log)] }.loadEntries clockMs entries

def loadAll (manager : LogManager) (entries : List DirEntry) (clockMs : Int) : Except Error LogManager :=
  if manager.logs ≠ [] then
    .error (.error s!"LogManager::loadAll is a startup operation, but {manager.logs.length} partition(s) are already open")
  else manager.loadEntries clockMs entries

def createPartition (manager : LogManager) (tp : TopicPartition) (config : LogConfig) :
    Except Error LogManager := do
  requireUsableName tp
  if (manager.get tp).isSome then
    .error (.error s!"partition {shownBytes tp.toBytes} is already hosted on this broker")
  else do
    let log ← Log.create tp (manager.partitionDir tp) config
    return { manager with logs := manager.logs ++ [(tp, log)] }

def removePartition (manager : LogManager) (tp : TopicPartition) (nowMs : Int) :
    Except Error LogManager :=
  match manager.get tp with
  | none => .error (.error s!"partition {shownBytes tp.toBytes} is not hosted on this broker")
  | some log =>
      .ok { manager with
        logs := manager.logs.filter (·.1 ≠ tp)
        removed := manager.removed ++
          [⟨log, tp.toBytes ++ [46] ++ toStringBytes nowMs ++ kDeletedSuffix, nowMs⟩] }

/-- What the data directory holds: a removed partition under its new name. -/
def entries (manager : LogManager) : List DirEntry :=
  manager.logs.map (fun hosted => ⟨hosted.1.toBytes, hosted.2.files⟩) ++
    manager.removed.map fun gone => ⟨gone.directory, gone.log.files⟩

def sweepDeletedPartitions (manager : LogManager) (nowMs : Int) : LogManager :=
  { manager with
    removed := manager.removed.filter fun gone =>
      decide (nowMs - gone.removedAtMs < manager.defaults.retention.segmentDeleteDelayMs) }

/-- The loop over the partitions; an exception leaves the later ones as they were. -/
def maintainLogs (nowMs : Int) : List (TopicPartition × Log) →
    Except Error (Option Error × List (TopicPartition × Log))
  | [] => .ok (none, [])
  | (tp, log) :: rest =>
      match log.maintain nowMs with
      | .ruined failure => .error failure
      | .threw failure log => .ok (some failure, (tp, log) :: rest)
      | .returned _ log => do
          let (failure, rest) ← maintainLogs nowMs rest
          return (failure, (tp, log) :: rest)

def runMaintenance (manager : LogManager) (nowMs : Int) : Sweep :=
  match maintainLogs nowMs manager.logs with
  | .error failure => .ruined failure
  | .ok (some failure, logs) => .threw failure { manager with logs := logs }
  | .ok (none, logs) => .completed ({ manager with logs := logs }.sweepDeletedPartitions nowMs)

end LogManager

theorem LogManager.get_put (logs : LogManager) (tp other : TopicPartition) (log : Log) :
    (logs.put tp log).get other = if other = tp then (logs.get tp).map fun _ => log else logs.get other := by
  simp only [LogManager.get, LogManager.put, List.find?_map, Option.map_map]
  by_cases same : other = tp
  · subst same
    rw [if_pos rfl]
    have alike : ((fun hosted : TopicPartition × Log => decide (hosted.1 = other)) ∘
        fun hosted : TopicPartition × Log => if hosted.1 = other then (other, log) else hosted) =
        fun hosted => decide (hosted.1 = other) := by
      funext hosted
      simp only [Function.comp]
      split <;> simp_all
    rw [alike]
    cases found : logs.logs.find? (fun hosted => decide (hosted.1 = other)) with
    | none => rfl
    | some hosted =>
        have named := List.find?_some found
        simp only [decide_eq_true_eq] at named
        simp [named]
  · rw [if_neg same]
    have alike : ((fun hosted : TopicPartition × Log => decide (hosted.1 = other)) ∘
        fun hosted : TopicPartition × Log => if hosted.1 = tp then (tp, log) else hosted) =
        fun hosted => decide (hosted.1 = other) := by
      funext hosted
      simp only [Function.comp]
      split <;> simp_all
    rw [alike]
    cases found : logs.logs.find? (fun hosted => decide (hosted.1 = other)) with
    | none => rfl
    | some hosted =>
        have named := List.find?_some found
        simp only [decide_eq_true_eq] at named
        have different : hosted.1 ≠ tp := fun both => same (named.symm.trans both)
        simp [different]

end DariyaKyu.Storage

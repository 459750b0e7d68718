import Tansu.Nvme.Maintenance

/-!
# Requests, schedules and crashes

The engine as a machine of interleaved tasks: what each request starts with,
what every section does, and what the flushers may do at any moment.  A crash
leaves, of every file, some prefix that covers what was synced; booting from it
recovers the state and then finishes the transactions in doubt.
-/

namespace Tansu.Nvme

open Std Tansu.Lib

inductive Request
  | produce (call : ProduceCall)
  | initProducer (transactionId : Option String) (transactionTimeoutMs : Int)
      (producerId : Option Int) (producerEpoch : Option Int)
  | txnAddPartitions (transactionId : String) (producerId : Int)
      (producerEpoch : Int) (partitions : List Topition)
  | txnOffsetCommit (transactionId : String) (producerId : Int)
      (producerEpoch : Int) (group : Group)
      (offsets : List (Topition × TxnCommitOffset))
  | txnEnd (call : TxnEnd)
  | maintainTransactions (now : Int)
  | offsetCommit (group : Group) (offsets : List (Topition × OffsetCommitRequest))
  | createTopic (topic : CreatableTopic)
  | deleteTopic (topic : TopicId)
  | incrementalAlter (name : Topic) (changes : List AlterableConfig)
  | updateGroup (group : Group) (detail : GroupDetail) (version : Option Version)
  | deleteGroups (groups : List Group)
  | upsertScram (user mechanism : String) (credential : ScramCredential)
  | deleteScram (user mechanism : String)
  | deleteRecords (requests : List (Topition × Int))
  | maintain (now : Int)
  | tick

namespace Request

def start : Request → List Action
  | .produce call => [.produce (.guard call)]
  | .initProducer t timeout pid e => [.txn (.initProducer t timeout pid e)]
  | .txnAddPartitions t pid e partitions => [.txn (.addPartitions t pid e partitions)]
  | .txnOffsetCommit t pid e group offsets => [.txn (.offsetCommit t pid e group offsets)]
  | .txnEnd call => [.txn (.prepare call), .answer call]
  | .maintainTransactions now => [.txn (.sweep now)]
  | .offsetCommit group offsets => [.offsets (.commit group offsets)]
  | .createTopic topic => [.admin (.createTopic topic)]
  | .deleteTopic topic => [.admin (.deleteTopic topic)]
  | .incrementalAlter name changes => [.admin (.alterTopic name changes)]
  | .updateGroup group detail version => [.admin (.updateGroup group detail version)]
  | .deleteGroups groups => [.admin (.deleteGroups groups)]
  | .upsertScram user mechanism credential => [.admin (.upsertScram user mechanism credential)]
  | .deleteScram user mechanism => [.admin (.deleteScram user mechanism)]
  | .deleteRecords requests => [.cleanup (.deleteRecords requests)]
  | .maintain now => [.cleanup (.retention now), .snapshot .ifGrown]
  | .tick => [.cleanup .tick]

end Request

namespace Action

/-- The section takes the coordination mutex. -/
def locksCoord : Action → Bool
  | .produce (.check call attributes) =>
    call.batch.isIdempotent || (call.transactionId.isSome && attributes.transaction)
  | .produce (.record ..) => true
  | .txn (.release ..) => false
  | .txn _ => true
  | .offsets (.commit ..) => true
  | .admin (.createTopic _) | .admin (.alterTopic ..) | .admin (.deleteTopic _)
  | .admin (.upsertScram ..) | .admin (.deleteScram ..) => true
  | .cleanup (.deleteRecords _) | .cleanup (.retention _) => true
  | .snapshot .rotate => true
  | .boot _ => true
  | _ => false

def isHandler : Action → Bool
  | .handler => true
  | _ => false

end Action

namespace Boot

/-- A control batch of the producer at or above the start of its range. -/
def markerPresent (s : Engine) (tp : Topition) (range : TxnProduceOffset) (pid : Int) :
    Bool :=
  (s.partitions[tp]?).any fun inner => inner.batches.toList.any fun (base, entry) =>
    decide (range.offsetStart ≤ base) && entry.isControl && decide (entry.producerId = pid)

/-- One in-doubt transaction: write the markers that are missing, then end it. -/
def resume (s : Engine) (entry : InDoubt) : Step :=
  let call : TxnEnd :=
    ⟨entry.transactionId, entry.producerId, entry.producerEpoch, entry.committed⟩
  let missing := (s.coord.produced entry.transactionId entry.producerEpoch).filter
    fun (tp, range) => !markerPresent s tp range entry.producerId
  .ok s (Transactions.markers call missing ++ [.txn (.prepare call)])

/-- `finish_boot`. -/
def start (inDoubt : List InDoubt) : List Action :=
  inDoubt.map .boot ++ [.snapshot .rotate]

end Boot

/-- What one section does. -/
def Action.run (cfg : Config) (s : Engine) (c : Choice) : Action → Step
  | .produce step => Produce.exec cfg s c step
  | .txn step => Transactions.exec s c step
  | .wal step => Wal.exec cfg s c step
  | .offsets step => Offsets.exec s step
  | .admin step => Admin.exec s c step
  | .cleanup step => Cleanup.exec s c step
  | .snapshot step => Snapshot.exec cfg s c step
  | .boot entry => Boot.resume s entry
  | .handler => .ok s []
  | .answer _ => .ok s []

/-- One section, under the locks it needs. -/
def exec (cfg : Config) (s : Engine) (c : Choice) (a : Action) : Step :=
  if s.coordLocked && a.locksCoord then .blocked else a.run cfg s c

/-- A flusher completes an `fdatasync`. -/
def env (s : Engine) : Env → Option Engine
  | .syncSegment tp base upTo =>
    some { s with dirs := s.dirs.modify tp fun dir => dir.modify base (·.sync upTo) }
  | .syncWal seq upTo => some { s with wals := s.wals.modify seq (·.sync upTo) }

abbrev EngineWorld := World Engine Action
abbrev EngineLabel := Label Request Choice Env

def machine (cfg : Config) : Machine Engine Action Choice Error Request Env where
  start := Request.start
  exec := exec cfg
  handler := Action.isHandler
  env := env

variable {cfg : Config} {s s' : Engine} {c : Choice} {a : Action}

theorem exec_ok {next : List Action} (h : exec cfg s c a = .ok s' next) :
    a.run cfg s c = .ok s' next := by
  unfold exec at h
  split at h
  · cases h
  · exact h

theorem exec_err {e : Error} (h : exec cfg s c a = .err s' e) : a.run cfg s c = .err s' e := by
  unfold exec at h
  split at h
  · cases h
  · exact h

/-! ## Crash and boot -/

/-- How much of every file a crash leaves: bytes of a segment, records of a log
file.  What was synced stays in any case. -/
structure Cut where
  segments : Topition → Int → Nat := fun _ _ => 0
  wals : Nat → Nat := fun _ => 0

def Engine.crash (s : Engine) (cut : Cut) : Disk where
  dirs := s.dirs.map fun tp dir => dir.map fun base file =>
    file.cut (max file.synced (cut.segments tp base))
  wals := s.wals.map fun seq file => file.replayable.take (max file.synced (cut.wals seq))
  snapshots := s.snapshots

/-- `Engine::open` up to `finish_boot`: what survived is durable, a new log file
is open, and the disk usage is that of the indexed batches. -/
def Engine.ofRecovered (disk : Disk) (r : Recovered) : Engine where
  coord := r.coord
  partitions := r.partitions
  dirs := r.dirs
  groups := r.groups
  groupOffsets := r.groupOffsets
  walSeq := r.walSeq
  wals := (disk.wals.map fun _ records => { records, synced := records.length }).insert r.walSeq {}
  snapshots := disk.snapshots
  diskUsage := (r.partitions.values.map fun inner =>
    ((inner.batches.values.filter fun entry => !entry.tiered).map (·.len)).sum).sum

/-- The engine after it has booted on an empty directory. -/
def Engine.opened : Engine where
  walSeq := 2
  wals := (∅ : BTreeMap Nat WalFile).insert 2 {}
  snapshots := (∅ : BTreeMap Nat SnapshotDoc).insert 1 ⟨1, {}⟩

def opened : EngineWorld := ⟨.opened, []⟩

end Tansu.Nvme

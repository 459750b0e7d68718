import Tansu.Lib.Tasks
import Tansu.Nvme.Recovery

/-!
# The engine and its critical sections

The state of `nvme::Engine` and the sections its operations are cut into.  A
section is what runs under one lock, or one wait for an acknowledgement; between
two sections any other request may run.  Every section carries what the code has
in its local variables at that point.
-/

namespace Tansu.Nvme

open Std Tansu.Lib

structure Config where
  segmentBytes : Nat := 256 * 1024 * 1024
  tailCacheBytes : Nat := 8 * 1024 * 1024
  /-- Refuse produces once segments and log exceed this; 0 is unlimited. -/
  diskBudgetBytes : Nat := 0
  /-- A schema registry is configured. -/
  schemas : Bool := false
  /-- Framed length of a serialised log record. -/
  walFrameLen : WalRecord → Nat := fun _ => 12

structure Engine where
  coord : CoordState := {}
  /-- `snapshot_now` holds the coordination mutex across several sections. -/
  coordLocked : Bool := false
  partitions : BTreeMap Topition PartitionInner := ∅
  /-- `snapshot_now` holds the partition map for reading. -/
  partitionsLocked : Bool := false
  dirs : BTreeMap Topition SegmentDir := ∅
  groups : BTreeMap Group (GroupDetail × Version) := ∅
  groupOffsets : BTreeMap (Group × Topition) OffsetCommitRequest := ∅
  walSeq : Nat := 1
  wals : BTreeMap Nat WalFile := ∅
  snapshots : BTreeMap Nat SnapshotDoc := ∅
  diskUsage : Nat := 0
  nextHandle : Nat := 1

/-! ## Sections -/

structure ProduceCall where
  transactionId : Option String
  topition : Topition
  batch : Batch
deriving DecidableEq

/-- An append that waits for its group commit. -/
structure Ack where
  handle : Nat
  segmentBase : Int
  endPosition : Nat
  offset : Int
  offsetEnd : Int
deriving DecidableEq

/-- `produce` and `produce_marker`. -/
inductive ProduceStep
  | marker (transactionId : String) (producerId : Int) (producerEpoch : Int)
      (committed : Bool) (tp : Topition)
  | guard (call : ProduceCall)
  | check (call : ProduceCall) (attributes : BatchAttribute)
  | append (call : ProduceCall) (attributes : BatchAttribute)
  | acked (call : ProduceCall) (attributes : BatchAttribute) (ack : Ack)
  | record (transactionId : String) (call : ProduceCall) (attributes : BatchAttribute) (ack : Ack)

/-- The arguments of a `txn_end` call. -/
structure TxnEnd where
  transactionId : String
  producerId : Int
  producerEpoch : Int
  committed : Bool
deriving DecidableEq

inductive TxnStep
  | initProducer (transactionId : Option String) (transactionTimeoutMs : Int)
      (producerId : Option Int) (producerEpoch : Option Int)
  | addPartitions (transactionId : String) (producerId : Int)
      (producerEpoch : Int) (partitions : List Topition)
  | offsetCommit (transactionId : String) (producerId : Int)
      (producerEpoch : Int) (group : Group)
      (offsets : List (Topition × TxnCommitOffset))
  /-- Phase 1 of `txn_end`. -/
  | prepare (call : TxnEnd)
  /-- Phase 3 of `txn_end`. -/
  | resolve (call : TxnEnd)
  /-- Release the pin of a resolved transaction on one partition. -/
  | release (key : OpenTxnKey) (aborting : Bool) (tp : Topition) (range : TxnProduceOffset)
  /-- `maintain_transactions`. -/
  | sweep (now : Int)

inductive WalStep
  | append (record : WalRecord) (await : Bool)
  | await (seq upTo : Nat)

/-- `offset_commit`. -/
inductive OffsetStep
  | commit (group : Group) (offsets : List (Topition × OffsetCommitRequest))
  | insert (group : Group) (offsets : List (Topition × OffsetCommitRequest))
      (known : List Topic)

/-- Topics, groups and credentials. -/
inductive AdminStep
  | createTopic (topic : CreatableTopic)
  | ensurePartition (tp : Topition)
  | alterTopic (name : Topic) (changes : List AlterableConfig)
  | deleteTopic (topic : TopicId)
  | dropPartitions (name : Topic)
  | removeDir (tp : Topition) (bytes : Nat)
  | dropOffsets (name : Topic)
  | updateGroup (group : Group) (detail : GroupDetail) (version : Option Version)
  | deleteGroups (groups : List Group)
  | upsertScram (user mechanism : String) (credential : ScramCredential)
  | deleteScram (user mechanism : String)

/-- `delete_records`, `apply_retention` and the age seal of the tier. -/
inductive CleanupStep
  | deleteRecords (requests : List (Topition × Int))
  | deleteRecord (known : Bool) (tp : Topition) (offset : Int)
  | retention (now : Int)
  | retain (now : Int) (ms bytes : Int) (tp : Topition)
  | removeSegment (tp : Topition) (base : Int)
  | tick
  | sealAged (tp : Topition)

/-- `snapshot_now`. -/
inductive SnapshotStep
  /-- `maintain` snapshots only a log that has grown. -/
  | ifGrown
  | rotate
  | capture (retiredSeq : Nat)
  | capturePartition (retiredSeq : Nat) (todo : List Topition)
      (skeletons : BTreeMap Topition Skeleton)
  | captureState (retiredSeq : Nat) (skeletons : BTreeMap Topition Skeleton)
  | awaitSeal (doc : SnapshotDoc)
  | write (doc : SnapshotDoc)
  | retire (retiredSeq : Nat)
  | removeWal (seq : Nat)
  | prune

inductive Action
  | produce (step : ProduceStep)
  | txn (step : TxnStep)
  | wal (step : WalStep)
  | offsets (step : OffsetStep)
  | admin (step : AdminStep)
  | cleanup (step : CleanupStep)
  | snapshot (step : SnapshotStep)
  /-- One in-doubt transaction of `finish_boot`. -/
  | boot (entry : InDoubt)
  /-- The caller ignores the errors of what precedes. -/
  | handler
  /-- A client's `txn_end` returns `ErrorCode::None`. -/
  | answer (call : TxnEnd)

/-- Ways in which a section can fail through no fault of the request. -/
inductive Fault
  | validate
  | create
  | write
  | fsync
deriving DecidableEq

/-- What the outside world decides when a section runs. -/
structure Choice where
  fault : Option Fault := none
  now : Int := 0
  uuid : Nat := 0
  /-- The active segment is older than `segment_age`. -/
  aged : Bool := false
  /-- How many bytes of its frame a failing write leaves in the file. -/
  kept : Nat := 0

abbrev Step := Outcome Engine Action Error

/-- The flusher of one file makes a prefix of it durable. -/
inductive Env
  | syncSegment (tp : Topition) (base : Int) (upTo : Nat)
  | syncWal (seq upTo : Nat)

end Tansu.Nvme

import Tansu.Nvme.Wal

/-!
# Recovery

Boot from what a crash left on disk (`nvme/recovery.rs`): load the newest
snapshot, replay the log files above it, scan the segments of every partition
directory, and pin the last stable offset below the transactions that are still
open.  The object-store tier is not configured.
-/

namespace Tansu.Nvme

open Std Tansu.Lib

/-- What survives a crash. -/
structure Disk where
  dirs : BTreeMap Topition SegmentDir := ∅
  wals : BTreeMap Nat (List WalRecord) := ∅
  snapshots : BTreeMap Nat SnapshotDoc := ∅

/-- A prepared transaction that boot has to finish. -/
structure InDoubt where
  transactionId : String
  producerId : Int
  producerEpoch : Int
  committed : Bool
deriving DecidableEq

structure Recovered where
  coord : CoordState
  groups : BTreeMap Group (GroupDetail × Version)
  groupOffsets : BTreeMap (Group × Topition) OffsetCommitRequest
  partitions : BTreeMap Topition PartitionInner
  dirs : BTreeMap Topition SegmentDir
  walSeq : Nat
  inDoubt : List InDoubt

/-! ## Segment scan -/

/-- Widen the range of one partition to cover `[offset, offset_end]`. -/
def TxnDetail.mergeRange (d : TxnDetail) (tp : Topition) (offset offsetEnd : Int) : TxnDetail :=
  { d with produces := d.produces.alter tp fun
      | some (some range) =>
        some (some ⟨min range.offsetStart offset, max range.offsetEnd offsetEnd⟩)
      | _ => some (some ⟨offset, offsetEnd⟩) }

namespace CoordState

/-- Which transactional id a producer id belongs to. -/
def txnByProducer (s : CoordState) (pid : Int) : Option String :=
  (s.transactions.toList.filter fun entry => entry.2.producer = pid).getLast?.map (·.1)

/-- Idempotent producer sequences continue from what is on disk. -/
def scanSequence (s : CoordState) (tp : Topition) (batch : Batch) : CoordState :=
  if batch.isIdempotent then
    let next := wrapI32 (wrapI32 (batch.baseSequence + batch.lastOffsetDelta) + 1)
    let scan (pd : ProducerDetail) : ProducerDetail :=
      ⟨pd.sequences.alter batch.producerEpoch fun sequences =>
        some ((sequences.getD ∅).alter tp fun sequence => some (max (sequence.getD 0) next))⟩
    { s with producers := s.producers.alter batch.producerId fun pd => some (scan (pd.getD {})) }
  else s

/-- Rebuild the produce range of the open transaction that a data batch belongs to, by
its producer id and epoch. -/
def rebuildRange (s : CoordState) (tp : Topition) (pid epoch offset offsetEnd : Int) :
    CoordState :=
  match s.txnByProducer pid with
  | none => s
  | some t =>
    match s.detail? t epoch with
    | none => s
    | some detail =>
      if detail.state = some .begin then
        s.modifyDetail t epoch (·.mergeRange tp offset offsetEnd)
      else s

def scanRange (s : CoordState) (tp : Topition) (attributes : BatchAttribute)
    (frame : SegmentFrame) : CoordState :=
  if attributes.transaction && !attributes.control then
    s.rebuildRange tp frame.batch.producerId frame.batch.producerEpoch frame.baseOffset
      frame.lastOffset
  else s

end CoordState

/-- The index entry of a batch in a segment. -/
def SegmentFrame.entry (frame : SegmentFrame) (segmentBase : Int)
    (attributes : BatchAttribute) (cached : Option Nat) : BatchEntry :=
  { segmentBase
    position := frame.position
    len := frame.batch.framedLen
    tiered := false
    cached
    lastOffsetDelta := frame.batch.lastOffsetDelta
    maxTimestamp := frame.batch.maxTimestamp
    isControl := attributes.control
    isTransactional := attributes.transaction
    producerId := frame.batch.producerId
    producerEpoch := frame.batch.producerEpoch
    baseSequence := frame.batch.baseSequence }

/-- One batch of the segment scan. -/
def scanFrame (tp : Topition) (segmentBase : Int) (acc : PartitionInner × CoordState)
    (frame : SegmentFrame) : Except Error (PartitionInner × CoordState) := do
  let attributes ← BatchAttribute.tryFrom frame.batch.attributes
  let inner := acc.1.index frame.baseOffset (frame.entry segmentBase attributes none) 0
  return ({ inner with nextOffset := max inner.nextOffset (frame.lastOffset + 1) },
    (acc.2.scanSequence tp frame.batch).scanRange tp attributes frame)

def scanPartition (tp : Topition) (dir : SegmentDir) (skeleton : Skeleton) (coord : CoordState) :
    Except Error (PartitionInner × CoordState) := do
  let empty : PartitionInner := { logStart := skeleton.logStart, aborted := skeleton.aborted }
  let (inner, coord) ← dir.toList.foldlM (fun acc (base, file) =>
    file.frames.foldlM (scanFrame tp base) acc) (empty, coord)
  let next := max inner.nextOffset inner.logStart
  -- Everything scanned survived the crash; the recovered log start is applied anew.
  let inner := { inner with nextOffset := next, durableOffset := next, logStart := 0 }
  return (inner.advanceLogStart skeleton.logStart, coord)

/-! ## Boot -/

namespace Recovered

/-- The log files above a snapshot, in order. -/
def walRecords (disk : Disk) (snapshotSeq : Nat) : List WalRecord :=
  (disk.wals.toList.filter fun entry => snapshotSeq < entry.1).flatMap (·.2)

/-- The newest snapshot. -/
def loadLatest (disk : Disk) : Option SnapshotDoc :=
  (BTreeMap.lastKey? disk.snapshots).bind (disk.snapshots[·]?)

/-- Snapshot, then the log records it does not capture. -/
def replayed (disk : Disk) : ReplayState :=
  match loadLatest disk with
  | none => replay {} (walRecords disk 0)
  | some doc => replay doc.state (walRecords disk doc.walSeq)

/-- Scan every directory that carries a recognised name. -/
def scanDirs (s : ReplayState) (dirs : BTreeMap Topition SegmentDir) :
    Except Error (BTreeMap Topition PartitionInner × CoordState) :=
  let recognised := dirs.toList.filter fun entry => entry.1.recognised
  recognised.foldlM (fun (partitions, coord) (tp, dir) => do
    let (inner, coord) ← scanPartition tp dir (s.skeletons[tp]?.getD {}) coord
    return (partitions.insert tp inner, coord)) (∅, s.coord)

/-- Partitions that snapshot and log know but that were not scanned. -/
def addSkeletons (skeletons : BTreeMap Topition Skeleton)
    (partitions : BTreeMap Topition PartitionInner) : BTreeMap Topition PartitionInner :=
  skeletons.toList.foldl (fun m (tp, skeleton) => m.insertIfNew tp
    { logStart := skeleton.logStart
      nextOffset := skeleton.logStart
      durableOffset := skeleton.logStart
      aborted := skeleton.aborted }) partitions

/-- The partitions of every known topic. -/
def topicPartitions (coord : CoordState) : List Topition :=
  coord.topics.values.flatMap fun metadata =>
    (List.range metadata.topic.numPartitions.toNat).map fun n => ⟨metadata.topic.name, n⟩

/-- Open transactions, Begin or prepared, with the ranges they produced. -/
def openRanges (coord : CoordState) : List (OpenTxnKey × Topition × TxnProduceOffset) :=
  coord.transactions.toList.flatMap fun (t, txn) =>
    txn.epochs.toList.flatMap fun (e, detail) =>
      if detail.state.isSome && !detail.isTerminal then
        detail.ranges.toList.map fun (tp, range) => ((t, txn.producer, e), tp, range)
      else []

/-- Open transactions pin the last stable offset where they produced. -/
def addPins (coord : CoordState) (partitions : BTreeMap Topition PartitionInner) :
    BTreeMap Topition PartitionInner :=
  (openRanges coord).foldl (fun m (key, tp, range) => m.modify tp fun inner =>
    { inner with openTxns := inner.openTxns.insert key range.offsetStart }) partitions

def inDoubtTransactions (coord : CoordState) : List InDoubt :=
  coord.transactions.toList.flatMap fun (t, txn) =>
    txn.epochs.toList.filterMap fun (e, detail) =>
      match detail.state with
      | some .prepareCommit => some ⟨t, txn.producer, e, true⟩
      | some .prepareAbort => some ⟨t, txn.producer, e, false⟩
      | _ => none

end Recovered

open Recovered in
def recover (disk : Disk) : Except Error Recovered := do
  let s := replayed disk
  let snapshotSeq := ((loadLatest disk).map (·.walSeq)).getD 0
  let walSeq := max ((BTreeMap.lastKey? disk.wals).getD 0) snapshotSeq + 1
  let (scanned, coord) ← scanDirs s disk.dirs
  let known := (topicPartitions coord).foldl (fun m tp => m.insertIfNew tp {})
    (addSkeletons s.skeletons scanned)
  return {
    coord
    groups := s.groups
    groupOffsets := s.groupOffsets
    partitions := addPins coord known
    dirs := known.keys.foldl (fun m tp => m.insertIfNew tp ∅) disk.dirs
    walSeq
    inDoubt := inDoubtTransactions coord }

end Tansu.Nvme

import Tansu.Nvme.Scan

/-!
# The object-store tier

Sealed segments are uploaded with a sidecar that lists their batches
(`nvme/tier.rs`).  An uploaded segment may be evicted from the disk, and recovery
indexes the segments that it finds in the tier and not on the disk from their
sidecars.  Which segments have been uploaded is not kept: any sealed one may have
been, and recovery may find any sidecars in the tier.  Snapshots and the active log
file are mirrored too; a directory without a snapshot boots from the mirror.
-/

namespace Tansu.Nvme

open Std Tansu.Lib

/-! ## Eviction -/

/-- The batches of a segment are read from the tier from now on. -/
def PartitionInner.evictSegment (inner : PartitionInner) (base : Int) : PartitionInner :=
  let freed := (inner.batches.values.filter (·.segmentBase = base)).filterMap (·.cached)
  { inner with
    batches := inner.batches.map fun _ entry =>
      if entry.segmentBase = base then { entry with tiered := true, cached := none } else entry
    cachedBytes := inner.cachedBytes - freed.sum }

/-- Only a segment that is on the disk and is not the active one goes. -/
def Engine.evictSegment (s : Engine) (tp : Topition) (base : Int) : Option Engine :=
  match s.partitions[tp]?, s.dirs[tp]?.bind (·[base]?) with
  | some inner, some file =>
    if inner.writer.map (·.baseOffset) = some base then none
    else some { s.setPartition tp (inner.evictSegment base) with
      dirs := s.dirs.modify tp (·.erase base)
      diskUsage := wrapSubU64 s.diskUsage file.size }
  | _, _ => none

/-! ## Recovery -/

structure SidecarEntry where
  offset : Int
  position : Nat
  len : Nat
  lastOffsetDelta : Int
  maxTimestamp : Int
  isControl : Bool
  isTransactional : Bool
  producerId : Int
  producerEpoch : Int
  baseSequence : Int

/-- The sidecars of the segments of each partition, by base offset. -/
abbrev Remote := BTreeMap Topition (BTreeMap Int (List SidecarEntry))

namespace SidecarEntry

def offsetEnd (entry : SidecarEntry) : Int := entry.offset + entry.lastOffsetDelta

def batchEntry (entry : SidecarEntry) (segmentBase : Int) : BatchEntry :=
  { segmentBase
    position := entry.position
    len := entry.len
    tiered := true
    cached := none
    lastOffsetDelta := entry.lastOffsetDelta
    maxTimestamp := entry.maxTimestamp
    isControl := entry.isControl
    isTransactional := entry.isTransactional
    producerId := entry.producerId
    producerEpoch := entry.producerEpoch
    baseSequence := entry.baseSequence }

/-- Idempotent producer sequences continue from what is in the tier. -/
def sequence (entry : SidecarEntry) (tp : Topition) (s : CoordState) : CoordState :=
  if 0 ≤ entry.producerId ∧ 0 ≤ entry.baseSequence then
    let next := wrapI32 (wrapI32 (entry.baseSequence + entry.lastOffsetDelta) + 1)
    let scan (pd : ProducerDetail) : ProducerDetail :=
      ⟨pd.sequences.alter entry.producerEpoch fun sequences =>
        some ((sequences.getD ∅).alter tp fun sequence => some (max (sequence.getD 0) next))⟩
    { s with producers := s.producers.alter entry.producerId fun pd => some (scan (pd.getD {})) }
  else s

def range (entry : SidecarEntry) (tp : Topition) (s : CoordState) : CoordState :=
  if entry.isTransactional && !entry.isControl then
    s.rebuildRange tp entry.producerId entry.producerEpoch entry.offset entry.offsetEnd
  else s

end SidecarEntry

namespace Recovered

def indexRemote (inner : PartitionInner) (entry : Int × SidecarEntry) : PartitionInner :=
  let inner := inner.index entry.2.offset (entry.2.batchEntry entry.1) 0
  { inner with nextOffset := max inner.nextOffset (entry.2.offsetEnd + 1) }

/-- The sidecars of the segments that are not on the disk. -/
def absent (sidecars : BTreeMap Int (List SidecarEntry)) (dir : SegmentDir) :
    List (Int × SidecarEntry) :=
  (sidecars.toList.filter fun entry => decide (entry.1 ∉ dir)).flatMap fun entry =>
    entry.2.map (entry.1, ·)

/-- A partition with its segments in the tier; the log start is applied anew. -/
def withRemote (inner : PartitionInner) (entries : List (Int × SidecarEntry)) : PartitionInner :=
  let logStart := inner.logStart
  let inner := entries.foldl indexRemote inner
  PartitionInner.advanceLogStart
    { inner with durableOffset := inner.nextOffset, logStart := 0 } logStart

def addRemote (remote : Remote) (dirs : BTreeMap Topition SegmentDir)
    (acc : BTreeMap Topition PartitionInner × CoordState) (tp : Topition) :
    BTreeMap Topition PartitionInner × CoordState :=
  match remote[tp]?, acc.1[tp]? with
  | some sidecars, some inner =>
    if sidecars.isEmpty then acc
    else
      let entries := absent sidecars (dirs[tp]?.getD ∅)
      (acc.1.insert tp (withRemote inner entries),
        entries.foldl (fun s entry => entry.2.range tp (entry.2.sequence tp s)) acc.2)
  | _, _ => acc

end Recovered

open Recovered in
/-- `recover` with a tier. -/
def recoverTiered (disk : Disk) (remote : Remote) : Except Error Recovered := do
  let s := replayed disk
  let snapshotSeq := ((loadLatest disk).map (·.walSeq)).getD 0
  let walSeq := max ((BTreeMap.lastKey? disk.wals).getD 0) snapshotSeq + 1
  let (scanned, coord) ← scanDirs s disk.dirs
  let known := (topicPartitions coord).foldl (fun m tp => m.insertIfNew tp {})
    (addSkeletons s.skeletons scanned)
  let dirs := known.keys.foldl (fun m tp => m.insertIfNew tp ∅) disk.dirs
  let found := known.keys.foldl (addRemote remote dirs) (known, coord)
  return {
    coord := found.2
    groups := s.groups
    groupOffsets := s.groupOffsets
    partitions := addPins found.2 found.1
    dirs
    walSeq
    inDoubt := inDoubtTransactions found.2 }

/-- What recovery with a tier is made of. -/
theorem partitions_of_recoverTiered {disk : Disk} {remote : Remote} {r : Recovered}
    (h : recoverTiered disk remote = .ok r) : disk.Scans ∧
      ∃ dirs found, found = disk.partitions.keys.foldl (Recovered.addRemote remote dirs)
          (disk.partitions, disk.coord) ∧
        r.coord = found.2 ∧ r.partitions = Recovered.addPins found.2 found.1 := by
  have hscans : disk.Scans := by
    cases hdirs : Recovered.scanDirs (Recovered.replayed disk) disk.dirs with
    | error e =>
      simp only [recoverTiered, hdirs] at h
      cases h
    | ok found =>
      have hrecover : ∃ r', recover disk = .ok r' := by
        simp only [recover, hdirs]
        exact ⟨_, rfl⟩
      exact scans_of_recover hrecover.choose_spec
  simp only [recoverTiered, scanDirs_eq hscans] at h
  cases h
  exact ⟨hscans, _, _, rfl, rfl, rfl⟩

/-! ## The mirror -/

/-- Snapshots and log files in the tier. -/
structure Mirror where
  snapshots : BTreeMap Nat SnapshotDoc := ∅
  wals : BTreeMap Nat (List WalRecord) := ∅

namespace Mirror

/-- `upload_snapshot`, once the snapshot is on the disk. -/
def uploadSnapshot (m : Mirror) (s : Engine) (seq : Nat) : Option Mirror :=
  (s.snapshots[seq]?).map fun doc => { m with snapshots := m.snapshots.insert seq doc }

/-- `mirror_wal`: the active file.  A capture that races an append ends in a torn
frame, and replay drops that. -/
def mirrorWal (m : Mirror) (s : Engine) (n : Nat) : Option Mirror :=
  (s.wals[s.walSeq]?).map fun file =>
    { m with wals := m.wals.insert s.walSeq (file.replayable.take n) }

def deleteWalsBelow (m : Mirror) (retiredSeq : Nat) : Mirror :=
  { m with wals := m.wals.filter fun seq _ => decide (retiredSeq < seq) }

/-- Cold bootstrap: a directory without a snapshot gets the newest mirrored one and
the mirrored log files above it. -/
def bootstrap (m : Mirror) (disk : Disk) : Disk :=
  if disk.snapshots.isEmpty then
    match BTreeMap.lastKey? m.snapshots with
    | none => disk
    | some seq =>
      match m.snapshots[seq]? with
      | none => disk
      | some doc => { disk with
          snapshots := disk.snapshots.insert seq doc
          wals := (m.wals.toList.filter fun entry => seq < entry.1).foldl
            (fun wals entry => wals.insert entry.1 entry.2) disk.wals }
  else disk

end Mirror

/-! ## Lives with a tier -/

structure TieredWorld where
  world : EngineWorld
  mirror : Mirror

inductive TierEvent
  | step (l : EngineLabel)
  | evict (tp : Topition) (base : Int)
  | uploadSnapshot (seq : Nat)
  | mirrorWal (n : Nat)
  | deleteWalsBelow (retiredSeq : Nat)
  /-- A crash, and the boot after it; with no cut the directory is lost. -/
  | restart (cut : Option Cut) (remote : Remote)

/-- What boot starts from. -/
def TieredWorld.disk (w : TieredWorld) (cut : Option Cut) : Disk :=
  w.mirror.bootstrap ((cut.map w.world.shared.crash).getD {})

def tieredLives (cfg : Config) : System TieredWorld TierEvent where
  step w
    | .step l => ((machine cfg).step w.world l).map ({ w with world := · })
    | .evict tp base => (w.world.shared.evictSegment tp base).map fun s =>
        { w with world := { w.world with shared := s } }
    | .uploadSnapshot seq =>
      (w.mirror.uploadSnapshot w.world.shared seq).map ({ w with mirror := · })
    | .mirrorWal n => (w.mirror.mirrorWal w.world.shared n).map ({ w with mirror := · })
    | .deleteWalsBelow seq => some { w with mirror := w.mirror.deleteWalsBelow seq }
    | .restart cut remote =>
      match recoverTiered (w.disk cut) remote with
      | .ok r => some { w with world := rebooted (w.disk cut) r }
      | .error _ => none

end Tansu.Nvme

import Tansu.Nvme.Coordination

/-!
# Cleanup and snapshots

`delete_records`, `apply_retention`, the age seal of the tiering tick, and
`snapshot_now`, which rotates the log and captures the state under the
coordination mutex and retires the old log files once the snapshot is written.
-/

namespace Tansu.Nvme

open Std Tansu.Lib

namespace Cleanup

/-! ## Delete records -/

def deleteRecord (s : Engine) (known : Bool) (tp : Topition) (offset : Int) : Step :=
  if !known then .ok s []
  else
    match s.partitions[tp]? with
    | none => .ok s []
    | some inner =>
      -- -1 truncates to the high watermark.
      let target := if offset < 0 then inner.highWatermark else offset
      if inner.highWatermark < target then .ok s []
      else
        let inner := inner.advanceLogStart target
        .ok (s.setPartition tp inner) [Transactions.logged (.logStartAdvance tp inner.logStart)]

/-! ## Retention -/

/-- `str::parse::<i64>`. -/
def parseI64 (s : String) : Option Int :=
  let digits (cs : List Char) : Option Int :=
    if cs.isEmpty ∨ ¬ cs.all Char.isDigit then none
    else some (cs.foldl (fun n c => 10 * n + (c.toNat - '0'.toNat : Nat)) 0)
  let value := match s.toList with
    | '-' :: cs => (digits cs).map (- ·)
    | '+' :: cs => digits cs
    | cs => digits cs
  value.filter fun n => decide (-2 ^ 63 ≤ n ∧ n < 2 ^ 63)

/-- `retention.ms` and `retention.bytes` of a topic. -/
def retentionOf (topic : CreatableTopic) : Int × Int :=
  (topic.configs.getD []).foldl (fun acc config =>
    match config with
    | ("retention.ms", some value) => ((parseI64 value).getD acc.1, acc.2)
    | ("retention.bytes", some value) => (acc.1, (parseI64 value).getD acc.2)
    | _ => acc) (7 * 24 * 60 * 60 * 1000, -1)

/-- Newest timestamp and bytes of every sealed segment, from the index. -/
def sealedSegments (inner : PartitionInner) : BTreeMap Int (Int × Nat) :=
  let active := inner.writer.map (·.baseOffset)
  inner.batches.values.foldl (fun m entry =>
    if some entry.segmentBase = active then m
    else m.alter entry.segmentBase fun segment =>
      let segment := segment.getD (-2 ^ 63, 0)
      some (max segment.1 entry.maxTimestamp, segment.2 + entry.len)) ∅

/-- Walk the sealed segments, oldest first, as long as they are expired or the
partition is oversize; the start moves to where the next one begins. -/
def retentionStart (nowMs ms bytes : Int) (tail : Int) :
    List (Int × Int × Nat) → Int → Nat → Int
  | [], newStart, _ => newStart
  | (_, maxTs, segBytes) :: rest, newStart, total =>
    let boundary := (rest.head?.map (·.1)).getD tail
    let expired := 0 ≤ ms ∧ 0 ≤ maxTs ∧ maxTs < nowMs - ms
    let oversize := 0 ≤ bytes ∧ bytes < total
    if expired ∨ oversize then
      retentionStart nowMs ms bytes tail rest (max newStart boundary) (total - segBytes)
    else newStart

def retention (s : Engine) (now : Int) : Step :=
  .ok s (s.partitions.keys.filterMap fun tp =>
    (s.coord.topics[tp.topic]?).map fun metadata =>
      let (ms, bytes) := retentionOf metadata.topic
      .cleanup (.retain now ms bytes tp))

def retain (s : Engine) (now : Int) (ms bytes : Int) (tp : Topition) : Step :=
  if ms < 0 ∧ bytes < 0 then .ok s []
  else
    match s.partitions[tp]? with
    | none => .ok s []
    | some inner =>
      let active := inner.writer.map (·.baseOffset)
      let segments := (sealedSegments inner).toList
      let total := (segments.map (·.2.2)).sum + (inner.writer.map (·.position)).getD 0
      let newStart := retentionStart now ms bytes (active.getD inner.nextOffset) segments
        inner.logStart total
      if newStart ≤ inner.logStart then .ok s []
      else
        let inner := inner.advanceLogStart newStart
        match s.dirs[tp]? with
        | none => .err (s.setPartition tp inner) (.message "nvme read_dir")
        | some dir =>
          let files := dir.keys.filter fun base =>
            decide (base < newStart) && decide (some base ≠ active)
          .ok (s.setPartition tp inner)
            (if files.isEmpty then []
              else files.map (fun base => .cleanup (.removeSegment tp base)) ++
                [Transactions.logged (.logStartAdvance tp inner.logStart)])

def removeSegment (s : Engine) (tp : Topition) (base : Int) : Step :=
  let reclaimed := ((s.dirs[tp]?.bind (·[base]?)).map (·.size)).getD 0
  .ok { s with
    dirs := s.dirs.modify tp (·.erase base)
    diskUsage := wrapSubU64 s.diskUsage reclaimed } []

/-- The tiering tick seals an active segment that is not empty and has aged. -/
def sealAged (c : Choice) (inner : PartitionInner) : PartitionInner :=
  if c.aged ∧ inner.writer.any (0 < ·.position) then { inner with writer := none } else inner

def exec (s : Engine) (c : Choice) : CleanupStep → Step
  | .deleteRecords requests => .ok s (requests.map fun (tp, offset) =>
      .cleanup (.deleteRecord (decide (tp.topic ∈ s.coord.topics)) tp offset))
  | .deleteRecord known tp offset => deleteRecord s known tp offset
  | .retention now => retention s now
  | .retain now ms bytes tp => retain s now ms bytes tp
  | .removeSegment tp base => removeSegment s tp base
  | .tick => .ok s (s.partitions.keys.map fun tp => .cleanup (.sealAged tp))
  | .sealAged tp => .ok { s with partitions := s.partitions.modify tp (sealAged c) } []

end Cleanup

/-! ## Snapshots -/

namespace Snapshot

/-- A new log file takes over; the coordination mutex is held from here on. -/
def rotate (s : Engine) (c : Choice) : Step :=
  let next := s.walSeq + 1
  if c.fault = some .create ∨ next ∈ s.wals then .err s (.message "nvme wal create")
  else .ok { s with coordLocked := true, walSeq := next, wals := s.wals.insert next {} }
    [.snapshot (.capture s.walSeq)]

def capturePartition (s : Engine) (retiredSeq : Nat) (skeletons : BTreeMap Topition Skeleton) :
    List Topition → Step
  | [] => .ok { s with partitionsLocked := false } [.snapshot (.captureState retiredSeq skeletons)]
  | tp :: todo =>
    let skeletons := match s.partitions[tp]? with
      | none => skeletons
      | some inner => skeletons.insert tp ⟨inner.logStart, inner.aborted⟩
    .ok s [.snapshot (.capturePartition retiredSeq todo skeletons)]

/-- `SnapshotDoc::from_state`; the coordination mutex is released. -/
def captureState (s : Engine) (retiredSeq : Nat) (skeletons : BTreeMap Topition Skeleton) : Step :=
  .ok { s with coordLocked := false }
    [.snapshot (.awaitSeal ⟨retiredSeq, ⟨s.coord, s.groups, s.groupOffsets, skeletons⟩⟩)]

/-- The final sync of the retired log file. -/
def awaitSeal (s : Engine) (c : Choice) (doc : SnapshotDoc) : Step :=
  if c.fault = some .fsync then .err s (.message "nvme fdatasync")
  else if s.walSynced doc.walSeq ((s.wals[doc.walSeq]?.map (·.records.length)).getD 0) then
    .ok s [.snapshot (.write doc)]
  else .blocked

def removeWal (cfg : Config) (s : Engine) (seq : Nat) : Step :=
  let reclaimed := (s.wals[seq]?.map (·.size cfg)).getD 0
  .ok { s with
    wals := s.wals.erase seq
    diskUsage := wrapSubU64 s.diskUsage reclaimed } []

/-- The snapshots older than the newest two are removed. -/
def pruned (snapshots : BTreeMap Nat SnapshotDoc) : BTreeMap Nat SnapshotDoc :=
  (snapshots.keys.take (snapshots.size - 2)).foldl (fun m seq => m.erase seq) snapshots

def exec (cfg : Config) (s : Engine) (c : Choice) : SnapshotStep → Step
  | .ifGrown => .ok s (if s.walLength = 0 then [] else [.snapshot .rotate])
  | .rotate => rotate s c
  | .capture retiredSeq => .ok { s with partitionsLocked := true }
      [.snapshot (.capturePartition retiredSeq s.partitions.keys ∅)]
  | .capturePartition retiredSeq todo skeletons => capturePartition s retiredSeq skeletons todo
  | .captureState retiredSeq skeletons => captureState s retiredSeq skeletons
  | .awaitSeal doc => awaitSeal s c doc
  | .write doc =>
    if c.fault = some .write then .err s (.message "nvme snapshot write")
    else .ok { s with snapshots := s.snapshots.insert doc.walSeq doc }
      [.snapshot (.retire doc.walSeq)]
  | .retire retiredSeq => .ok s ((s.wals.keys.filter (· ≤ retiredSeq)).map (fun seq =>
      .snapshot (.removeWal seq)) ++ [.snapshot .prune])
  | .removeWal seq => removeWal cfg s seq
  | .prune => .ok { s with snapshots := pruned s.snapshots } []

end Snapshot

end Tansu.Nvme

import Tansu.Nvme.State

/-!
# Partitions and their segment files

Per-partition log state (`nvme/partition.rs`) and the segment files it indexes
(`nvme/log.rs`).  A segment file is the list of the frames written to it and the
length of the prefix that is known to be on stable storage.  Read handles and
tier uploads are not modelled.
-/

namespace Tansu.Nvme

open Std Tansu.Lib

/-- `u64::fetch_sub` and `-=` of a release build. -/
def wrapSubU64 (a b : Nat) : Nat := (a + (2 ^ 64 - b % 2 ^ 64)) % 2 ^ 64

theorem wrapSubU64_eq {n m : Nat} (h : m ≤ n) (hn : n < 2 ^ 64) : wrapSubU64 n m = n - m := by
  unfold wrapSubU64
  rw [Nat.mod_eq_of_lt (show m < 2 ^ 64 by omega)]
  omega

/-- Key of one transaction incarnation on a partition: transactional id,
producer id and epoch. -/
abbrev OpenTxnKey := String × Int × Int

instance instTransOrdOpenTxnKey : TransOrd OpenTxnKey := inferInstance

structure BatchEntry where
  segmentBase : Int
  position : Nat
  len : Nat
  tiered : Bool
  /-- Length of the batch while its bytes are in the tail cache. -/
  cached : Option Nat
  lastOffsetDelta : Int
  maxTimestamp : Int
  isControl : Bool
  isTransactional : Bool
  producerId : Int
  producerEpoch : Int
  baseSequence : Int
deriving DecidableEq

/-- The entry as it is on disk, without its cached bytes. -/
def BatchEntry.stored (entry : BatchEntry) : BatchEntry := { entry with cached := none }

structure AbortedRange where
  producer : Int
  offsetStart : Int
  offsetEnd : Int
deriving DecidableEq

/-- The active segment of a partition. -/
structure SegmentWriter where
  baseOffset : Int
  position : Nat
deriving DecidableEq

structure PartitionInner where
  /-- Which `Arc` this is: a topic deleted and created again gets new ones. -/
  handle : Nat := 0
  logStart : Int := 0
  nextOffset : Int := 0
  /-- First offset that is not durable yet: the high watermark. -/
  durableOffset : Int := 0
  batches : BTreeMap Int BatchEntry := ∅
  /-- First offset of every open transaction that produced here. -/
  openTxns : BTreeMap OpenTxnKey Int := ∅
  aborted : List AbortedRange := []
  writer : Option SegmentWriter := none
  cacheQueue : List Int := []
  cachedBytes : Nat := 0

namespace PartitionInner

def highWatermark (p : PartitionInner) : Int := p.durableOffset

def lastStable (p : PartitionInner) : Int :=
  min (p.openTxns.values.min?.getD p.durableOffset) p.durableOffset

/-- Drops the oldest cached batches until the tail cache is within its budget. -/
def evict (cacheBudget : Nat) (p : PartitionInner) : List Int → PartitionInner
  | [] => { p with cacheQueue := [] }
  | oldest :: queue =>
    if cacheBudget < p.cachedBytes then
      match p.batches[oldest]?.bind (·.cached) with
      | none => evict cacheBudget p queue
      | some len =>
        let batches := p.batches.modify oldest ({ · with cached := none })
        evict cacheBudget { p with batches, cachedBytes := wrapSubU64 p.cachedBytes len } queue
    else { p with cacheQueue := oldest :: queue }

/-- Record a produced batch in the index and the tail cache. -/
def index (p : PartitionInner) (offset : Int) (entry : BatchEntry) (cacheBudget : Nat) :
    PartitionInner :=
  let batches := p.batches.insert offset entry
  let p' : PartitionInner := match entry.cached with
    | none => { p with batches }
    | some len => { p with
        batches
        cachedBytes := p.cachedBytes + len
        cacheQueue := p.cacheQueue ++ [offset] }
  p'.evict cacheBudget p'.cacheQueue

/-- `i64::clamp`. -/
def clamp (offset low high : Int) : Int :=
  if offset < low then low else if high < offset then high else offset

/-- Advance the log start, dropping the batches and the aborted ranges that end
below it; a batch that straddles the new start is kept whole. -/
def advanceLogStart (p : PartitionInner) (offset : Int) : PartitionInner :=
  let clamped := clamp offset p.logStart p.highWatermark
  let kept (base : Int) (entry : BatchEntry) : Bool :=
    decide (clamped ≤ base) || decide (clamped ≤ base + entry.lastOffsetDelta)
  let dropped := (p.batches.toList.filter fun (base, entry) => !kept base entry).filterMap
    (·.2.cached)
  { p with
    logStart := clamped
    batches := p.batches.filter kept
    cachedBytes := dropped.foldl (· - ·) p.cachedBytes
    aborted := p.aborted.filter fun range => decide (clamped ≤ range.offsetEnd) }

/-! ## What indexing keeps -/

/-- The parts of a partition that the tail cache has no influence on. -/
structure SameLog (p p' : PartitionInner) : Prop where
  handle : p'.handle = p.handle
  logStart : p'.logStart = p.logStart
  nextOffset : p'.nextOffset = p.nextOffset
  durableOffset : p'.durableOffset = p.durableOffset
  openTxns : p'.openTxns = p.openTxns
  aborted : p'.aborted = p.aborted
  writer : p'.writer = p.writer

theorem evict_sameLog (budget : Nat) (p : PartitionInner) (queue : List Int) :
    SameLog p (p.evict budget queue) := by
  induction queue generalizing p with
  | nil => constructor <;> rfl
  | cons oldest queue ih =>
    rw [evict]
    split
    · split
      · exact ih p
      · next len _ =>
        obtain ⟨h₁, h₂, h₃, h₄, h₅, h₆, h₇⟩ := ih { p with
          batches := p.batches.modify oldest ({ · with cached := none })
          cachedBytes := wrapSubU64 p.cachedBytes len }
        exact ⟨h₁, h₂, h₃, h₄, h₅, h₆, h₇⟩
    · constructor <;> rfl

theorem index_sameLog (p : PartitionInner) (offset : Int) (entry : BatchEntry) (budget : Nat) :
    SameLog p (p.index offset entry budget) := by
  unfold index
  cases entry.cached with
  | none =>
    obtain ⟨h₁, h₂, h₃, h₄, h₅, h₆, h₇⟩ := evict_sameLog budget
      { p with batches := p.batches.insert offset entry } p.cacheQueue
    exact ⟨h₁, h₂, h₃, h₄, h₅, h₆, h₇⟩
  | some len =>
    obtain ⟨h₁, h₂, h₃, h₄, h₅, h₆, h₇⟩ := evict_sameLog budget
      { p with
        batches := p.batches.insert offset entry
        cachedBytes := p.cachedBytes + len
        cacheQueue := p.cacheQueue ++ [offset] } (p.cacheQueue ++ [offset])
    exact ⟨h₁, h₂, h₃, h₄, h₅, h₆, h₇⟩

theorem evict_batches (budget : Nat) (p : PartitionInner) (queue : List Int) (o : Int) :
    ((p.evict budget queue).batches[o]?).map BatchEntry.stored =
      (p.batches[o]?).map BatchEntry.stored := by
  induction queue generalizing p with
  | nil => rfl
  | cons oldest queue ih =>
    rw [evict]
    split
    · split
      · exact ih p
      · rw [ih]
        simp only [BTreeMap.getElem?_modify_eq]
        split
        · rw [Option.map_map]; rfl
        · rfl
    · rfl

theorem index_batches (p : PartitionInner) (offset o : Int) (entry : BatchEntry)
    (budget : Nat) : ((p.index offset entry budget).batches[o]?).map BatchEntry.stored =
      if offset = o then some entry.stored else (p.batches[o]?).map BatchEntry.stored := by
  unfold index
  cases entry.cached <;>
    · rw [evict_batches, BTreeMap.getElem?_insert_eq]
      split <;> rfl

end PartitionInner

/-! ## Segment files -/

/-- A framed batch in a segment file, with the offset it was given. -/
structure SegmentFrame where
  baseOffset : Int
  position : Nat
  batch : Batch
deriving DecidableEq

namespace SegmentFrame

/-- First position behind the frame. -/
def endPosition (f : SegmentFrame) : Nat := f.position + f.batch.framedLen

/-- Last offset of the batch. -/
def lastOffset (f : SegmentFrame) : Int := f.baseOffset + f.batch.lastOffsetDelta

end SegmentFrame

/-- A segment file with every frame that was written to it.  A write that fails may
leave the first bytes of its frame; their checksum does not fit, so no scan gets past
them. -/
structure SegmentFile where
  frames : List SegmentFrame := []
  /-- Bytes of the frames, as the writer counts them. -/
  len : Nat := 0
  /-- Length of the prefix that an `fdatasync` has made durable. -/
  synced : Nat := 0
  /-- How many frames lie in front of the first bytes that a failed write left. -/
  torn : Option Nat := none
  /-- Bytes that failed writes left. -/
  scrap : Nat := 0
deriving DecidableEq

/-- A partition's directory: its segment files by base offset. -/
abbrev SegmentDir := BTreeMap Int SegmentFile

namespace SegmentFile

def append (f : SegmentFile) (baseOffset : Int) (batch : Batch) : SegmentFile :=
  { f with
    frames := f.frames ++ [⟨baseOffset, f.len, batch⟩]
    len := f.len + batch.framedLen }

/-- `write_all` failed behind the first `kept` bytes of a frame. -/
def tear (f : SegmentFile) (kept : Nat) : SegmentFile :=
  if kept = 0 then f
  else { f with torn := some (f.torn.getD f.frames.length), scrap := f.scrap + kept }

/-- The frames that a scan of the file reaches. -/
def scannable (f : SegmentFile) : List SegmentFrame :=
  f.frames.take (f.torn.getD f.frames.length)

/-- The length of the file. -/
def size (f : SegmentFile) : Nat := f.len + f.scrap

/-- The flusher's `fdatasync` reached position `upTo`. -/
def sync (f : SegmentFile) (upTo : Nat) : SegmentFile :=
  { f with synced := max f.synced (min upTo f.len) }

/-- The file after a crash that left its first `kept` bytes: the frames that a scan
finds wholly in them.  What is behind them is truncated by the scan. -/
def cut (f : SegmentFile) (kept : Nat) : SegmentFile :=
  let frames := f.scannable.filter fun frame => decide (frame.endPosition ≤ kept)
  let len := (frames.getLast?.map SegmentFrame.endPosition).getD 0
  { frames, len, synced := len }

variable (f : SegmentFile) (kept : Nat)

theorem scannable_subset : f.scannable ⊆ f.frames := List.take_subset _ _

@[simp] theorem tear_zero : f.tear 0 = f := rfl

@[simp] theorem tear_frames : (f.tear kept).frames = f.frames := by
  unfold tear
  split <;> rfl

end SegmentFile

end Tansu.Nvme

import Tansu.Nvme.Machine

/-!
# What recovery finds

`recover` without its error paths: once every frame on disk parses, recovery
succeeds, and what it returns is a function of the replayed log and of the
frames that the segment scan meets, in order.
-/

namespace Tansu.Nvme

open Std Tansu.Lib List BTreeMap ExtTreeMap

/-! ## Frames of a directory -/

/-- The frames of a directory with the base offsets of their segments, in the
order of the scan. -/
def SegmentDir.frames (dir : SegmentDir) : List (Int × SegmentFrame) :=
  dir.toList.flatMap fun entry => entry.2.frames.map (entry.1, ·)

variable {dir : SegmentDir} {base : Int} {f : SegmentFrame} {tp : Topition}

theorem SegmentDir.mem_frames : (base, f) ∈ SegmentDir.frames dir ↔
    ∃ file, dir[base]? = some file ∧ f ∈ file.frames := by
  simp only [frames, mem_flatMap, List.mem_map, Prod.mk.injEq, Prod.exists]
  constructor
  · rintro ⟨_, file, hfile, f, hf, rfl, rfl⟩
    exact ⟨file, mem_toList_iff_getElem?_eq_some.1 hfile, hf⟩
  · rintro ⟨file, hfile, hf⟩
    exact ⟨base, file, mem_toList_iff_getElem?_eq_some.2 hfile, f, hf, rfl, rfl⟩

/-- The attributes of the batch are well formed. -/
def SegmentFrame.Parses (f : SegmentFrame) : Prop :=
  ∃ attributes, BatchAttribute.tryFrom f.batch.attributes = .ok attributes

/-! ## The scan of one partition -/

/-- What the scan of a frame does to its partition. -/
def PartitionInner.scan (inner : PartitionInner) (entry : Int × SegmentFrame) : PartitionInner :=
  match BatchAttribute.tryFrom entry.2.batch.attributes with
  | .error _ => inner
  | .ok attributes =>
    let inner := inner.index entry.2.baseOffset (entry.2.entry entry.1 attributes none) 0
    { inner with nextOffset := max inner.nextOffset (entry.2.lastOffset + 1) }

/-- What the scan of a frame does to the coordination state. -/
def CoordState.scan (tp : Topition) (s : CoordState) (entry : Int × SegmentFrame) : CoordState :=
  match BatchAttribute.tryFrom entry.2.batch.attributes with
  | .error _ => s
  | .ok attributes => (s.scanSequence tp entry.2.batch).scanRange tp attributes entry.2

/-- The partition that a scan leaves. -/
def SegmentDir.recovered (dir : SegmentDir) (skeleton : Skeleton) : PartitionInner :=
  let inner := (SegmentDir.frames dir).foldl PartitionInner.scan
    { logStart := skeleton.logStart, aborted := skeleton.aborted }
  let next := max inner.nextOffset inner.logStart
  PartitionInner.advanceLogStart
    { inner with nextOffset := next, durableOffset := next, logStart := 0 } skeleton.logStart

theorem foldlM_eq_ok {α β ε : Type} {g : β → α → Except ε β} {k : β → α → β} {l : List α}
    {b : β} (h : ∀ b, ∀ a ∈ l, g b a = .ok (k b a)) : l.foldlM g b = .ok (l.foldl k b) := by
  induction l generalizing b with
  | nil => rfl
  | cons a l ih =>
    rw [foldlM_cons, h b a mem_cons_self]
    exact ih fun b a' ha' => h b a' (mem_cons_of_mem a ha')

theorem scanFrame_eq {acc : PartitionInner × CoordState} (h : f.Parses) :
    scanFrame tp base acc f = .ok (acc.1.scan (base, f), acc.2.scan tp (base, f)) := by
  obtain ⟨attributes, ha⟩ := h
  simp only [scanFrame, ha, PartitionInner.scan, CoordState.scan]
  rfl

/-- One file of the scan. -/
def scanFile (tp : Topition) (acc : PartitionInner × CoordState) :
    Int × SegmentFile → Except Error (PartitionInner × CoordState) :=
  fun (base, file) => file.frames.foldlM (scanFrame tp base) acc

theorem scanPartition_scanFile {skeleton : Skeleton} {coord : CoordState} :
    scanPartition tp dir skeleton coord = do
      let found ← dir.toList.foldlM (scanFile tp)
        ({ logStart := skeleton.logStart, aborted := skeleton.aborted }, coord)
      let next := max found.1.nextOffset found.1.logStart
      return ({ found.1 with nextOffset := next, durableOffset := next, logStart := 0
        }.advanceLogStart skeleton.logStart, found.2) := rfl

theorem scanPartition_eq {skeleton : Skeleton} {coord : CoordState}
    (h : ∀ entry ∈ SegmentDir.frames dir, entry.2.Parses) :
    scanPartition tp dir skeleton coord = .ok (SegmentDir.recovered dir skeleton,
      (SegmentDir.frames dir).foldl (CoordState.scan tp) coord) := by
  have hfold (acc : PartitionInner × CoordState) : dir.toList.foldlM (scanFile tp) acc =
        .ok ((SegmentDir.frames dir).foldl
          (fun acc entry => (acc.1.scan entry, acc.2.scan tp entry)) acc) := by
    rw [SegmentDir.frames, foldl_flatMap]
    refine foldlM_eq_ok fun acc entry hentry => ?_
    rw [foldl_map]
    refine foldlM_eq_ok fun acc f hf => scanFrame_eq (h (entry.1, f) ?_)
    exact mem_flatMap.2 ⟨entry, hentry, List.mem_map.2 ⟨f, hf, rfl⟩⟩
  have hpair (l : List (Int × SegmentFrame)) (inner : PartitionInner) (coord : CoordState) :
      l.foldl (fun acc entry => (acc.1.scan entry, acc.2.scan tp entry)) (inner, coord) =
        (l.foldl PartitionInner.scan inner, l.foldl (CoordState.scan tp) coord) := by
    induction l generalizing inner coord with
    | nil => rfl
    | cons entry l ih => exact ih _ _
  simp only [scanPartition_scanFile, hfold, hpair]
  rfl

/-! ### The index that a scan builds -/

theorem PartitionInner.index_of_nil {p : PartitionInner} {entry : BatchEntry} {o : Int}
    {budget : Nat} (hq : p.cacheQueue = []) (hc : entry.cached = none) :
    p.index o entry budget = { p with batches := p.batches.insert o entry } := by
  obtain ⟨⟩ := p
  cases hq
  simp [index, hc, evict]

variable {inner : PartitionInner}

theorem PartitionInner.scan_eq {attributes : BatchAttribute} (hq : inner.cacheQueue = [])
    (ha : BatchAttribute.tryFrom f.batch.attributes = .ok attributes) :
    inner.scan (base, f) = { inner with
      batches := inner.batches.insert f.baseOffset (f.entry base attributes none)
      nextOffset := max inner.nextOffset (f.lastOffset + 1) } := by
  simp only [scan, ha, index_of_nil hq (show (f.entry base attributes none).cached = none from rfl)]

/-- The scan only adds batches and moves the next offset just past the last one. -/
theorem foldl_scan {l : List (Int × SegmentFrame)} (inner : PartitionInner)
    (hl : ∀ entry ∈ l, entry.2.Parses) (hq : inner.cacheQueue = []) :
    ∃ batches nextOffset,
      l.foldl PartitionInner.scan inner = { inner with batches, nextOffset } ∧
      inner.nextOffset ≤ nextOffset ∧ (∀ entry ∈ l, entry.2.lastOffset < nextOffset) ∧
      ∀ bound, inner.nextOffset ≤ bound → (∀ entry ∈ l, entry.2.lastOffset < bound) →
        nextOffset ≤ bound := by
  induction l generalizing inner with
  | nil => exact ⟨inner.batches, inner.nextOffset, rfl, le_rfl, by simp, fun _ h _ => h⟩
  | cons entry l ih =>
    obtain ⟨base, f⟩ := entry
    obtain ⟨attributes, ha⟩ := hl (base, f) mem_cons_self
    obtain ⟨batches, next, hfold, hle, hlt, hbound⟩ :=
      ih (inner.scan (base, f)) (fun e he => hl e (mem_cons_of_mem _ he))
        (by rw [PartitionInner.scan_eq hq ha]; exact hq)
    rw [PartitionInner.scan_eq hq ha] at hle hbound hfold
    simp only at hle hbound
    refine ⟨batches, next, ?_, by omega, fun e he => ?_, fun bound h₀ h => ?_⟩
    · rw [foldl_cons, PartitionInner.scan_eq hq ha, hfold]
    · rcases mem_cons.1 he with rfl | he
      · show f.lastOffset < next
        omega
      · exact hlt e he
    · have hf : f.lastOffset < bound := h (base, f) mem_cons_self
      exact hbound bound (by omega) fun e he => h e (mem_cons_of_mem _ he)

/-- A frame whose offset no other frame has is indexed under it. -/
theorem foldl_scan_batches {l : List (Int × SegmentFrame)} (inner : PartitionInner)
    {attributes : BatchAttribute} (hl : ∀ entry ∈ l, entry.2.Parses)
    (hq : inner.cacheQueue = []) (hmem : (base, f) ∈ l)
    (hunique : ∀ entry ∈ l, entry.2.baseOffset = f.baseOffset → entry = (base, f))
    (ha : BatchAttribute.tryFrom f.batch.attributes = .ok attributes) :
    (l.foldl PartitionInner.scan inner).batches[f.baseOffset]? =
      some (f.entry base attributes none) := by
  induction l using List.reverseRecOn with
  | nil => cases hmem
  | append_singleton l entry ih =>
    obtain ⟨base', f'⟩ := entry
    have hl' : ∀ e ∈ l, e.2.Parses := fun e he => hl e (mem_append_left _ he)
    obtain ⟨attributes', ha'⟩ := hl (base', f') (by simp)
    obtain ⟨batches, next, hfold, -⟩ := foldl_scan inner hl' hq
    have hq' : (l.foldl PartitionInner.scan inner).cacheQueue = [] := by
      rw [hfold]
      exact hq
    rw [foldl_append, foldl_cons, foldl_nil, PartitionInner.scan_eq hq' ha']
    simp only [getElem?_insert_eq]
    split
    · next ho =>
      cases hunique (base', f') (by simp) ho
      rw [ha] at ha'
      cases ha'
      rfl
    · next ho =>
      refine ih hl' ?_ fun e he => hunique e (mem_append_left _ he)
      rcases mem_append.1 hmem with h | h
      · exact h
      · cases mem_singleton.1 h
        exact absurd rfl ho

/-- A recovered partition whose log start is still 0. -/
structure SegmentDir.Recovers (dir : SegmentDir) (skeleton : Skeleton) (inner : PartitionInner) :
    Prop where
  logStart : inner.logStart = 0
  aborted : inner.aborted = skeleton.aborted.filter fun range => decide (0 ≤ range.offsetEnd)
  durable : inner.durableOffset = inner.nextOffset
  next : ∀ bound, 0 ≤ bound → (∀ entry ∈ SegmentDir.frames dir, entry.2.lastOffset < bound) →
    inner.nextOffset ≤ bound
  above : ∀ entry ∈ SegmentDir.frames dir, entry.2.lastOffset < inner.nextOffset
  batches : ∀ base f attributes, (base, f) ∈ SegmentDir.frames dir → 0 ≤ f.baseOffset →
    (∀ entry ∈ SegmentDir.frames dir, entry.2.baseOffset = f.baseOffset → entry = (base, f)) →
    BatchAttribute.tryFrom f.batch.attributes = .ok attributes →
    inner.batches[f.baseOffset]? = some (f.entry base attributes none)

theorem SegmentDir.recovers {skeleton : Skeleton} (h : skeleton.logStart = 0)
    (hparse : ∀ entry ∈ SegmentDir.frames dir, entry.2.Parses) :
    SegmentDir.Recovers dir skeleton (SegmentDir.recovered dir skeleton) := by
  obtain ⟨logStart, aborted⟩ := skeleton
  obtain rfl : logStart = 0 := h
  obtain ⟨batches, next, hfold, hle, hlt, hbound⟩ := foldl_scan { aborted } hparse rfl
  have hbatches {base : Int} {f : SegmentFrame} {attributes : BatchAttribute}
      (hmem : (base, f) ∈ SegmentDir.frames dir) :=
    @foldl_scan_batches base f _ { aborted } attributes hparse rfl hmem
  rw [hfold] at hbatches
  simp only at hle hbound hbatches
  have hmax : max next 0 = next := max_eq_left hle
  unfold recovered PartitionInner.advanceLogStart
  simp only [hfold, hmax, PartitionInner.highWatermark, PartitionInner.clamp]
  have hclamp : ¬ next < 0 := by omega
  constructor
  · simp [hclamp]
  · simp [hclamp]
  · rfl
  · exact fun bound h₀ hb => hbound bound h₀ hb
  · exact hlt
  · intro base f attributes hmem h₀ hunique ha
    rw [getElem?_filter', hbatches hmem hunique ha]
    simp [hclamp, h₀]

/-- What a scan leaves of any partition: no writer, a log start that snapshot and
log know, and a next offset above both and above every frame. -/
theorem SegmentDir.recovered_spec (skeleton : Skeleton)
    (hparse : ∀ entry ∈ SegmentDir.frames dir, entry.2.Parses) :
    (SegmentDir.recovered dir skeleton).writer = none ∧
      (SegmentDir.recovered dir skeleton).logStart = max 0 skeleton.logStart ∧
      skeleton.logStart ≤ (SegmentDir.recovered dir skeleton).nextOffset ∧
      ∀ entry ∈ SegmentDir.frames dir,
        entry.2.lastOffset < (SegmentDir.recovered dir skeleton).nextOffset := by
  obtain ⟨batches, next, hfold, hle, hlt, -⟩ :=
    foldl_scan { logStart := skeleton.logStart, aborted := skeleton.aborted } hparse rfl
  simp only at hle
  unfold recovered PartitionInner.advanceLogStart
  simp only [hfold, PartitionInner.highWatermark, PartitionInner.clamp]
  refine ⟨trivial, ?_, Int.le_max_right _ _, fun entry he => ?_⟩
  · split
    · omega
    · split <;> omega
  · exact Int.lt_of_lt_of_le (hlt entry he) (Int.le_max_left _ _)

/-! ## The whole of recovery -/

/-- The partition directories that recovery looks into. -/
def Disk.scanned (disk : Disk) : List (Topition × SegmentDir) :=
  disk.dirs.toList.filter fun entry => entry.1.recognised

def Disk.skeleton (disk : Disk) (tp : Topition) : Skeleton :=
  (Recovered.replayed disk).skeletons[tp]?.getD {}

/-- The coordination state after every frame has been scanned. -/
def Disk.coord (disk : Disk) : CoordState :=
  disk.scanned.foldl (fun coord entry =>
    (SegmentDir.frames entry.2).foldl (CoordState.scan entry.1) coord)
    (Recovered.replayed disk).coord

/-- The partitions before the open transactions pin them. -/
def Disk.partitions (disk : Disk) : BTreeMap Topition PartitionInner :=
  (Recovered.topicPartitions disk.coord).foldl (fun m tp => m.insertIfNew tp {})
    (Recovered.addSkeletons (Recovered.replayed disk).skeletons
      (disk.scanned.foldl (fun m entry =>
        m.insert entry.1 (SegmentDir.recovered entry.2 (disk.skeleton entry.1))) ∅))

/-- Every frame that recovery may scan parses. -/
def Disk.Parses (disk : Disk) : Prop :=
  ∀ (tp : Topition) (dir : SegmentDir), disk.dirs[tp]? = some dir →
    ∀ entry ∈ SegmentDir.frames dir, entry.2.Parses

/-- Every frame of the directories that recovery looks into parses. -/
def Disk.Scans (disk : Disk) : Prop :=
  ∀ entry ∈ disk.scanned, ∀ f ∈ SegmentDir.frames entry.2, f.2.Parses

variable {disk : Disk} {r : Recovered}

theorem Disk.Parses.scans (h : disk.Parses) : disk.Scans := fun entry he =>
  h entry.1 entry.2 (mem_toList_iff_getElem?_eq_some.1 (List.mem_filter.1 he).1)

theorem scanDirs_eq (h : disk.Scans) :
    Recovered.scanDirs (Recovered.replayed disk) disk.dirs =
      .ok (disk.scanned.foldl (fun m entry =>
        m.insert entry.1 (SegmentDir.recovered entry.2 (disk.skeleton entry.1))) ∅,
          disk.coord) := by
  have hpair (l : List (Topition × SegmentDir)) (m : BTreeMap Topition PartitionInner)
      (coord : CoordState) :
      l.foldl (fun (acc : BTreeMap Topition PartitionInner × CoordState) entry =>
          (acc.1.insert entry.1 (SegmentDir.recovered entry.2 (disk.skeleton entry.1)),
            (SegmentDir.frames entry.2).foldl (CoordState.scan entry.1) acc.2)) (m, coord) =
        (l.foldl (fun m entry =>
          m.insert entry.1 (SegmentDir.recovered entry.2 (disk.skeleton entry.1))) m,
          l.foldl (fun coord entry =>
            (SegmentDir.frames entry.2).foldl (CoordState.scan entry.1) coord) coord) := by
    induction l generalizing m coord with
    | nil => rfl
    | cons entry l ih => exact ih _ _
  rw [Disk.coord, ← hpair]
  refine foldlM_eq_ok fun acc entry hentry => ?_
  obtain ⟨tp, dir⟩ := entry
  simp only [scanPartition_eq (h (tp, dir) hentry)]
  rfl

/-- The log file that boot opens. -/
def Disk.walSeq (disk : Disk) : Nat :=
  max ((BTreeMap.lastKey? disk.wals).getD 0)
    (((Recovered.loadLatest disk).map (·.walSeq)).getD 0) + 1

/-- What recovery returns. -/
def Disk.recovered (disk : Disk) : Recovered where
  coord := disk.coord
  groups := (Recovered.replayed disk).groups
  groupOffsets := (Recovered.replayed disk).groupOffsets
  partitions := Recovered.addPins disk.coord disk.partitions
  dirs := disk.partitions.keys.foldl (fun m tp => m.insertIfNew tp ∅) disk.dirs
  walSeq := disk.walSeq
  inDoubt := Recovered.inDoubtTransactions disk.coord

/-- **Recovery succeeds** when every frame it scans parses. -/
theorem recover_eq (h : disk.Scans) : recover disk = .ok disk.recovered := by
  simp only [recover, scanDirs_eq h]
  rfl

theorem exists_of_foldlM_eq_ok {α β ε : Type} {g : β → α → Except ε β} {l : List α} {b b' : β}
    (h : l.foldlM g b = .ok b') : ∀ a ∈ l, ∃ b₁ b₂, g b₁ a = .ok b₂ := by
  induction l generalizing b with
  | nil => simp
  | cons x l ih =>
    rw [foldlM_cons] at h
    cases hx : g b x with
    | error e =>
      rw [hx] at h
      cases h
    | ok b₁ =>
      rw [hx] at h
      intro a ha
      rcases mem_cons.1 ha with rfl | ha
      · exact ⟨b, b₁, hx⟩
      · exact ih h a ha

/-- Recovery fails on a frame that does not parse. -/
theorem scans_of_recover (h : recover disk = .ok r) : disk.Scans := by
  rintro ⟨tp, dir⟩ hentry ⟨base, f⟩ hf
  -- Each of the nested loops goes through only if every iteration does.
  cases hdirs : Recovered.scanDirs (Recovered.replayed disk) disk.dirs with
  | error e =>
    simp only [recover, hdirs] at h
    cases h
  | ok found =>
    obtain ⟨acc, acc', hpart⟩ := exists_of_foldlM_eq_ok hdirs (tp, dir) hentry
    cases hscan : scanPartition tp dir ((Recovered.replayed disk).skeletons[tp]?.getD {}) acc.2 with
    | error e =>
      simp only [hscan] at hpart
      cases hpart
    | ok scanned =>
      rw [scanPartition_scanFile] at hscan
      generalize hfiles : dir.toList.foldlM (scanFile tp) _ = files at hscan
      cases files with
      | error e => cases hscan
      | ok files =>
        obtain ⟨file, hfile, hmem⟩ := SegmentDir.mem_frames.1 hf
        obtain ⟨acc₁, acc₂, hfile⟩ := exists_of_foldlM_eq_ok hfiles (base, file)
          (mem_toList_iff_getElem?_eq_some.2 hfile)
        obtain ⟨acc₃, acc₄, hframe⟩ := exists_of_foldlM_eq_ok hfile f hmem
        cases hattr : BatchAttribute.tryFrom f.batch.attributes with
        | error e =>
          simp only [scanFrame, hattr] at hframe
          cases hframe
        | ok attributes => exact ⟨attributes, hattr⟩

theorem recovered_of_recover (h : recover disk = .ok r) : r = disk.recovered := by
  rw [recover_eq (scans_of_recover h)] at h
  exact (Except.ok.inj h).symm

theorem Disk.getElem?_partitions (hdir : disk.dirs[tp]? = some dir) (htp : tp.recognised) :
    disk.partitions[tp]? = some (SegmentDir.recovered dir (disk.skeleton tp)) := by
  refine getElem?_foldl_insertIfNew _ (getElem?_foldl_insertIfNew _ ?_)
  refine getElem?_foldl_insert_of_mem (tp, dir) ?_ ?_
  · exact List.mem_filter.2 ⟨mem_toList_iff_getElem?_eq_some.2 hdir, htp⟩
  · rintro ⟨tp', dir'⟩ hentry rfl
    have := mem_toList_iff_getElem?_eq_some.1 (List.mem_filter.1 hentry).1
    rw [hdir] at this
    cases this
    rfl

/-- Pins change nothing but the open transactions of a partition. -/
theorem getElem?_addPins (coord : CoordState) {m : BTreeMap Topition PartitionInner}
    (h : m[tp]? = some inner) :
    ∃ openTxns, (Recovered.addPins coord m)[tp]? = some { inner with openTxns } := by
  unfold Recovered.addPins
  generalize Recovered.openRanges coord = l
  induction l generalizing m inner with
  | nil => exact ⟨inner.openTxns, h⟩
  | cons entry l ih =>
    by_cases htp : entry.2.1 = tp
    · obtain ⟨openTxns, hl⟩ := ih (m := m.modify entry.2.1 fun inner => { inner with
        openTxns := inner.openTxns.insert entry.1 entry.2.2.offsetStart })
        (by rw [BTreeMap.getElem?_modify_eq, if_pos htp, h]; rfl)
      exact ⟨openTxns, hl⟩
    · exact ih (by rw [BTreeMap.getElem?_modify_eq, if_neg htp, h])

theorem addPins_inv (coord : CoordState) {m : BTreeMap Topition PartitionInner}
    {inner' : PartitionInner} (h : (Recovered.addPins coord m)[tp]? = some inner') :
    ∃ inner openTxns, m[tp]? = some inner ∧ inner' = { inner with openTxns } := by
  cases hm : m[tp]? with
  | some inner =>
    obtain ⟨openTxns, hp⟩ := getElem?_addPins coord hm
    rw [hp] at h
    cases h
    exact ⟨inner, openTxns, rfl, rfl⟩
  | none =>
    exfalso
    unfold Recovered.addPins at h
    generalize Recovered.openRanges coord = l at h
    induction l generalizing m with
    | nil =>
      rw [foldl_nil, hm] at h
      cases h
    | cons entry l ih =>
      refine ih ?_ h
      rw [BTreeMap.getElem?_modify_eq, hm]
      split <;> rfl

/-- A partition before it is pinned comes from a scan, from snapshot and log, or
from the partition count of its topic. -/
theorem Disk.forall_partitions {P : Topition → PartitionInner → Prop}
    (hscan : ∀ entry ∈ disk.scanned,
      P entry.1 (SegmentDir.recovered entry.2 (disk.skeleton entry.1)))
    (hskeleton : ∀ entry ∈ (Recovered.replayed disk).skeletons.toList, P entry.1
      { logStart := entry.2.logStart
        nextOffset := entry.2.logStart
        durableOffset := entry.2.logStart
        aborted := entry.2.aborted })
    (hnew : ∀ tp, P tp {}) (inner : PartitionInner) (hp : disk.partitions[tp]? = some inner) :
    P tp inner := by
  have hscanned : ∀ tp inner, (disk.scanned.foldl (fun m entry =>
      m.insert entry.1 (SegmentDir.recovered entry.2 (disk.skeleton entry.1)))
      (∅ : BTreeMap Topition PartitionInner))[tp]? = some inner → P tp inner := by
    refine forall_foldl_insert (fun _ _ hnone => ?_) hscan
    rw [getElem?_empty] at hnone
    cases hnone
  have hskeletons : ∀ tp inner, (Recovered.addSkeletons (Recovered.replayed disk).skeletons
      (disk.scanned.foldl (fun m entry =>
        m.insert entry.1 (SegmentDir.recovered entry.2 (disk.skeleton entry.1))) ∅))[tp]? =
      some inner → P tp inner := by
    unfold Recovered.addSkeletons
    exact forall_foldl_insertIfNew hscanned hskeleton
  exact forall_foldl_insertIfNew (P := P) hskeletons (fun tp _ => hnew tp) tp inner hp

theorem Disk.writer_partitions (h : disk.Scans) (hp : disk.partitions[tp]? = some inner) :
    inner.writer = none :=
  Disk.forall_partitions (P := fun _ inner => inner.writer = none)
    (fun entry he => (SegmentDir.recovered_spec _ (h entry he)).1) (fun _ _ => rfl) (fun _ => rfl)
    inner hp

/-- What recovery makes of a disk. -/
structure Found (disk : Disk) (r : Recovered) : Prop where
  partitions : ∀ (tp : Topition) (inner : PartitionInner), r.partitions[tp]? = some inner →
    ∃ inner₀ openTxns, disk.partitions[tp]? = some inner₀ ∧ inner = { inner₀ with openTxns } ∧
      inner₀.writer = none
  known : ∀ (tp : Topition) (inner₀ : PartitionInner), disk.partitions[tp]? = some inner₀ →
    r.dirs[tp]?.isSome ∧ ∃ openTxns, r.partitions[tp]? = some { inner₀ with openTxns }
  kept : ∀ (tp : Topition) (dir : SegmentDir), disk.dirs[tp]? = some dir → r.dirs[tp]? = some dir
  dirs : ∀ (tp : Topition) (dir : SegmentDir), r.dirs[tp]? = some dir →
    disk.dirs[tp]? = some dir ∨ dir = ∅

theorem found (h : recover disk = .ok r) : Found disk r := by
  have hscans := scans_of_recover h
  obtain rfl := recovered_of_recover h
  constructor
  · intro tp inner hp
    obtain ⟨inner₀, openTxns, hp₀, rfl⟩ := addPins_inv disk.coord hp
    exact ⟨inner₀, openTxns, hp₀, rfl, Disk.writer_partitions hscans hp₀⟩
  · refine fun tp inner₀ hp₀ => ⟨?_, getElem?_addPins disk.coord hp₀⟩
    have hkey : tp ∈ disk.partitions.keys := by
      rw [ExtTreeMap.mem_keys, mem_iff_isSome_getElem?, hp₀]
      rfl
    exact isSome_foldl_insertIfNew hkey disk.dirs
  · exact fun tp dir hdir => getElem?_foldl_insertIfNew _ hdir
  · exact forall_foldl_insertIfNew
      (P := fun tp dir => disk.dirs[tp]? = some dir ∨ dir = ∅)
      (fun _ _ hdir => .inl hdir) fun _ _ => .inr rfl

theorem Found.file? (hf : Found disk r) {file : SegmentFile}
    (h : ((Engine.ofRecovered disk r).dirs[tp]?.bind (·[base]?)) = some file) :
    ∃ dir, disk.dirs[tp]? = some dir ∧ dir[base]? = some file := by
  obtain ⟨dir, hdir, hfile⟩ := Option.bind_eq_some_iff.1 h
  rcases hf.dirs tp dir hdir with hdir | rfl
  · exact ⟨dir, hdir, hfile⟩
  · simp at hfile

/-! ## What a crash leaves -/

variable {s : Engine} {cut : Cut}

theorem getElem?_crash_dirs {crashed : SegmentDir}
    (h : (s.crash cut).dirs[tp]? = some crashed) : ∃ dir, s.dirs[tp]? = some dir ∧
      crashed = dir.map fun base file => file.cut (max file.synced (cut.segments tp base)) := by
  simp only [Engine.crash, ExtTreeMap.getElem?_map] at h
  obtain ⟨dir, hdir, rfl⟩ := Option.map_eq_some_iff.1 h
  exact ⟨dir, hdir, rfl⟩

theorem mem_frames_crash : (base, f) ∈ SegmentDir.frames
      (dir.map fun base file => file.cut (max file.synced (cut.segments tp base))) ↔
    ∃ file, dir[base]? = some file ∧ f ∈ file.scannable ∧
      f.endPosition ≤ max file.synced (cut.segments tp base) := by
  rw [SegmentDir.mem_frames]
  simp only [ExtTreeMap.getElem?_map, Option.map_eq_some_iff]
  constructor
  · rintro ⟨_, ⟨file, hfile, rfl⟩, hf⟩
    obtain ⟨hf, hle⟩ := List.mem_filter.1 hf
    exact ⟨file, hfile, hf, of_decide_eq_true hle⟩
  · rintro ⟨file, hfile, hf, hle⟩
    exact ⟨_, ⟨file, hfile, rfl⟩, List.mem_filter.2 ⟨hf, decide_eq_true hle⟩⟩

/-! ## One life after another -/

/-- The engine as it comes up from a disk, with `finish_boot` ahead of it. -/
def rebooted (disk : Disk) (r : Recovered) : EngineWorld :=
  ⟨.ofRecovered disk r, [Boot.start r.inDoubt]⟩

/-- The worlds that the engine gets to from an empty directory by steps that meet
`ok` and by crashes, each of which it comes up from again. -/
inductive Lives (cfg : Config) (ok : EngineWorld → EngineLabel → Prop) : EngineWorld → Prop
  | opened : Lives cfg ok opened
  | step {w w' : EngineWorld} {l : EngineLabel} : Lives cfg ok w → ok w l →
      (machine cfg).step w l = some w' → Lives cfg ok w'
  | restart {w : EngineWorld} {r : Recovered} (cut : Cut) : Lives cfg ok w →
      recover (w.shared.crash cut) = .ok r → Lives cfg ok (rebooted (w.shared.crash cut) r)

variable {cfg : Config} {ok : EngineWorld → EngineLabel → Prop} {w : EngineWorld}

theorem Lives.reach {w' : EngineWorld} (hl : Lives cfg ok w)
    (h : (machine cfg).system.Reach ok w w') : Lives cfg ok w' :=
  h.invariant hl fun _ hw hok hs => hw.step hok hs

/-- **Invariant rule** over all lives. -/
theorem Lives.invariant {I : EngineWorld → Prop} (h₀ : I Nvme.opened)
    (hstep : ∀ {w w' l}, I w → ok w l → (machine cfg).step w l = some w' → I w')
    (hrestart : ∀ {w r} cut, I w → recover (w.shared.crash cut) = .ok r →
      I (rebooted (w.shared.crash cut) r))
    (h : Lives cfg ok w) : I w := by
  induction h with
  | opened => exact h₀
  | step _ hok hs ih => exact hstep ih hok hs
  | restart cut _ hr ih => exact hrestart cut ih hr

end Tansu.Nvme

import Tansu.Nvme.Logs
import Tansu.Nvme.Scan

/-!
# Durability of the high watermark

Which batches below the high watermark are on stable storage, and what a crash
leaves of them, when producers append to partitions whose segments rotate and
age.  Every segment has a flusher of its own, and nothing orders the syncs of
two segments of one partition.
-/

namespace Tansu.Nvme

open Std Tansu.Lib Machine List Option BTreeMap Produce System

/-! ## The segment that a section seals -/

/-- The active segment of a partition. -/
def Engine.writer? (s : Engine) (tp : Topition) : Option SegmentWriter :=
  s.partitions[tp]?.bind (·.writer)

/-- The segment that a section seals: an append that rotates, or the age seal. -/
def Engine.sealing (cfg : Config) (s : Engine) (c : Choice) : Action →
    Option (Topition × SegmentWriter)
  | .produce (.append call _) =>
    ((s.writer? call.topition).filter (cfg.segmentBytes ≤ ·.position)).map (call.topition, ·)
  | .cleanup (.sealAged tp) =>
    ((s.writer? tp).filter fun w => c.aged ∧ 0 < w.position).map (tp, ·)
  | _ => none

namespace Durability

/-- Produce calls whose batches cover at least one offset, and tiering ticks. -/
def allowed : Request → Bool
  | .produce call => decide (0 ≤ call.batch.lastOffsetDelta)
  | .tick => true
  | _ => false

/-- Only produces and ticks are requested, no failing write leaves a part of its frame,
and a segment is sealed only when its group commit has reached all that was written to
it. -/
def sealsSynced (cfg : Config) (w : EngineWorld) : EngineLabel → Bool
  | .spawn r => allowed r
  | .env _ => true
  | .run i c => decide (c.kept = 0) &&
    match w.tasks[i]? with
    | some (a :: _) =>
      match w.shared.sealing cfg c a with
      | some (tp, writer) => w.shared.segmentSynced tp writer.baseOffset writer.position
      | none => true
    | _ => true

/-! ## The invariant of one partition -/

/-- `f` is a frame of the segment file at `base`. -/
def Frame (dir : SegmentDir) (base : Int) (file : SegmentFile) (f : SegmentFrame) : Prop :=
  dir[base]? = some file ∧ f ∈ file.frames

/-- The log of a partition agrees with its segment files, and only the active one
may hold frames that are not synced; those lie above the high watermark. -/
structure LogInv (inner : PartitionInner) (dir : SegmentDir) : Prop where
  next : 0 ≤ inner.nextOffset
  durable : inner.durableOffset ≤ inner.nextOffset
  writer : ∀ w, inner.writer = some w →
    ∃ file, dir[w.baseOffset]? = some file ∧ file.len = w.position
  sealed : ∀ base file, dir[base]? = some file →
    inner.writer.map (·.baseOffset) ≠ some base → file.len ≤ file.synced
  frame : ∀ base file f, Frame dir base file f →
    f.endPosition ≤ file.len ∧ 0 ≤ f.baseOffset ∧ f.baseOffset ≤ f.lastOffset ∧
      f.lastOffset < inner.nextOffset ∧
      ∃ attributes, BatchAttribute.tryFrom f.batch.attributes = .ok attributes
  unsynced : ∀ base file f, Frame dir base file f → file.synced < f.endPosition →
    inner.durableOffset ≤ f.baseOffset
  unique : ∀ base file f base' file' f', Frame dir base file f → Frame dir base' file' f' →
    f.baseOffset = f'.baseOffset → base = base' ∧ f = f'
  indexed : ∀ o entry, inner.batches[o]? = some entry →
    ∃ file f attributes, Frame dir entry.segmentBase file f ∧ f.baseOffset = o ∧
      BatchAttribute.tryFrom f.batch.attributes = .ok attributes ∧
      entry.stored = f.entry entry.segmentBase attributes none

/-- A partition and its directory exist together. -/
def PartInv : Option PartitionInner → Option SegmentDir → Prop
  | some inner, some dir => LogInv inner dir
  | none, none => True
  | _, _ => False

/-- An append that waits for its acknowledgement: whatever is not synced belongs
to it or was appended later. -/
def AckInv (ack : Ack) : Option PartitionInner → Option SegmentDir → Prop
  | some inner, some dir => inner.handle = ack.handle →
      ack.offsetEnd < inner.nextOffset ∧
      ∀ base file f, Frame dir base file f → file.synced < f.endPosition →
        (base = ack.segmentBase ∧ f.endPosition ≤ ack.endPosition) ∨
          ack.offsetEnd < f.baseOffset
  | _, _ => False

/-! ## Frames after a change of the directory -/

variable {inner : PartitionInner} {dir : SegmentDir} {base b : Int} {file : SegmentFile}
  {f : SegmentFrame} {batch : Batch} {o : Int} {n : Nat}

theorem frame_create (h : Frame (dir.insert b {}) base file f) : Frame dir base file f := by
  obtain ⟨hd, hf⟩ := h
  rw [getElem?_insert_eq] at hd
  split at hd
  · cases hd
    cases hf
  · exact ⟨hd, hf⟩

theorem frame_append (h : Frame (dir.modify b (·.append o batch)) base file f) :
    ∃ file₀, dir[base]? = some file₀ ∧ file.synced = file₀.synced ∧ file₀.len ≤ file.len ∧
      (f ∈ file₀.frames ∨
        base = b ∧ f = ⟨o, file₀.len, batch⟩ ∧ file.len = f.endPosition) := by
  obtain ⟨hd, hf⟩ := h
  rw [BTreeMap.getElem?_modify_eq] at hd
  split at hd
  · next hb =>
    obtain ⟨file₀, h₀, rfl⟩ := map_eq_some_iff.1 hd
    refine ⟨file₀, h₀, rfl, Nat.le_add_right _ _, ?_⟩
    rcases mem_append.1 hf with hf | hf
    · exact .inl hf
    · rw [mem_singleton.1 hf]
      exact .inr ⟨hb.symm, rfl, rfl⟩
  · exact ⟨file, hd, rfl, le_rfl, .inl hf⟩

theorem frame_sync (h : Frame (dir.modify b (·.sync n)) base file f) :
    ∃ file₀, Frame dir base file₀ f ∧ file₀.synced ≤ file.synced ∧ file.len = file₀.len := by
  obtain ⟨hd, hf⟩ := h
  rw [BTreeMap.getElem?_modify_eq] at hd
  split at hd
  · obtain ⟨file₀, h₀, rfl⟩ := map_eq_some_iff.1 hd
    exact ⟨file₀, ⟨h₀, hf⟩, le_max_left _ _, rfl⟩
  · exact ⟨file, ⟨hd, hf⟩, le_rfl, rfl⟩

/-! ## One partition, step by step -/

namespace LogInv

theorem fresh (handle : Nat) : LogInv { handle } ∅ := by
  constructor <;> simp [Frame]

/-- Everything written to the active segment is synced. -/
def Flushed (inner : PartitionInner) (dir : SegmentDir) : Prop :=
  ∀ w file, inner.writer = some w → dir[w.baseOffset]? = some file → file.len ≤ file.synced

theorem sealWriter (h : LogInv inner dir) (hflushed : Flushed inner dir) :
    LogInv { inner with writer := none } dir where
  next := h.next
  durable := h.durable
  writer := nofun
  sealed base file hb _ := by
    by_cases hw : inner.writer.map (·.baseOffset) = some base
    · obtain ⟨w, hw', rfl⟩ := map_eq_some_iff.1 hw
      exact hflushed w file hw' hb
    · exact h.sealed base file hb hw
  frame := h.frame
  unsynced := h.unsynced
  unique := h.unique
  indexed := h.indexed

theorem create (h : LogInv { inner with writer := none } dir) (ho : o ∉ dir) :
    LogInv { inner with writer := some ⟨o, 0⟩ } (dir.insert o {}) where
  next := h.next
  durable := h.durable
  writer w hw := by
    cases hw
    exact ⟨{}, by simp, rfl⟩
  sealed base file hb hw := by
    rw [getElem?_insert_eq] at hb
    split at hb
    · next heq => exact absurd (by simp [heq]) hw
    · exact h.sealed base file hb nofun
  frame base file f hf := h.frame base file f (frame_create hf)
  unsynced base file f hf := h.unsynced base file f (frame_create hf)
  unique _ _ _ _ _ _ hf hf' := h.unique _ _ _ _ _ _ (frame_create hf) (frame_create hf')
  indexed o' entry he := by
    obtain ⟨file, f, attributes, ⟨hd, hf⟩, hrest⟩ := h.indexed o' entry he
    refine ⟨file, f, attributes, ⟨?_, hf⟩, hrest⟩
    rw [getElem?_insert_eq, if_neg]
    · exact hd
    · rintro rfl
      exact ho (mem_iff_exists.2 ⟨file, hd⟩)

theorem skip (h : LogInv inner dir) (ho : inner.nextOffset ≤ o) :
    LogInv { inner with nextOffset := o } dir where
  next := h.next.trans ho
  durable := h.durable.trans ho
  writer := h.writer
  sealed := h.sealed
  frame base file f hf := by
    obtain ⟨h₁, h₂, h₃, h₄, h₅⟩ := h.frame base file f hf
    exact ⟨h₁, h₂, h₃, h₄.trans_le ho, h₅⟩
  unsynced := h.unsynced
  unique := h.unique
  indexed := h.indexed

theorem sync (h : LogInv inner dir) : LogInv inner (dir.modify b (·.sync n)) where
  next := h.next
  durable := h.durable
  writer w hw := by
    obtain ⟨file, hd, hlen⟩ := h.writer w hw
    rw [BTreeMap.getElem?_modify_eq, hd]
    split
    · exact ⟨file.sync n, rfl, hlen⟩
    · exact ⟨file, rfl, hlen⟩
  sealed base file hb hw := by
    rw [BTreeMap.getElem?_modify_eq] at hb
    split at hb
    · obtain ⟨file₀, h₀, rfl⟩ := map_eq_some_iff.1 hb
      exact (h.sealed base file₀ h₀ hw).trans (le_max_left _ _)
    · exact h.sealed base file hb hw
  frame base file f hf := by
    obtain ⟨file₀, hf₀, -, hlen⟩ := frame_sync hf
    rw [hlen]
    exact h.frame base file₀ f hf₀
  unsynced base file f hf hu := by
    obtain ⟨file₀, hf₀, hsynced, -⟩ := frame_sync hf
    exact h.unsynced base file₀ f hf₀ (hsynced.trans_lt hu)
  unique _ _ _ _ _ _ hf hf' := by
    obtain ⟨_, hf₀, -⟩ := frame_sync hf
    obtain ⟨_, hf₀', -⟩ := frame_sync hf'
    exact h.unique _ _ _ _ _ _ hf₀ hf₀'
  indexed o' entry he := by
    obtain ⟨file, f, attributes, ⟨hd, hf⟩, hrest⟩ := h.indexed o' entry he
    by_cases hb : b = entry.segmentBase
    · refine ⟨file.sync n, f, attributes, ⟨?_, hf⟩, hrest⟩
      rw [BTreeMap.getElem?_modify_eq, if_pos hb, hd]
      rfl
    · refine ⟨file, f, attributes, ⟨?_, hf⟩, hrest⟩
      rw [BTreeMap.getElem?_modify_eq, if_neg hb, hd]

variable {cfg : Config} {call : ProduceCall} {attributes : BatchAttribute} {w : SegmentWriter}

/-- The appended frame lies above everything that was there. -/
theorem append (h : LogInv inner dir) (hw : inner.writer = some w)
    (hdelta : 0 ≤ call.batch.lastOffsetDelta)
    (hattr : BatchAttribute.tryFrom call.batch.attributes = .ok attributes) :
    LogInv (Produce.indexed cfg call attributes
        { inner with nextOffset := Produce.endOffset inner call + 1 } w inner.nextOffset)
      (dir.modify w.baseOffset (·.append inner.nextOffset call.batch)) := by
  have hend : Produce.endOffset inner call = inner.nextOffset + call.batch.lastOffsetDelta := rfl
  have hnext := h.next
  have hdurable := h.durable
  obtain ⟨active, hactive, hlen⟩ := h.writer w hw
  constructor
  · simp only [indexed_nextOffset]
    omega
  · simp only [indexed_nextOffset, indexed_durableOffset]
    omega
  · rintro w' hw'
    rw [indexed_writer] at hw'
    cases hw'
    refine ⟨active.append inner.nextOffset call.batch, ?_, ?_⟩
    · rw [BTreeMap.getElem?_modify_eq, if_pos rfl, hactive]
      rfl
    · simp [SegmentFile.append, hlen]
  · intro base file hb hne
    rw [indexed_writer] at hne
    have hne' : ¬ w.baseOffset = base := fun heq => hne (by simp [heq])
    rw [BTreeMap.getElem?_modify_eq, if_neg hne'] at hb
    exact h.sealed base file hb (by rw [hw]; simpa using hne')
  · intro base file f hf
    simp only [indexed_nextOffset]
    obtain ⟨file₀, hd, -, hle, hf | ⟨-, rfl, hend'⟩⟩ := frame_append hf
    · obtain ⟨h₁, h₂, h₃, h₄, h₅⟩ := h.frame base file₀ f ⟨hd, hf⟩
      exact ⟨h₁.trans hle, h₂, h₃, by omega, h₅⟩
    · refine ⟨hend'.ge, hnext, ?_, ?_, attributes, hattr⟩ <;>
        simp only [SegmentFrame.lastOffset] <;> omega
  · intro base file f hf hu
    rw [indexed_durableOffset]
    obtain ⟨file₀, hd, hsynced, -, hf | ⟨-, rfl, -⟩⟩ := frame_append hf
    · exact h.unsynced base file₀ f ⟨hd, hf⟩ (hsynced ▸ hu)
    · exact hdurable
  · intro base file f base' file' f' hf hf' heq
    obtain ⟨file₀, hd, -, -, hold | ⟨hb, rfl, -⟩⟩ := frame_append hf <;>
      obtain ⟨file₀', hd', -, -, hold' | ⟨hb', rfl, -⟩⟩ := frame_append hf'
    · exact h.unique _ _ _ _ _ _ ⟨hd, hold⟩ ⟨hd', hold'⟩ heq
    · obtain ⟨-, -, h₃, h₄, -⟩ := h.frame base file₀ f ⟨hd, hold⟩
      simp only at heq
      omega
    · obtain ⟨-, -, h₃, h₄, -⟩ := h.frame base' file₀' f' ⟨hd', hold'⟩
      simp only at heq
      omega
    · subst hb hb'
      rw [hd] at hd'
      cases hd'
      exact ⟨rfl, rfl⟩
  · intro o entry he
    have hstored := indexed_batches cfg call attributes
      { inner with nextOffset := Produce.endOffset inner call + 1 } w inner.nextOffset o
    rw [he] at hstored
    simp only [map_some] at hstored
    split at hstored
    · next ho =>
      -- The batch that was just appended.
      have hentry := Option.some.inj hstored
      have hbase : entry.segmentBase = w.baseOffset := congrArg BatchEntry.segmentBase hentry
      refine ⟨active.append inner.nextOffset call.batch,
        ⟨inner.nextOffset, active.len, call.batch⟩, attributes, ⟨?_, ?_⟩, ho, hattr, ?_⟩
      · rw [hbase, BTreeMap.getElem?_modify_eq, if_pos rfl, hactive]
        rfl
      · exact mem_append_right _ (mem_singleton_self _)
      · rw [hentry, hbase, hlen]
    · obtain ⟨entry₀, he₀, hentry⟩ := map_eq_some_iff.1 hstored.symm
      obtain ⟨file, f, attributes', ⟨hd, hf⟩, ho, ha, hst⟩ := h.indexed o entry₀ he₀
      have hbase : entry.segmentBase = entry₀.segmentBase :=
        (congrArg BatchEntry.segmentBase hentry).symm
      by_cases hb : w.baseOffset = entry₀.segmentBase
      · refine ⟨file.append inner.nextOffset call.batch, f, attributes', ⟨?_, ?_⟩, ho, ha, ?_⟩
        · rw [hbase, BTreeMap.getElem?_modify_eq, if_pos hb, hd]
          rfl
        · exact mem_append_left _ hf
        · rw [← hentry, hbase, hst]
      · refine ⟨file, f, attributes', ⟨?_, hf⟩, ho, ha, by rw [← hentry, hbase, hst]⟩
        rw [hbase, BTreeMap.getElem?_modify_eq, if_neg hb, hd]

theorem raise (h : LogInv inner dir) {ack : Ack}
    (hack : AckInv ack (some inner) (some dir))
    (hsynced : ∀ file, dir[ack.segmentBase]? = some file → ack.endPosition ≤ file.synced) :
    LogInv (Produce.raise ack.handle ack.offsetEnd inner) dir := by
  unfold Produce.raise
  split
  · next hh =>
    refine ⟨h.next, max_le h.durable (hack hh).1, h.writer, h.sealed, h.frame,
      fun base file f hf hu => ?_, h.unique, h.indexed⟩
    have habove : ack.offsetEnd < f.baseOffset := by
      rcases (hack hh).2 base file f hf hu with ⟨rfl, hle⟩ | habove
      · have := hsynced file hf.1
        omega
      · exact habove
    exact max_le (h.unsynced base file f hf hu) habove
  · exact h

end LogInv

namespace AckInv

variable {cfg : Config} {call : ProduceCall} {attributes : BatchAttribute} {w : SegmentWriter}
  {ack : Ack} {inner' : PartitionInner} {dir' : SegmentDir}

/-- An acknowledgement is not disturbed by what leaves no new frame unsynced. -/
theorem mono (h : AckInv ack (some inner) (some dir)) (hhandle : inner'.handle = inner.handle)
    (hnext : inner.nextOffset ≤ inner'.nextOffset)
    (hframes : ∀ base file f, Frame dir' base file f → file.synced < f.endPosition →
      ∃ file₀, Frame dir base file₀ f ∧ file₀.synced < f.endPosition) :
    AckInv ack (some inner') (some dir') := by
  intro hh
  obtain ⟨hlt, hun⟩ := h (hhandle ▸ hh)
  refine ⟨hlt.trans_le hnext, fun base file f hf hu => ?_⟩
  obtain ⟨file₀, hf₀, hu₀⟩ := hframes base file f hf hu
  exact hun base file₀ f hf₀ hu₀

theorem append (h : AckInv ack (some inner) (some dir))
    (hdelta : 0 ≤ call.batch.lastOffsetDelta) :
    AckInv ack (some (Produce.indexed cfg call attributes
        { inner with nextOffset := Produce.endOffset inner call + 1 } w inner.nextOffset))
      (some (dir.modify w.baseOffset (·.append inner.nextOffset call.batch))) := by
  intro hh
  rw [indexed_handle] at hh
  obtain ⟨hlt, hun⟩ := h hh
  refine ⟨?_, fun base file f hf hu => ?_⟩
  · simp only [indexed_nextOffset, Produce.endOffset]
    omega
  · obtain ⟨file₀, hd, hsynced, -, hf | ⟨-, rfl, -⟩⟩ := frame_append hf
    · exact hun base file₀ f ⟨hd, hf⟩ (hsynced ▸ hu)
    · exact .inr hlt

/-- The append's own acknowledgement: only the active segment is not synced. -/
theorem own (h : LogInv inner dir) (hw : inner.writer = some w) :
    AckInv ⟨inner.handle, w.baseOffset, w.position + call.batch.framedLen, inner.nextOffset,
        Produce.endOffset inner call⟩
      (some (Produce.indexed cfg call attributes
        { inner with nextOffset := Produce.endOffset inner call + 1 } w inner.nextOffset))
      (some (dir.modify w.baseOffset (·.append inner.nextOffset call.batch))) := by
  intro _
  obtain ⟨active, hactive, hlen⟩ := h.writer w hw
  refine ⟨by simp, fun base file f hf hu => .inl ?_⟩
  obtain ⟨file₀, hd, hsynced, -, hf | ⟨rfl, rfl, -⟩⟩ := frame_append hf
  · have hle := (h.frame base file₀ f ⟨hd, hf⟩).1
    have hbase : base = w.baseOffset := by
      by_contra hne
      have := h.sealed base file₀ hd (by rw [hw]; simpa using fun heq => hne heq.symm)
      omega
    subst hbase
    rw [hactive] at hd
    cases hd
    exact ⟨rfl, (by omega : f.endPosition ≤ w.position + call.batch.framedLen)⟩
  · rw [hactive] at hd
    cases hd
    exact ⟨rfl, by simp [SegmentFrame.endPosition, hlen]⟩

end AckInv

/-! ## The engine -/

/-- Every partition agrees with its directory, and nothing was ever logged. -/
structure Shared (s : Engine) : Prop where
  partition : ∀ tp : Topition, PartInv s.partitions[tp]? s.dirs[tp]?
  wals : ∀ (seq : Nat) (file : WalFile), s.wals[seq]? = some file → file.records = []
  snapshots : s.snapshots = Engine.opened.snapshots

/-- What holds of every pending section. -/
def Obligation (s : Engine) : Action → Prop
  | .produce (.guard call) => 0 ≤ call.batch.lastOffsetDelta
  | .produce (.check call attributes) | .produce (.append call attributes) =>
    0 ≤ call.batch.lastOffsetDelta ∧
      BatchAttribute.tryFrom call.batch.attributes = .ok attributes
  | .produce (.acked call _ ack) =>
    AckInv ack s.partitions[call.topition]? s.dirs[call.topition]?
  | .produce (.record ..) | .cleanup .tick | .cleanup (.sealAged _) => True
  | _ => False

/-- A change of one partition. -/
structure Changes (s s' : Engine) (tp : Topition) : Prop where
  partitions : ∀ tp', tp ≠ tp' → s'.partitions[tp']? = s.partitions[tp']?
  dirs : ∀ tp', tp ≠ tp' → s'.dirs[tp']? = s.dirs[tp']?
  wals : s'.wals = s.wals
  snapshots : s'.snapshots = s.snapshots

variable {s s' s₁ : Engine} {tp : Topition} {cfg : Config} {c : Choice} {s₂ : Engine}
  {w : SegmentWriter} {a : Action}

theorem Changes.shared (h : Changes s s' tp) (hs : Shared s)
    (htp : PartInv s'.partitions[tp]? s'.dirs[tp]?) : Shared s' where
  partition tp' := by
    by_cases heq : tp = tp'
    · exact heq ▸ htp
    · rw [h.partitions tp' heq, h.dirs tp' heq]
      exact hs.partition tp'
  wals := by
    rw [h.wals]
    exact hs.wals
  snapshots := h.snapshots.trans hs.snapshots

theorem Changes.trans {s'' : Engine} (h : Changes s s' tp) (h' : Changes s' s'' tp) :
    Changes s s'' tp where
  partitions tp' hne := (h'.partitions tp' hne).trans (h.partitions tp' hne)
  dirs tp' hne := (h'.dirs tp' hne).trans (h.dirs tp' hne)
  wals := h'.wals.trans h.wals
  snapshots := h'.snapshots.trans h.snapshots

/-- Pending sections are stable if the acknowledgements on the partition are. -/
theorem Changes.obligation (h : Changes s s' tp)
    (hack : ∀ ack, AckInv ack s.partitions[tp]? s.dirs[tp]? →
      AckInv ack s'.partitions[tp]? s'.dirs[tp]?) :
    ∀ a, Obligation s a → Obligation s' a
  | .produce (.acked call _ ack), ha => by
    have ha : AckInv ack s.partitions[call.topition]? s.dirs[call.topition]? := ha
    show AckInv ack s'.partitions[call.topition]? s'.dirs[call.topition]?
    by_cases heq : tp = call.topition
    · subst heq
      exact hack ack ha
    · rw [h.partitions _ heq, h.dirs _ heq]
      exact ha
  | .produce (.guard _), ha | .produce (.check ..), ha | .produce (.append ..), ha => ha
  | .produce (.record ..), _ | .cleanup .tick, _ | .cleanup (.sealAged _), _ => trivial

/-- The section has the partition at hand, created if need be. -/
theorem partition_inv (h : s.partition tp = some (s₁, inner)) (hs : Shared s) :
    Changes s s₁ tp ∧ s.writer? tp = inner.writer ∧
      ∃ dir, s₁.dirs[tp]? = some dir ∧ LogInv inner dir ∧
        (s.dirs[tp]? = some dir ∨ inner.writer = none) ∧
        ∀ ack, AckInv ack s.partitions[tp]? s.dirs[tp]? → AckInv ack (some inner) (some dir) := by
  have hpart := hs.partition tp
  rcases Engine.partition_eq h with ⟨hp, rfl⟩ | ⟨hp, rfl, rfl⟩
  · rw [hp] at hpart ⊢
    cases hd : s₁.dirs[tp]? with
    | none => rw [hd] at hpart; cases hpart
    | some dir =>
      rw [hd] at hpart
      exact ⟨⟨fun _ _ => rfl, fun _ _ => rfl, rfl, rfl⟩, by simp [Engine.writer?, hp], dir, rfl,
        hpart, .inl rfl, fun _ ha => ha⟩
  · rw [hp] at hpart ⊢
    cases hd : s.dirs[tp]? with
    | some dir => rw [hd] at hpart; cases hpart
    | none =>
      refine ⟨⟨fun tp' hne => ?_, fun tp' hne => ?_, rfl, rfl⟩, ?_, ∅, ?_, LogInv.fresh _,
        .inr rfl, fun _ ha => ha.elim⟩
      · simp [getElem?_insert_eq, hne]
      · simp [getElem?_insertIfNew_eq, hne]
      · simp [Engine.writer?, hp]
      · rw [getElem?_insertIfNew_eq, if_pos rfl, hd]
        rfl

/-- The active segment of an append: the one that was there, or a new one behind
a segment that is synced. -/
theorem activeSegment_inv
    (h : s₁.activeSegment cfg c tp inner.writer inner.nextOffset = some (s₂, w))
    (hd : s₁.dirs[tp]? = some dir) (hinv : LogInv inner dir)
    (hflushed : ∀ w', inner.writer = some w' → cfg.segmentBytes ≤ w'.position →
      LogInv.Flushed inner dir) :
    Changes s₁ s₂ tp ∧ ∃ dir₂, s₂.dirs[tp]? = some dir₂ ∧
      LogInv { inner with writer := some w } dir₂ ∧
      ∀ base file f, Frame dir₂ base file f → Frame dir base file f := by
  rcases Engine.activeSegment_eq h with ⟨hw, rfl⟩ | ⟨rfl, hold, dir', hd', ho, rfl⟩
  · refine ⟨⟨fun _ _ => rfl, fun _ _ => rfl, rfl, rfl⟩, dir, hd, ?_, fun _ _ _ hf => hf⟩
    rw [← hw]
    exact hinv
  · rw [hd] at hd'
    cases hd'
    refine ⟨⟨fun _ _ => rfl, fun tp' hne => ?_, rfl, rfl⟩, _, ?_,
      (hinv.sealWriter ?_).create ho, fun _ _ _ hf => frame_create hf⟩
    · simp [getElem?_insert_eq, hne]
    · simp
    · intro w' file hw' hf
      exact hflushed w' hw' (hold w' hw') w' file hw' hf

variable {call : ProduceCall} {attributes : BatchAttribute} {next : List Action} {e : Error}

/-- The segment an append seals is synced. -/
def Rotates (cfg : Config) (s : Engine) (tp : Topition) : Prop :=
  ∀ w, s.writer? tp = some w → cfg.segmentBytes ≤ w.position →
    s.segmentSynced tp w.baseOffset w.position

theorem Rotates.flushed (h : Rotates cfg s tp) (hwriter : inner.writer = s.writer? tp)
    (hinv : LogInv inner dir) (hdir : s.dirs[tp]? = some dir ∨ inner.writer = none)
    (hw : inner.writer = some w) (hfull : cfg.segmentBytes ≤ w.position) :
    LogInv.Flushed inner dir := by
  intro w' file hw' hf
  rw [hw] at hw'
  cases hw'
  have hsynced := h w (hwriter ▸ hw) hfull
  rcases hdir with hdir | hnone
  · obtain ⟨file', hf', hlen⟩ := hinv.writer w hw
    rw [hf] at hf'
    cases hf'
    simpa [Engine.segmentSynced, hdir, hf, hlen] using hsynced
  · rw [hw] at hnone
    cases hnone

/-- What every section has to keep. -/
def Keeps (s s' : Engine) : Prop := Shared s' ∧ ∀ a, Obligation s a → Obligation s' a

theorem Keeps.refl (hs : Shared s) : Keeps s s := ⟨hs, fun _ ha => ha⟩

theorem append_inv (hs : Shared s) (hrotates : Rotates cfg s call.topition)
    (hsec : Obligation s (.produce (.append call attributes)))
    (h : Produce.append cfg s c call attributes = .ok s' next) :
    Keeps s s' ∧ ∀ b ∈ next, Obligation s' b := by
  obtain ⟨hdelta, hattr⟩ := hsec
  obtain ⟨s₁, s₂, inner, w, hp, ha, rfl, rfl⟩ := append_ok h
  obtain ⟨hc₁, hwriter, dir, hd, hinv, hdir, hack⟩ := partition_inv hp hs
  obtain ⟨hc₂, dir₂, hd₂, hinv₂, hframes⟩ := activeSegment_inv ha hd hinv
    fun _ hw hfull => hrotates.flushed hwriter.symm hinv hdir hw hfull
  set inner' := Produce.indexed cfg call attributes
    { inner with nextOffset := Produce.endOffset inner call + 1, writer := some w } w
    inner.nextOffset
  set s' := (s₂.appendFrame call.topition w.baseOffset inner.nextOffset call.batch).setPartition
    call.topition inner' with hs'
  have hpart' : s'.partitions[call.topition]? = some inner' := by simp [hs', Engine.setPartition]
  have hdir' : s'.dirs[call.topition]? =
      some (dir₂.modify w.baseOffset (·.append inner.nextOffset call.batch)) := by
    simp [hs', Engine.setPartition, Engine.appendFrame, hd₂]
  have hc : Changes s s' call.topition := (hc₁.trans hc₂).trans
    ⟨fun tp hne => by
        simp [hs', Engine.setPartition, Engine.appendFrame, getElem?_insert_eq, hne],
      fun tp hne => by
        simp [hs', Engine.setPartition, Engine.appendFrame, BTreeMap.getElem?_modify_eq, hne],
      rfl, rfl⟩
  refine ⟨⟨hc.shared hs ?_, hc.obligation ?_⟩, ?_⟩
  · rw [hpart', hdir']
    exact hinv₂.append rfl hdelta hattr
  · intro ack hack'
    rw [hpart', hdir']
    exact ((hack ack hack').mono rfl le_rfl fun _ file _ hf hu => ⟨file, hframes _ _ _ hf, hu⟩ :
      AckInv ack (some { inner with writer := some w }) (some dir₂)).append hdelta
  · intro b hb
    rw [mem_singleton.1 hb]
    show AckInv _ s'.partitions[call.topition]? s'.dirs[call.topition]?
    rw [hpart', hdir']
    exact AckInv.own hinv₂ rfl

theorem setPartition_keeps {inner' : PartitionInner} {dir' : SegmentDir} (hs : Shared s)
    (hc : Changes s s₂ tp) (hd : s₂.dirs[tp]? = some dir') (hinv : LogInv inner' dir')
    (hack : ∀ ack, AckInv ack s.partitions[tp]? s.dirs[tp]? → AckInv ack (some inner) (some dir))
    (hhandle : inner'.handle = inner.handle) (hnext : inner.nextOffset ≤ inner'.nextOffset)
    (hframes : ∀ base file f, Frame dir' base file f → Frame dir base file f) :
    Keeps s (s₂.setPartition tp inner') := by
  have hc' : Changes s (s₂.setPartition tp inner') tp := hc.trans
    ⟨fun tp' hne => by simp [Engine.setPartition, getElem?_insert_eq, hne],
      fun _ _ => rfl, rfl, rfl⟩
  have hpart : (s₂.setPartition tp inner').partitions[tp]? = some inner' := by
    simp [Engine.setPartition]
  have hdir : (s₂.setPartition tp inner').dirs[tp]? = some dir' := hd
  refine ⟨hc'.shared hs ?_, hc'.obligation fun ack ha => ?_⟩
  · rw [hpart, hdir]
    exact hinv
  · rw [hpart, hdir]
    exact (hack ack ha).mono hhandle hnext fun _ file _ hf hu => ⟨file, hframes _ _ _ hf, hu⟩

/-- A write that leaves nothing changes no file. -/
theorem tearSegment_eq (hkept : c.kept = 0) {len : Nat} : s.tearSegment c tp b len = s := by
  have hdir (dir : SegmentDir) : (dir.modify b fun file => file) = dir :=
    ExtTreeMap.ext_getElem? fun base => by simp [BTreeMap.getElem?_modify_eq]
  have hdirs : s.dirs.modify tp (fun dir => dir) = s.dirs :=
    ExtTreeMap.ext_getElem? fun tp' => by simp [BTreeMap.getElem?_modify_eq]
  simp only [Engine.tearSegment, hkept, Nat.zero_min, SegmentFile.tear_zero, hdir, hdirs]

theorem append_err_inv (hs : Shared s) (hkept : c.kept = 0) (hrotates : Rotates cfg s call.topition)
    (hsec : Obligation s (.produce (.append call attributes)))
    (h : Produce.append cfg s c call attributes = .err s' e) : Keeps s s' := by
  obtain ⟨hdelta, -⟩ := hsec
  rcases Produce.append_err h with rfl | ⟨s₁, inner, hp, hcase⟩
  · exact .refl hs
  · obtain ⟨hc₁, hwriter, dir, hd, hinv, hdir, hack⟩ := partition_inv hp hs
    have hflushed : ∀ w, inner.writer = some w → cfg.segmentBytes ≤ w.position →
        LogInv.Flushed inner dir :=
      fun _ hw hfull => hrotates.flushed hwriter.symm hinv hdir hw hfull
    have hnext : inner.nextOffset ≤ Produce.endOffset inner call + 1 := by
      simp only [Produce.endOffset]
      omega
    rcases hcase with ⟨ha, rfl⟩ | ⟨s₂, w, ha, rfl⟩
    · refine setPartition_keeps hs hc₁ hd ((hinv.sealWriter fun w file hw hf => ?_).skip hnext)
        hack rfl hnext fun _ _ _ hf => hf
      exact hflushed w hw (Engine.activeSegment_none ha hw) w file hw hf
    · obtain ⟨hc₂, dir₂, hd₂, hinv₂, hframes⟩ := activeSegment_inv ha hd hinv hflushed
      rw [tearSegment_eq hkept]
      exact setPartition_keeps hs (hc₁.trans hc₂) hd₂ (hinv₂.skip hnext) hack rfl hnext hframes

theorem Changes.keeps (tp : Topition) (hc : Changes s s' tp) (hs : Shared s)
    (hnone : s.partitions[tp]? = none → s.dirs[tp]? = none →
      s'.partitions[tp]? = none ∧ s'.dirs[tp]? = none)
    (hsome : ∀ inner dir, s.partitions[tp]? = some inner → s.dirs[tp]? = some dir →
      LogInv inner dir → ∃ inner' dir', s'.partitions[tp]? = some inner' ∧
        s'.dirs[tp]? = some dir' ∧ LogInv inner' dir' ∧
        ∀ ack, AckInv ack (some inner) (some dir) → AckInv ack (some inner') (some dir')) :
    Keeps s s' := by
  have hinv := hs.partition tp
  cases hp : s.partitions[tp]? with
  | none =>
    cases hd : s.dirs[tp]? with
    | none =>
      obtain ⟨hp', hd'⟩ := hnone hp hd
      refine ⟨hc.shared hs (by rw [hp', hd']; trivial), hc.obligation fun ack hack => ?_⟩
      rw [hp] at hack
      exact hack.elim
    | some dir => rw [hp, hd] at hinv; exact hinv.elim
  | some inner =>
    cases hd : s.dirs[tp]? with
    | none => rw [hp, hd] at hinv; exact hinv.elim
    | some dir =>
      rw [hp, hd] at hinv
      obtain ⟨inner', dir', hp', hd', hinv', hack⟩ := hsome inner dir hp hd hinv
      refine ⟨hc.shared hs (by rw [hp', hd']; exact hinv'), hc.obligation fun ack ha => ?_⟩
      rw [hp, hd] at ha
      rw [hp', hd']
      exact hack ack ha

theorem Keeps.of_eq (hs : Shared s) (hp : s'.partitions = s.partitions) (hd : s'.dirs = s.dirs)
    (hw : s'.wals = s.wals) (hsn : s'.snapshots = s.snapshots) : Keeps s s' := by
  have hc (tp : Topition) : Changes s s' tp :=
    ⟨fun _ _ => by rw [hp], fun _ _ => by rw [hd], hw, hsn⟩
  have hack (tp : Topition) (ack : Ack) (ha : AckInv ack s.partitions[tp]? s.dirs[tp]?) :
      AckInv ack s'.partitions[tp]? s'.dirs[tp]? := by
    rw [hp, hd]
    exact ha
  refine ⟨⟨fun tp => ?_, fun seq file => ?_, hsn.trans hs.snapshots⟩, fun a ha => ?_⟩
  · rw [hp, hd]
    exact hs.partition tp
  · rw [hw]
    exact hs.wals seq file
  · exact (hc ⟨"", 0⟩).obligation (hack _) a ha

theorem acked_inv {ack : Ack} (hs : Shared s)
    (hsec : Obligation s (.produce (.acked call attributes ack)))
    (h : Produce.acked s c call attributes ack = .ok s' next) :
    Keeps s s' ∧ ∀ b ∈ next, Obligation s' b := by
  obtain ⟨hsynced, rfl, rfl⟩ := acked_ok h
  refine ⟨?_, ?_⟩
  · refine Changes.keeps call.topition
      ⟨fun tp hne => by simp [BTreeMap.getElem?_modify_eq, hne], fun _ _ => rfl, rfl, rfl⟩ hs
      (fun hp hd => ⟨by simp [hp], hd⟩) fun inner dir hp hd hinv => ?_
    have hsec : AckInv ack s.partitions[call.topition]? s.dirs[call.topition]? := hsec
    rw [hp, hd] at hsec
    refine ⟨Produce.raise ack.handle ack.offsetEnd inner, dir,
      by simp [hp], hd, hinv.raise hsec fun file hf => ?_, ?_⟩
    · simpa [Engine.segmentSynced, hd, hf] using hsynced
    · intro ack' hack'
      refine hack'.mono ?_ ?_ fun _ file _ hf hu => ⟨file, hf, hu⟩ <;>
        unfold Produce.raise <;> split <;> rfl
  · intro b hb
    split at hb
    · cases hb
    · rw [mem_singleton.1 hb]
      trivial

/-- The age seal closes a segment that is synced. -/
theorem sealAged_inv (hs : Shared s)
    (hseal : ∀ w, s.writer? tp = some w → c.aged → 0 < w.position →
      s.segmentSynced tp w.baseOffset w.position) :
    Keeps s { s with partitions := s.partitions.modify tp (Cleanup.sealAged c) } := by
  refine Changes.keeps tp
    ⟨fun tp' hne => by simp [BTreeMap.getElem?_modify_eq, hne], fun _ _ => rfl, rfl, rfl⟩ hs
    (fun hp hd => ⟨by simp [hp], hd⟩) fun inner dir hp hd hinv => ?_
  refine ⟨Cleanup.sealAged c inner, dir, by simp [hp], hd, ?_, ?_⟩
  · unfold Cleanup.sealAged
    split
    · next haged =>
      refine hinv.sealWriter fun w file hw hf => ?_
      obtain ⟨file', hf', hlen⟩ := hinv.writer w hw
      rw [hf] at hf'
      cases hf'
      have hpos : 0 < w.position := by simpa [hw] using haged.2
      have := hseal w (by simp [Engine.writer?, hp, hw]) haged.1 hpos
      simpa [Engine.segmentSynced, hd, hf, hlen] using this
    · exact hinv
  · intro ack hack
    refine hack.mono ?_ ?_ fun _ file _ hf hu => ⟨file, hf, hu⟩ <;>
      unfold Cleanup.sealAged <;> split <;> rfl

theorem env_inv (hs : Shared s) {ev : Env} (h : env s ev = some s') : Keeps s s' := by
  cases ev with
  | syncSegment tp base upTo =>
    cases h
    refine Changes.keeps tp
      ⟨fun _ _ => rfl, fun tp' hne => by simp [BTreeMap.getElem?_modify_eq, hne], rfl, rfl⟩ hs
      (fun hp hd => ⟨hp, by simp [hd]⟩) fun inner dir hp hd hinv => ?_
    refine ⟨inner, dir.modify base (·.sync upTo), hp,
      by simp [hd], hinv.sync, fun ack hack => ?_⟩
    refine hack.mono rfl le_rfl fun _ file f hf hu => ?_
    obtain ⟨file₀, hf₀, hsynced, -⟩ := frame_sync hf
    exact ⟨file₀, hf₀, hsynced.trans_lt hu⟩
  | syncWal seq upTo =>
    cases h
    refine ⟨⟨hs.partition, fun seq' file hf => ?_, hs.snapshots⟩, fun a ha => ?_⟩
    · rw [BTreeMap.getElem?_modify_eq] at hf
      split at hf
      · obtain ⟨file₀, hf₀, rfl⟩ := map_eq_some_iff.1 hf
        exact hs.wals seq' file₀ hf₀
      · exact hs.wals seq' file hf
    · cases a <;> exact ha

section

variable (hs : Shared s) (hsec : Obligation s a)
  (hseal : ∀ tp w, s.sealing cfg c a = some (tp, w) → s.segmentSynced tp w.baseOffset w.position)
include hs hsec hseal

theorem exec_inv (h : exec cfg s c a = .ok s' next) : Keeps s s' ∧ ∀ b ∈ next, Obligation s' b := by
  replace h := exec_ok h
  match a, hsec with
  | .produce (.guard call), hdelta =>
    obtain ⟨rfl, attributes, hattr, rfl⟩ := guard_ok h
    refine ⟨.refl hs, fun b hb => ?_⟩
    rw [mem_singleton.1 hb]
    exact ⟨hdelta, hattr⟩
  | .produce (.check call attributes), hsec =>
    obtain ⟨producers, rfl, -, rfl⟩ := check_ok h
    refine ⟨.of_eq hs rfl rfl rfl rfl, fun b hb => ?_⟩
    rw [mem_singleton.1 hb]
    exact hsec
  | .produce (.append call attributes), hsec =>
    refine append_inv hs (fun w hw hfull => hseal _ w ?_) hsec h
    simp [Engine.sealing, hw, Option.filter, hfull]
  | .produce (.acked call attributes ack), hsec => exact acked_inv hs hsec h
  | .produce (.record t call attributes ack), _ =>
    obtain ⟨rfl, ⟨-, rfl⟩ | ⟨d, -, -, rfl⟩⟩ := record_ok h
    · exact ⟨.refl hs, forall_mem_nil _⟩
    · exact ⟨.of_eq hs rfl rfl rfl rfl, forall_mem_nil _⟩
  | .cleanup .tick, _ =>
    cases h
    refine ⟨.refl hs, fun b hb => ?_⟩
    obtain ⟨tp, -, rfl⟩ := List.mem_map.1 hb
    trivial
  | .cleanup (.sealAged tp), _ =>
    cases h
    refine ⟨sealAged_inv hs fun w hw haged hpos => hseal _ w ?_, forall_mem_nil _⟩
    simp [Engine.sealing, hw, Option.filter, haged, hpos]

theorem exec_err_inv (hkept : c.kept = 0) (h : exec cfg s c a = .err s' e) : Keeps s s' := by
  replace h := exec_err h
  match a, hsec with
  | .produce (.guard call), _ =>
    obtain rfl := guard_err h
    exact .refl hs
  | .produce (.check call attributes), _ =>
    obtain ⟨producers, rfl⟩ := check_err h
    exact .of_eq hs rfl rfl rfl rfl
  | .produce (.append call attributes), hsec =>
    refine append_err_inv hs hkept (fun w hw hfull => hseal _ w ?_) hsec h
    simp [Engine.sealing, hw, Option.filter, hfull]
  | .produce (.acked call attributes ack), _ =>
    obtain ⟨rfl, -⟩ := acked_err h
    exact .refl hs
  | .produce (.record t call attributes ack), _ =>
    obtain ⟨rfl, -⟩ := record_err h
    exact .refl hs
  | .cleanup .tick, _ | .cleanup (.sealAged tp), _ => cases h

end

theorem shared_opened : Shared Engine.opened where
  partition tp := by simp [Engine.opened, PartInv]
  wals seq file h := by
    simp only [Engine.opened, getElem?_insert_eq] at h
    split at h
    · cases h
      rfl
    · simp at h
  snapshots := rfl

/-- **The invariant of every run** that seals only synced segments. -/
theorem reach_holds {w : EngineWorld}
    (h : (machine cfg).system.Reach (fun w l => sealsSynced cfg w l = true) opened w) :
    Holds Shared Obligation w := by
  refine h.invariant ⟨shared_opened, fun a => ?_⟩ fun {w w' l} _ hw hok hs => ?_
  · rintro ⟨todo, hmem, -⟩
    cases hmem
  · refine hw.step hs ?_ ?_ ?_ ?_
    · rintro r rfl a ha
      cases r with
      | produce call =>
        rw [mem_singleton.1 ha]
        exact of_decide_eq_true (p := 0 ≤ call.batch.lastOffsetDelta) hok
      | tick =>
        rw [mem_singleton.1 ha]
        trivial
      | _ => cases hok
    · rintro ev s rfl he
      exact (env_inv hw.1 he).imp_right fun hstable b _ => hstable b
    · rintro i c a rest s next rfl hat hsec he
      have hseal : ∀ tp w', w.shared.sealing cfg c a = some (tp, w') →
          w.shared.segmentSynced tp w'.baseOffset w'.position := by
        intro tp w' hw'
        simpa [hat.get, hw'] using (Bool.and_eq_true_iff.1 hok).2
      obtain ⟨⟨hG, hstable⟩, hnext⟩ := exec_inv hw.1 hsec hseal he
      exact ⟨hG, hnext, fun b _ _ => hstable b⟩
    · rintro i c a rest s e rfl hat hsec he
      obtain ⟨hkept, hseals⟩ := Bool.and_eq_true_iff.1 hok
      refine (exec_err_inv hw.1 hsec (fun tp w' hw' => ?_) (of_decide_eq_true hkept) he).imp_right
        fun hstable b _ => hstable b
      simpa [hat.get, hw'] using hseals

/-! ### No file is torn -/

def Untorn (s : Engine) : Prop :=
  ∀ tp base file, s.file? tp base = some file → file.torn = none

/-- The file that an append writes to is not torn. -/
theorem Untorn.segment (hu : Untorn s) {file : Option SegmentFile}
    (hseg : Produce.Segment s call w file) : ∀ old, file = some old → old.torn = none := by
  cases hseg with
  | found => exact fun old hold => hu _ _ old hold
  | created =>
    rintro old ⟨⟩
    rfl

theorem Untorn.run (hu : Untorn s) (h : a.run cfg s c = .ok s' next) : Untorn s' := by
  intro tp base file hf
  obtain ⟨call, attributes, rfl⟩ | hne := a.append_or
  · obtain ⟨w, old, hseg, hfile, -⟩ := append_files h
    rw [hfile] at hf
    split at hf
    · obtain ⟨old, hold, rfl⟩ := map_eq_some_iff.1 hf
      exact hu.segment hseg old hold
    · exact hu tp base file hf
  · exact hu tp base file (run_file?_inv hne h hf)

theorem Untorn.run_err (hu : Untorn s) (hkept : c.kept = 0) (h : a.run cfg s c = .err s' e) :
    Untorn s' := by
  intro tp base file hf
  obtain ⟨call, attributes, rfl⟩ | hne := a.append_or
  · rcases append_err_files h with rfl | ⟨-, -, ⟨-, hfile⟩ | ⟨w, old, -, hseg, hfile⟩⟩
    · exact hu tp base file hf
    · rw [hfile] at hf
      exact hu tp base file hf
    · rw [hfile] at hf
      split at hf
      · obtain ⟨old, hold, rfl⟩ := map_eq_some_iff.1 hf
        rw [hkept, Nat.zero_min]
        exact hu.segment hseg old hold
      · exact hu tp base file hf
  · rw [run_err_file? (fun call attributes heq => absurd heq (hne _ _)) h] at hf
    exact hu tp base file hf

theorem reach_untorn {w : EngineWorld}
    (h : (machine cfg).system.Reach (fun w l => sealsSynced cfg w l = true) opened w) :
    Untorn w.shared := by
  have hholds : Holds Untorn (fun _ _ => True) w := by
    refine h.invariant ⟨fun tp base file hf => ?_, fun _ _ => trivial⟩
      fun {w w' l} _ hw hok hs => ?_
    · simp [opened, Engine.opened, Engine.file?] at hf
    · refine hw.step hs (fun _ _ _ _ => trivial) ?_ ?_ ?_
      · intro ev s _ he
        refine ⟨fun tp base file hf => ?_, fun _ _ _ => trivial⟩
        obtain ⟨old, hold, -, htorn⟩ := env_file? he hf
        exact htorn.trans (hw.1 tp base old hold)
      · intro i c a rest s next _ _ _ he
        exact ⟨hw.1.run (exec_ok he), fun _ _ => trivial, fun _ _ _ _ => trivial⟩
      · rintro i c a rest s e rfl _ _ he
        have hkept := of_decide_eq_true (Bool.and_eq_true_iff.1 hok).1
        exact ⟨hw.1.run_err hkept (exec_err he), fun _ _ _ => trivial⟩
  exact hholds.1

/-! ## The high watermark -/

/-- Every batch below the high watermark lies in the synced part of its segment,
and recovery from whatever a crash leaves finds it again. -/
def WatermarkDurable (s : Engine) : Prop :=
  ∀ (tp : Topition) (inner : PartitionInner) (o : Int) (entry : BatchEntry),
    s.partitions[tp]? = some inner → inner.batches[o]? = some entry →
    o < inner.durableOffset →
    (∃ file, s.dirs[tp]?.bind (·[entry.segmentBase]?) = some file ∧
      entry.position + entry.len ≤ file.synced) ∧
    ∀ cut, ∃ r, recover (s.crash cut) = .ok r ∧ (tp.recognised →
      ∃ inner', r.partitions[tp]? = some inner' ∧ inner'.batches[o]? = some entry.stored)

variable {cut : Cut} {inner : PartitionInner} {dir : SegmentDir} {entry : BatchEntry} {o : Int}

theorem LogInv.indexed_synced (h : LogInv inner dir) (he : inner.batches[o]? = some entry)
    (ho : o < inner.durableOffset) :
    ∃ file f attributes, Frame dir entry.segmentBase file f ∧ f.baseOffset = o ∧
      BatchAttribute.tryFrom f.batch.attributes = .ok attributes ∧
      entry.stored = f.entry entry.segmentBase attributes none ∧
      f.endPosition ≤ file.synced := by
  obtain ⟨file, f, attributes, hf, rfl, ha, hstored⟩ := h.indexed o entry he
  refine ⟨file, f, attributes, hf, rfl, ha, hstored, ?_⟩
  by_contra hlt
  have := h.unsynced _ file f hf (by omega)
  omega

theorem Shared.parses (hs : Shared s) (cut : Cut) : (s.crash cut).Parses := by
  rintro tp crashed hcrashed ⟨base, f⟩ hf
  obtain ⟨dir, hdir, rfl⟩ := getElem?_crash_dirs hcrashed
  obtain ⟨file, hfile, hf, -⟩ := mem_frames_crash.1 hf
  have hinv := hs.partition tp
  rw [hdir] at hinv
  cases hp : s.partitions[tp]? with
  | none => rw [hp] at hinv; exact hinv.elim
  | some inner =>
    rw [hp] at hinv
    exact (hinv.frame base file f ⟨hfile, file.scannable_subset hf⟩).2.2.2.2

/-- Nothing was logged, so that recovery starts from nothing. -/
theorem Shared.replayed (hs : Shared s) : Recovered.replayed (s.crash cut) = {} := by
  have hrecords (seq : Nat) : Recovered.walRecords (s.crash cut) seq = [] := by
    refine flatMap_eq_nil_iff.2 fun entry hentry => ?_
    have hmem := ExtTreeMap.mem_toList_iff_getElem?_eq_some.1 (List.mem_filter.1 hentry).1
    simp only [Engine.crash, ExtTreeMap.getElem?_map] at hmem
    obtain ⟨file, hfile, hrecords⟩ := map_eq_some_iff.1 hmem
    rw [← hrecords, WalFile.replayable, hs.wals _ _ hfile, take_nil, take_nil]
  have hlatest : Recovered.loadLatest (s.crash cut) = some ⟨1, {}⟩ := by
    simp only [Recovered.loadLatest, Engine.crash, hs.snapshots]
    decide +kernel
  simp only [Recovered.replayed, hlatest, hrecords]
  rfl

/-- A synced frame is found again. -/
theorem Shared.recovers (hs : Shared s) (hu : Untorn s) (hdir : s.dirs[tp]? = some dir)
    (htp : tp.recognised)
    (hinv : LogInv inner dir) (hf : Frame dir base file f) (hsynced : f.endPosition ≤ file.synced)
    (ha : BatchAttribute.tryFrom f.batch.attributes = .ok attributes) :
    ∃ inner', (Recovered.addPins (s.crash cut).coord (s.crash cut).partitions)[tp]? =
        some inner' ∧ inner'.batches[f.baseOffset]? = some (f.entry base attributes none) := by
  have hcrash : (s.crash cut).dirs[tp]? = some (dir.map fun base file =>
      file.cut (max file.synced (cut.segments tp base))) := by
    simp only [Engine.crash, ExtTreeMap.getElem?_map, hdir, map_some]
  have hskeleton : (s.crash cut).skeleton tp = {} := by
    simp [Disk.skeleton, hs.replayed]
  obtain ⟨openTxns, hpart⟩ := getElem?_addPins (s.crash cut).coord
    (Disk.getElem?_partitions hcrash htp)
  have hscan : f ∈ file.scannable := by
    have htorn : file.torn = none := hu tp base file (by rw [Engine.file?, hdir, bind_some, hf.1])
    simpa [SegmentFile.scannable, htorn] using hf.2
  refine ⟨_, hpart, ?_⟩
  rw [hskeleton]
  refine (SegmentDir.recovers rfl (hs.parses cut tp _ hcrash)).batches base f attributes
    (mem_frames_crash.2 ⟨file, hf.1, hscan, hsynced.trans (le_max_left _ _)⟩)
    (hinv.frame base file f hf).2.1 ?_ ha
  rintro ⟨base', f'⟩ hf' heq
  obtain ⟨file', hfile', hf', -⟩ := mem_frames_crash.1 hf'
  obtain ⟨rfl, rfl⟩ :=
    hinv.unique _ _ _ _ _ _ ⟨hfile', file'.scannable_subset hf'⟩ hf heq
  rfl

/-- **The high watermark is durable** in every run that seals only synced segments and
in which no write leaves a torn frame.  A sealed segment is then synced as a whole, so
that what is not synced lies in the active segment, behind every acknowledged append;
and a scan of a file that is not torn reaches all its synced frames. -/
theorem watermark_durable {w : EngineWorld}
    (h : (machine cfg).system.Reach (fun w l => sealsSynced cfg w l = true) opened w) :
    WatermarkDurable w.shared := by
  obtain ⟨hs, -⟩ := reach_holds h
  have hu := reach_untorn h
  intro tp inner o entry hp he ho
  have hinv := hs.partition tp
  cases hdir : w.shared.dirs[tp]? with
  | none => rw [hp, hdir] at hinv; exact hinv.elim
  | some dir =>
    rw [hp, hdir] at hinv
    obtain ⟨file, f, attributes, hf, rfl, ha, hstored, hsynced⟩ :=
      LogInv.indexed_synced hinv he ho
    refine ⟨⟨file, hf.1, ?_⟩, fun cut => ?_⟩
    · have hpos : entry.position = f.position := congrArg BatchEntry.position hstored
      have hlen : entry.len = f.batch.framedLen := congrArg BatchEntry.len hstored
      rw [hpos, hlen]
      exact hsynced
    · refine ⟨_, recover_eq (hs.parses cut).scans, fun htp => ?_⟩
      rw [hstored]
      exact hs.recovers hu hdir htp hinv hf hsynced ha

/-- A batch of one record to one partition. -/
def smallBatch : ProduceCall :=
  { transactionId := none
    topition := ⟨"t", 0⟩
    batch := ⟨0, 0, 0, -1, -1, -1, .client 10⟩ }

/-- Two produces with a rotation between them, each segment synced in its turn. -/
def syncedRun : List EngineLabel :=
  List.flatten [
    [.spawn (.produce smallBatch), .run 0 {}, .run 0 {}, .run 0 {}],
    [.env (.syncSegment ⟨"t", 0⟩ 0 1000), .run 0 {}],
    [.spawn (.produce smallBatch), .run 1 {}, .run 1 {}, .run 1 {}],
    [.env (.syncSegment ⟨"t", 0⟩ 1 1000), .run 1 {}]]

theorem watermark_durable_syncedRun : ∃ w,
    (machine { segmentBytes := 1 }).system.Reach
        (fun w l => sealsSynced { segmentBytes := 1 } w l = true) opened w ∧
      (w.shared.partitions[(⟨"t", 0⟩ : Topition)]?).any
        (fun inner => inner.durableOffset = 2 ∧ 0 ∈ inner.batches) ∧
      WatermarkDurable w.shared := by
  exact (exists_reach syncedRun (by decide +kernel)).imp
    fun w h => ⟨h.1, h.2, watermark_durable h.1⟩

/-! ### Rotation away from a segment that is not synced -/

/-- Nothing is asked of the schedule. -/
def requested : EngineLabel → Bool
  | .spawn r => allowed r
  | _ => true

/-- A batch below the high watermark that is not synced. -/
def unsyncedBelow (s : Engine) (tp : Topition) (o : Int) : Bool :=
  match s.partitions[tp]? with
  | none => false
  | some inner =>
    match inner.batches[o]? with
    | none => false
    | some entry => decide (o < inner.durableOffset) &&
        !s.segmentSynced tp entry.segmentBase (entry.position + entry.len)

theorem not_durable_of_unsyncedBelow (h : unsyncedBelow s tp o = true) :
    ¬ WatermarkDurable s := by
  intro hd
  unfold unsyncedBelow at h
  split at h
  · cases h
  · next inner hp =>
    split at h
    · cases h
    · next entry he =>
      obtain ⟨hlt, hun⟩ := Bool.and_eq_true_iff.1 h
      obtain ⟨⟨file, hfile, hle⟩, -⟩ := hd tp inner o entry hp he (of_decide_eq_true hlt)
      simp [Engine.segmentSynced, hfile, hle] at hun

/-- Two produces with a rotation between them; the second segment is synced first. -/
def rotationRun : List EngineLabel :=
  List.flatten [
    [.spawn (.produce smallBatch), .run 0 {}, .run 0 {}, .run 0 {}],
    [.spawn (.produce smallBatch), .run 1 {}, .run 1 {}, .run 1 {}],
    [.env (.syncSegment ⟨"t", 0⟩ 1 1000), .run 1 {}]]

/-- The second producer's acknowledgement raises the high watermark over a batch
that only the page cache holds. -/
theorem rotation_leaves_unsynced : ∃ w,
    (machine { segmentBytes := 1 }).system.Reach (fun _ l => requested l = true) opened w ∧
      ¬ WatermarkDurable w.shared := by
  exact (exists_reach (P := fun w => unsyncedBelow w.shared ⟨"t", 0⟩ 0) rotationRun
    (by decide +kernel)).imp fun w h => ⟨h.1, not_durable_of_unsyncedBelow h.2⟩

end Durability

end Tansu.Nvme

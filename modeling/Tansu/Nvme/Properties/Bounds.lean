import Tansu.Nvme.Logs
import Tansu.Nvme.Properties.Transactional
import Tansu.Nvme.Tier

/-!
# Bounds of a partition

The log start, the last stable offset, the high watermark and the next offset of a
partition are in this order, over lives in which segments go to the tier and come
back from it.  Three things can break the order, and the results say so: the log
start is clamped to the high watermark and not to the last stable offset; a batch
may count fewer than no offsets; and recovery takes old batches of a producer for
batches of its open transaction.
-/

namespace Tansu.Nvme

open Std Tansu.Lib Machine List Option BTreeMap ExtTreeMap Produce System

/-! ## What a reader asks for -/

inductive IsolationLevel
  | readUncommitted
  | readCommitted

inductive ListOffset
  | earliest
  | latest
  | timestamp (want : Int)

structure ListOffsetResponse where
  offset : Option Int
  timestamp : Option Int

/-- Milliseconds since the epoch. -/
def timestampToSystemTime (timestampMs : Int) : Option Int :=
  if 0 ≤ timestampMs then some timestampMs else none

namespace PartitionInner

def limit (inner : PartitionInner) : IsolationLevel → Int
  | .readCommitted => inner.lastStable
  | .readUncommitted => inner.highWatermark

/-- `BTreeMap::range`, which panics on a start above the end. -/
def range (inner : PartitionInner) (low high : Int) : Option (List (Int × BatchEntry)) :=
  if high < low then none
  else some (inner.batches.toList.filter fun entry =>
    decide (low ≤ entry.1) && decide (entry.1 < high))

/-- One request of `list_offsets`, under the partition's lock; `none` is a panic. -/
def listOffsets (inner : PartitionInner) (level : IsolationLevel) :
    ListOffset → Option ListOffsetResponse
  | .earliest =>
    let first := inner.batches.toList.find? fun entry => decide (inner.logStart ≤ entry.1)
    some ⟨some inner.logStart, first.bind (timestampToSystemTime ·.2.maxTimestamp)⟩
  | .latest =>
    let last := (inner.batches.toList.filter fun entry =>
      decide (entry.1 < inner.limit level)).getLast?
    some ⟨some (inner.limit level), last.bind (timestampToSystemTime ·.2.maxTimestamp)⟩
  | .timestamp want =>
    (inner.range inner.logStart (inner.limit level)).map fun batches =>
      let found := batches.find? fun entry =>
        (timestampToSystemTime entry.2.maxTimestamp).any fun timestamp => decide (want ≤ timestamp)
      ⟨(found.map (·.1)).or (some 0), found.bind (timestampToSystemTime ·.2.maxTimestamp)⟩

/-! ## The order of one partition -/

/-- The order, with the last stable offset by its pins. -/
structure Ordered (inner : PartitionInner) : Prop where
  nonneg : 0 ≤ inner.logStart
  durable : inner.logStart ≤ inner.durableOffset
  next : inner.durableOffset ≤ inner.nextOffset
  pins : ∀ (key : OpenTxnKey) (o : Int), inner.openTxns[key]? = some o → inner.logStart ≤ o

variable {inner inner' : PartitionInner} {offset o : Int}

theorem lastStable_le_pin {key : OpenTxnKey} (h : inner.openTxns[key]? = some o) :
    inner.lastStable ≤ o := by
  have hmem : o ∈ inner.openTxns.values := mem_values.2 ⟨key, h⟩
  cases hm : inner.openTxns.values.min? with
  | none =>
    rw [min?_eq_none_iff] at hm
    rw [hm] at hmem
    cases hmem
  | some least =>
    have hle : least ≤ o := (min?_eq_some_iff.1 hm).2 o hmem
    simp only [lastStable, hm, getD_some]
    omega

theorem Ordered.le_lastStable (h : inner.Ordered) : inner.logStart ≤ inner.lastStable := by
  refine Int.le_min.2 ⟨?_, h.durable⟩
  cases hm : inner.openTxns.values.min? with
  | none => exact h.durable
  | some o =>
    obtain ⟨key, hkey⟩ := mem_values.1 (min?_mem hm)
    exact h.pins key o hkey

theorem lastStable_le : inner.lastStable ≤ inner.highWatermark := Int.min_le_right _ _

theorem Ordered.isSome_listOffsets (h : inner.Ordered) (level : IsolationLevel)
    (request : ListOffset) : (inner.listOffsets level request).isSome := by
  have hlimit : ¬ inner.limit level < inner.logStart := by
    cases level with
    | readCommitted => exact Int.not_lt.2 h.le_lastStable
    | readUncommitted => exact Int.not_lt.2 h.durable
  cases request with
  | earliest | latest => rfl
  | timestamp want => simp only [listOffsets, range, if_neg hlimit, map_some, Option.isSome]

theorem Ordered.fresh (handle : Nat) : Ordered { handle } :=
  ⟨Int.le_refl 0, Int.le_refl 0, Int.le_refl 0, fun _ _ h => by simp at h⟩

/-- The clamp of `advance_log_start` between bounds that are not inverted. -/
theorem clamp_bounds {low high : Int} (h : low ≤ high) :
    low ≤ clamp o low high ∧ clamp o low high ≤ max low (min o high) := by
  unfold clamp
  split
  · omega
  · split <;> omega

section

variable (h : inner.Ordered)
include h

theorem Ordered.advanceLogStart (hstable : min offset inner.highWatermark ≤ inner.lastStable) :
    (inner.advanceLogStart offset).Ordered := by
  obtain ⟨hlow, hhigh⟩ := clamp_bounds (o := offset) h.durable
  have hle := h.le_lastStable
  have hwm : inner.lastStable ≤ inner.durableOffset := lastStable_le
  have hnonneg := h.nonneg
  refine ⟨?_, ?_, h.next, fun key o hpin => ?_⟩
  · show 0 ≤ clamp offset inner.logStart inner.durableOffset
    omega
  · show clamp offset inner.logStart inner.durableOffset ≤ inner.durableOffset
    have := h.durable
    omega
  · show clamp offset inner.logStart inner.durableOffset ≤ o
    have hpin : inner.lastStable ≤ o := lastStable_le_pin hpin
    change min offset inner.durableOffset ≤ inner.lastStable at hstable
    omega

theorem Ordered.raise {handle : Nat} {offsetEnd : Int}
    (hnext : inner.handle = handle → offsetEnd < inner.nextOffset) :
    (Produce.raise handle offsetEnd inner).Ordered := by
  unfold Produce.raise
  split
  · next heq =>
    have hlt := hnext heq
    have hdurable := h.durable
    have hle := h.next
    refine ⟨h.nonneg, ?_, ?_, h.pins⟩
    · show inner.logStart ≤ max inner.durableOffset (offsetEnd + 1)
      omega
    · show max inner.durableOffset (offsetEnd + 1) ≤ inner.nextOffset
      omega
  · exact h

theorem Ordered.unpin (key : OpenTxnKey) (aborting : Bool) (range : TxnProduceOffset) :
    (Transactions.unpin key aborting range inner).Ordered := by
  refine ⟨h.nonneg, h.durable, h.next, fun key' o hpin => ?_⟩
  simp only [Transactions.unpin, getElem?_erase_eq] at hpin
  split at hpin
  · cases hpin
  · exact h.pins key' o hpin

theorem Ordered.sealAged (c : Choice) : (Cleanup.sealAged c inner).Ordered := by
  unfold Cleanup.sealAged
  split
  · exact ⟨h.nonneg, h.durable, h.next, h.pins⟩
  · exact h

theorem Ordered.extend (hle : inner.nextOffset ≤ o) (writer : Option SegmentWriter) :
    Ordered { inner with nextOffset := o, writer } :=
  ⟨h.nonneg, h.durable, Int.le_trans h.next hle, h.pins⟩

/-- A new pin is at an offset that is not below the log start. -/
theorem Ordered.indexed (cfg : Config) (call : ProduceCall) (attributes : BatchAttribute)
    (writer : SegmentWriter) (hle : inner.logStart ≤ offset) :
    (Produce.indexed cfg call attributes inner writer offset).Ordered := by
  have hstart : (Produce.indexed cfg call attributes inner writer offset).logStart =
      inner.logStart := (inner.index_sameLog offset _ _).logStart
  constructor
  · rw [hstart]
    exact h.nonneg
  · rw [hstart, indexed_durableOffset]
    exact h.durable
  · rw [indexed_durableOffset, indexed_nextOffset]
    exact h.next
  · intro key o hpin
    rw [hstart]
    rw [indexed_openTxns] at hpin
    split at hpin
    · exact h.pins key o hpin
    · rw [getElem?_insertIfNew_eq] at hpin
      split at hpin
      · cases hold : inner.openTxns[key]? with
        | none =>
          rw [hold] at hpin
          cases hpin
          exact hle
        | some o' =>
          rw [hold] at hpin
          cases hpin
          exact h.pins key _ hold
      · exact h.pins key o hpin

end

/-- What a section may do to a partition that is there. -/
structure Grows (inner inner' : PartitionInner) : Prop where
  handle : inner'.handle = inner.handle
  nextOffset : inner.nextOffset ≤ inner'.nextOffset
  ordered : inner.Ordered → inner'.Ordered

theorem Grows.rfl : inner.Grows inner := ⟨Eq.refl _, Int.le_refl _, id⟩

theorem Grows.trans {inner'' : PartitionInner} (h : inner.Grows inner')
    (h' : inner'.Grows inner'') : inner.Grows inner'' :=
  ⟨h'.handle.trans h.handle, Int.le_trans h.nextOffset h'.nextOffset, h'.ordered ∘ h.ordered⟩

end PartitionInner

/-! ## What a section does to the partitions -/

/-- Every partition after the section was there and has grown, or is new and has a
handle that no partition had before. -/
structure Engine.Advances (s s' : Engine) : Prop where
  nextHandle : s.nextHandle ≤ s'.nextHandle
  partitions : ∀ (tp : Topition) (inner' : PartitionInner), s'.partitions[tp]? = some inner' →
    (∃ inner, s.partitions[tp]? = some inner ∧ inner.Grows inner') ∨
      (s.nextHandle ≤ inner'.handle ∧ inner'.handle < s'.nextHandle ∧ inner'.Ordered)

variable {cfg : Config} {c : Choice} {s s' : Engine} {a : Action} {next : List Action} {e : Error}
  {tp : Topition} {inner inner' : PartitionInner} {call : ProduceCall}
  {attributes : BatchAttribute}

namespace Engine.Advances

theorem of_eq (hp : s'.partitions = s.partitions) (hn : s'.nextHandle = s.nextHandle) :
    s.Advances s' :=
  ⟨Nat.le_of_eq hn.symm, fun _ inner' h => .inl ⟨inner', hp ▸ h, .rfl⟩⟩

theorem trans {s'' : Engine} (h : s.Advances s') (h' : s'.Advances s'') : s.Advances s'' := by
  refine ⟨Nat.le_trans h.nextHandle h'.nextHandle, fun tp inner'' hp => ?_⟩
  have hmono := h.nextHandle
  have hmono' := h'.nextHandle
  rcases h'.partitions tp inner'' hp with ⟨inner', hp', hgrows'⟩ | ⟨hlow, hhigh, hordered⟩
  · rcases h.partitions tp inner' hp' with ⟨inner, hp, hgrows⟩ | ⟨hlow, hhigh, hordered⟩
    · exact .inl ⟨inner, hp, hgrows.trans hgrows'⟩
    · have hhandle := hgrows'.handle
      exact .inr ⟨by omega, by omega, hgrows'.ordered hordered⟩
  · exact .inr ⟨by omega, hhigh, hordered⟩

theorem modify {f : PartitionInner → PartitionInner} {tp' : Topition}
    (hf : ∀ inner : PartitionInner, s.partitions[tp']? = some inner → inner.Grows (f inner)) :
    s.Advances { s with partitions := s.partitions.modify tp' f } := by
  refine ⟨Nat.le_refl _, fun tp inner' hp => .inl ?_⟩
  simp only [BTreeMap.getElem?_modify_eq] at hp
  split at hp
  · next htp =>
    subst htp
    obtain ⟨inner, hinner, rfl⟩ := map_eq_some_iff.1 hp
    exact ⟨inner, hinner, hf inner hinner⟩
  · exact ⟨inner', hp, .rfl⟩

/-- One partition is replaced, after a change to something else. -/
theorem replace {s₁ : Engine} (hs : s₁.partitions = s.partitions)
    (hn : s₁.nextHandle = s.nextHandle) (hp : s.partitions[tp]? = some inner)
    (hg : inner.Grows inner') : s.Advances (s₁.setPartition tp inner') := by
  refine ⟨Nat.le_of_eq hn.symm, fun tp' inner'' hp' => .inl ?_⟩
  rw [Engine.setPartition, getElem?_insert_eq] at hp'
  split at hp'
  · next htp =>
    subst htp
    cases hp'
    exact ⟨inner, hp, hg⟩
  · exact ⟨inner'', hs ▸ hp', .rfl⟩

theorem setPartition (hp : s.partitions[tp]? = some inner) (hg : inner.Grows inner') :
    s.Advances (s.setPartition tp inner') := replace rfl rfl hp hg

theorem partition (h : s.partition tp = some (s', inner)) :
    s.Advances s' ∧ s'.partitions[tp]? = some inner := by
  rcases Engine.partition_eq h with ⟨hp, rfl⟩ | ⟨-, rfl, rfl⟩
  · exact ⟨of_eq rfl rfl, hp⟩
  · refine ⟨⟨Nat.le_succ _, fun tp' inner' hp' => ?_⟩, ?_⟩
    · rw [getElem?_insert_eq] at hp'
      split at hp'
      · cases hp'
        exact .inr ⟨Nat.le_refl _, Nat.lt_succ_self _, .fresh _⟩
      · exact .inl ⟨inner', hp', .rfl⟩
    · rw [getElem?_insert_eq, if_pos rfl]

/-! ### Produce -/

theorem append (h : Produce.append cfg s c call attributes = .ok s' next)
    (hd : -1 ≤ call.batch.lastOffsetDelta) : s.Advances s' := by
  obtain ⟨s₁, s₂, inner, w, hp, ha, rfl, -⟩ := append_ok h
  obtain ⟨hadv, hinner⟩ := partition hp
  obtain ⟨dirs, rfl⟩ := Produce.activeSegment_dirs ha
  have hle : inner.nextOffset ≤ Produce.endOffset inner call + 1 := by
    simp only [Produce.endOffset]
    omega
  refine hadv.trans (replace rfl rfl hinner ?_)
  refine ⟨indexed_handle .., ?_, fun h => ?_⟩
  · rw [indexed_nextOffset]
    exact hle
  · exact (h.extend hle _).indexed cfg call attributes w (Int.le_trans h.durable h.next)

theorem append_err (h : Produce.append cfg s c call attributes = .err s' e)
    (hd : -1 ≤ call.batch.lastOffsetDelta) : s.Advances s' := by
  rcases Produce.append_err h with rfl | ⟨s₁, inner, hp, hcase⟩
  · exact of_eq rfl rfl
  obtain ⟨hadv, hinner⟩ := partition hp
  have hle : inner.nextOffset ≤ Produce.endOffset inner call + 1 := by
    simp only [Produce.endOffset]
    omega
  rcases hcase with ⟨-, rfl⟩ | ⟨s₂, w, ha, rfl⟩
  · exact hadv.trans (setPartition hinner ⟨rfl, hle, fun h => h.extend hle _⟩)
  · obtain ⟨dirs, rfl⟩ := Produce.activeSegment_dirs ha
    exact hadv.trans (replace rfl rfl hinner ⟨rfl, hle, fun h => h.extend hle _⟩)

end Engine.Advances

/-! ### Deletion and retention -/

/-- What deletion and retention may be asked for while transactions are open: deletion, for
an offset at or below the first one of each of them (or past the high watermark, which is
refused); retention, while each began in the last segment. -/
def Action.stays (s : Engine) : Action → Bool
  | .cleanup (.deleteRecord _ tp offset) => (s.partitions[tp]?).all fun inner =>
      inner.openTxns.values.all fun first => decide (0 ≤ offset) &&
        (decide (offset ≤ first) || decide (inner.highWatermark < offset))
  | .cleanup (.retain _ _ _ tp) => (s.partitions[tp]?).all fun inner =>
      inner.openTxns.values.all fun first =>
        decide ((inner.writer.map (·.baseOffset)).getD inner.nextOffset ≤ first) &&
          inner.batches.values.all fun entry => decide (entry.segmentBase ≤ first)
  | _ => true

namespace PartitionInner

/-- A log start at or below every pin is at or below the last stable offset. -/
theorem min_le_lastStable {offset : Int}
    (h : ∀ (key : OpenTxnKey) (o : Int), inner.openTxns[key]? = some o → offset ≤ o) :
    min offset inner.highWatermark ≤ inner.lastStable := by
  refine Int.le_min.2 ⟨?_, Int.min_le_right _ _⟩
  cases hm : inner.openTxns.values.min? with
  | none => exact Int.min_le_right _ _
  | some o =>
    obtain ⟨key, hkey⟩ := mem_values.1 (min?_mem hm)
    exact Int.le_trans (Int.min_le_left _ _) (h key o hkey)

theorem Grows.advanceLogStart {offset : Int} (h : inner.Ordered →
      ∀ (key : OpenTxnKey) (o : Int), inner.openTxns[key]? = some o → offset ≤ o) :
    inner.Grows (inner.advanceLogStart offset) :=
  ⟨Eq.refl _, Int.le_refl _, fun ho => ho.advanceLogStart (min_le_lastStable (h ho))⟩

end PartitionInner

namespace Cleanup

variable {now ms bytes bound : Int}

/-- The sealed segments are those of the batches. -/
theorem sealedSegments_le (h : ∀ entry ∈ inner.batches.values, entry.segmentBase ≤ bound) :
    ∀ segment ∈ (sealedSegments inner).toList, segment.1 ≤ bound := by
  have hkeys : ∀ base, (sealedSegments inner)[base]?.isSome → base ≤ bound := by
    unfold sealedSegments
    refine foldlRecOn (motive := fun m => ∀ base, m[base]?.isSome → base ≤ bound) _ _
      (fun base hbase => (by simp at hbase)) fun m hm entry hentry base hbase => ?_
    split at hbase
    · exact hm base hbase
    · rw [getElem?_alter_eq] at hbase
      split at hbase
      · next heq => exact heq ▸ h entry hentry
      · exact hm base hbase
  intro segment hsegment
  exact hkeys segment.1 (isSome_of_eq_some (mem_toList_iff_getElem?_eq_some.1 hsegment))

/-- Retention moves the log start to where a segment begins. -/
theorem retentionStart_le {tail : Int} {segments : List (Int × Int × Nat)} {start : Int}
    {total : Nat} (htail : tail ≤ bound) (hsegments : ∀ segment ∈ segments, segment.1 ≤ bound)
    (hstart : start ≤ bound) : retentionStart now ms bytes tail segments start total ≤ bound := by
  induction segments generalizing start total with
  | nil => exact hstart
  | cons segment segments ih =>
    have hrest : ∀ segment ∈ segments, segment.1 ≤ bound :=
      fun segment' h => hsegments segment' (mem_cons_of_mem _ h)
    unfold retentionStart
    simp only
    split
    · refine ih hrest (Int.max_le.2 ⟨hstart, ?_⟩)
      cases segments with
      | nil => exact htail
      | cons segment' segments => exact hrest segment' mem_cons_self
    · exact hstart

end Cleanup

variable {now ms bytes : Int}

theorem Engine.Advances.retain (hp : s.partitions[tp]? = some inner)
    (hstays : Action.stays s (.cleanup (.retain now ms bytes tp))) :
    s.Advances (s.setPartition tp (inner.advanceLogStart
      (Cleanup.newStart now ms bytes inner))) := by
  refine .setPartition hp (.advanceLogStart fun ho key o hpin => ?_)
  have hfirst := List.all_eq_true.1 ((Option.all_eq_true _ _).1 hstays inner hp) o
    (mem_values.2 ⟨key, hpin⟩)
  obtain ⟨htail, hbatches⟩ := Bool.and_eq_true_iff.1 hfirst
  refine Cleanup.retentionStart_le (of_decide_eq_true htail) ?_ (ho.pins key o hpin)
  exact Cleanup.sealedSegments_le fun entry he =>
    of_decide_eq_true (List.all_eq_true.1 hbatches entry he)

/-! ## Log starts on their way to the disk -/

def WalRecord.Nonneg : WalRecord → Prop
  | .logStartAdvance _ offset => 0 ≤ offset
  | _ => True

/-- No partition of a snapshot starts below zero. -/
def Skeletons (skeletons : BTreeMap Topition Skeleton) : Prop :=
  ∀ (tp : Topition) (skeleton : Skeleton), skeletons[tp]? = some skeleton → 0 ≤ skeleton.logStart

/-- The log starts that a section carries. -/
def Action.Nonneg : Action → Prop
  | .wal (.append record _) => record.Nonneg
  | .snapshot (.capturePartition _ _ skeletons) | .snapshot (.captureState _ skeletons) =>
    Skeletons skeletons
  | .snapshot (.awaitSeal doc) | .snapshot (.write doc) => Skeletons doc.state.skeletons
  | _ => True

/-- The partitions, the log and the snapshots of an engine that keeps the order. -/
structure Bounded (s : Engine) : Prop where
  handles : ∀ (tp : Topition) (inner : PartitionInner), s.partitions[tp]? = some inner →
    inner.handle < s.nextHandle
  ordered : ∀ (tp : Topition) (inner : PartitionInner), s.partitions[tp]? = some inner →
    inner.Ordered
  wals : ∀ (seq : Nat) (file : WalFile), s.wals[seq]? = some file → ∀ r ∈ file.records, r.Nonneg
  snapshots : ∀ (seq : Nat) (doc : SnapshotDoc), s.snapshots[seq]? = some doc →
    Skeletons doc.state.skeletons

/-- What is known of a section that is pending.  An append that waits for its group
commit lies below the next offset of its partition, if that is still the same. -/
structure Admissible (s : Engine) (a : Action) : Prop where
  spans : ∀ call, a.call? = some call → -1 ≤ call.batch.lastOffsetDelta
  acked : ∀ call attributes ack, a = .produce (.acked call attributes ack) →
    ack.handle < s.nextHandle ∧ ∀ inner : PartitionInner,
      s.partitions[call.topition]? = some inner → inner.handle = ack.handle →
        ack.offsetEnd < inner.nextOffset
  nonneg : a.Nonneg

theorem Admissible.of_call (hc : a.call? = none) (hn : a.Nonneg) : Admissible s a := by
  refine ⟨fun call h => ?_, fun call attributes ack h => ?_, hn⟩
  · rw [hc] at h
    cases h
  · subst h
    cases hc

theorem Admissible.mono (h : Admissible s a) (hadv : s.Advances s') : Admissible s' a := by
  refine ⟨h.spans, fun call attributes ack ha => ?_, h.nonneg⟩
  obtain ⟨hlt, hbelow⟩ := h.acked call attributes ack ha
  have hmono := hadv.nextHandle
  refine ⟨by omega, fun inner' hp hhandle => ?_⟩
  rcases hadv.partitions _ inner' hp with ⟨inner, hp, hgrows⟩ | ⟨hnew, -, -⟩
  · have hnext := hgrows.nextOffset
    have := hbelow inner hp (hgrows.handle ▸ hhandle)
    omega
  · omega

theorem Bounded.partitions (h : Bounded s) (hadv : s.Advances s') (tp : Topition)
    (inner' : PartitionInner) (hp : s'.partitions[tp]? = some inner') :
    inner'.handle < s'.nextHandle ∧ inner'.Ordered := by
  have hmono := hadv.nextHandle
  rcases hadv.partitions tp inner' hp with ⟨inner, hp, hgrows⟩ | ⟨-, hlt, hordered⟩
  · have hlt := h.handles tp inner hp
    have hhandle := hgrows.handle
    exact ⟨by omega, hgrows.ordered (h.ordered tp inner hp)⟩
  · exact ⟨hlt, hordered⟩

/-! ## Every section -/

/-- **What a section does to the partitions**, given that its batch counts at least
no offsets and that it does not reach past the last stable offset. -/
theorem run_advances (ha : Admissible s a) (hstays : a.stays s) (h : a.run cfg s c = .ok s' next) :
    s.Advances s' := by
  cases run_touches h with
  | append happ => exact .append happ (ha.spans _ rfl)
  | acked =>
    refine .modify fun inner hp => ?_
    have hbelow := (ha.acked _ _ _ rfl).2 inner hp
    refine ⟨?_, ?_, fun ho => ho.raise hbelow⟩ <;> unfold Produce.raise <;> split <;> rfl
  | release => exact .modify fun inner _ => ⟨rfl, Int.le_refl _, fun ho => ho.unpin _ _ _⟩
  | ensure hp => exact (Engine.Advances.partition hp).1
  | drop =>
    refine ⟨Nat.le_refl _, fun tp inner hp => .inl ⟨inner, ?_, .rfl⟩⟩
    exact (getElem?_filter_eq_some.1 hp).1
  | deleteRecord hp hle =>
    refine .setPartition hp (.advanceLogStart fun _ key o hpin => ?_)
    have hfirst := List.all_eq_true.1 ((Option.all_eq_true _ _).1 hstays _ hp) o
      (mem_values.2 ⟨key, hpin⟩)
    simp only [Bool.and_eq_true, Bool.or_eq_true, decide_eq_true_eq] at hfirst
    unfold Cleanup.deleteTarget at hle ⊢
    split at hle <;> omega
  | retain hp => exact .retain hp hstays
  | sealAged =>
    refine .modify fun inner _ => ⟨?_, ?_, fun ho => ho.sealAged c⟩ <;>
      unfold Cleanup.sealAged <;> split <;> rfl
  | _ => exact .of_eq rfl rfl

theorem run_err_advances (ha : Admissible s a) (hstays : a.stays s)
    (h : a.run cfg s c = .err s' e) : s.Advances s' := by
  cases run_fails h with
  | still | wal | check => exact .of_eq rfl rfl
  | append => exact .append_err h (ha.spans _ rfl)
  | retain hp => exact .retain hp hstays

/-! ## What a section goes on with -/

theorem WalRecord.nonneg_of_standing {record : WalRecord} (h : record.standing = true) :
    record.Nonneg := by
  cases record with
  | logStartAdvance => cases h
  | _ => trivial

theorem run_nonneg (hn : a.Nonneg) (hs : Bounded s)
    (hs' : ∀ (tp : Topition) (inner : PartitionInner), s'.partitions[tp]? = some inner →
      inner.Ordered) (h : a.run cfg s c = .ok s' next) : ∀ b ∈ next, b.Nonneg := by
  intro b hb
  cases run_leads h b hb with
  | log hstanding => exact WalRecord.nonneg_of_standing hstanding
  | move hp => exact (hs' _ _ hp).nonneg
  | captured =>
    intro tp skeleton hnone
    simp at hnone
  | @listed _ tp =>
    intro tp' skeleton hsk
    cases hp : s.partitions[tp]? with
    | none =>
      simp only [hp] at hsk
      exact hn tp' skeleton hsk
    | some inner =>
      simp only [hp, getElem?_insert_eq] at hsk
      split at hsk
      · cases hsk
        exact (hs.ordered tp inner hp).nonneg
      · exact hn tp' skeleton hsk
  | listedAll | stated | sealed => exact hn
  | @cleanup _ step' => cases step' <;> trivial
  | @admin _ step' => cases step' <;> trivial
  | _ => trivial

/-- The acknowledgement of an append lies just below the next offset that it left. -/
theorem append_acked (hs : Bounded s) (ha : Admissible s (.produce (.append call attributes)))
    (h : Produce.append cfg s c call attributes = .ok s' next) :
    ∀ b ∈ next, Admissible s' b := by
  have hadv : s.Advances s' := .append h (ha.spans call rfl)
  have hspans := ha.spans call rfl
  obtain ⟨_, _, _, _, w, rfl, hparts, rfl⟩ := append_ok_partitions h
  intro b hb
  rw [mem_singleton.1 hb]
  refine ⟨fun call' hc => ?_, fun call' attributes' ack hack => ?_, trivial⟩
  · cases hc
    exact hspans
  · cases hack
    have hp := hparts call.topition
    rw [if_pos rfl] at hp
    have hlt := (hs.partitions hadv call.topition _ hp).1
    rw [indexed_handle] at hlt
    refine ⟨hlt, fun inner hinner _ => ?_⟩
    rw [show _ = _ from hp] at hinner
    cases hinner
    rw [indexed_nextOffset]
    exact Int.lt_succ _

theorem run_admissible (hs : Bounded s) (ha : Admissible s a) (hstays : a.stays s)
    (h : a.run cfg s c = .ok s' next) : ∀ b ∈ next, Admissible s' b := by
  have hadv := run_advances ha hstays h
  intro b hb
  have hnonneg := run_nonneg ha.nonneg hs (fun tp inner hp => (hs.partitions hadv tp inner hp).2) h
  cases run_leads h b hb with
  | marker =>
    refine ⟨fun call hc => ?_, fun _ _ _ hack => (by cases hack), trivial⟩
    cases hc
    show (-1 : Int) ≤ 0
    decide
  | guard | check | acked => exact ⟨ha.spans, fun _ _ _ hack => (by cases hack), trivial⟩
  | append => exact append_acked hs ha h _ hb
  | _ => exact .of_call rfl (hnonneg _ hb)

/-! ## The log and the snapshots -/

theorem getElem?_foldl_erase {V : Type} {seqs : List Nat} {m : BTreeMap Nat V} {seq : Nat} {v : V}
    (h : (seqs.foldl (fun m seq => m.erase seq) m)[seq]? = some v) : m[seq]? = some v := by
  induction seqs generalizing m with
  | nil => exact h
  | cons seq' seqs ih =>
    have hold := ih h
    rw [getElem?_erase_eq] at hold
    split at hold
    · cases hold
    · exact hold

/-- Only a log section and a snapshot write to the log and to the snapshots. -/
theorem run_stored (hs : Bounded s) (hn : a.Nonneg) (h : a.run cfg s c = .ok s' next) :
    (∀ (seq : Nat) (file : WalFile), s'.wals[seq]? = some file → ∀ r ∈ file.records, r.Nonneg) ∧
      ∀ (seq : Nat) (doc : SnapshotDoc), s'.snapshots[seq]? = some doc →
        Skeletons doc.state.skeletons := by
  cases run_touches h with
  | log =>
    refine ⟨fun seq file hf r hr => ?_, hs.snapshots⟩
    simp only [Engine.appendWal, BTreeMap.getElem?_modify_eq] at hf
    split at hf
    · obtain ⟨old, hold, rfl⟩ := map_eq_some_iff.1 hf
      rcases mem_append.1 hr with hr | hr
      · exact hs.wals seq old hold r hr
      · rw [mem_singleton.1 hr]
        exact hn
    · exact hs.wals seq file hf r hr
  | rotate =>
    refine ⟨fun seq file hf r hr => ?_, hs.snapshots⟩
    rw [getElem?_insert_eq] at hf
    split at hf
    · cases hf
      cases hr
    · exact hs.wals seq file hf r hr
  | write =>
    refine ⟨hs.wals, fun seq doc' hd => ?_⟩
    rw [getElem?_insert_eq] at hd
    split at hd
    · cases hd
      exact hn
    · exact hs.snapshots seq doc' hd
  | prune => exact ⟨hs.wals, fun seq doc hd => hs.snapshots seq doc (getElem?_foldl_erase hd)⟩
  | removeWal =>
    refine ⟨fun seq' file hf r hr => ?_, hs.snapshots⟩
    rw [getElem?_erase_eq] at hf
    split at hf
    · cases hf
    · exact hs.wals seq' file hf r hr
  | _ => exact ⟨hs.wals, hs.snapshots⟩

theorem Bounded.run (hs : Bounded s) (ha : Admissible s a) (hstays : a.stays s)
    (h : a.run cfg s c = .ok s' next) : Bounded s' := by
  have hadv := run_advances ha hstays h
  obtain ⟨hwals, hsnapshots⟩ := run_stored hs ha.nonneg h
  exact ⟨fun tp inner hp => (hs.partitions hadv tp inner hp).1,
    fun tp inner hp => (hs.partitions hadv tp inner hp).2, hwals, hsnapshots⟩

theorem Bounded.run_err (hs : Bounded s) (ha : Admissible s a) (hstays : a.stays s)
    (h : a.run cfg s c = .err s' e) : Bounded s' := by
  have hadv := run_err_advances ha hstays h
  have hwals (seq : Nat) (file : WalFile) (hf : s'.wals[seq]? = some file) :
      ∀ r ∈ file.records, r.Nonneg := by
    obtain ⟨old, hold, hrecords⟩ := run_err_wals h hf
    rw [hrecords]
    exact hs.wals seq old hold
  obtain ⟨_, _, _, _, _, rfl⟩ := run_err_frame h
  exact ⟨fun tp inner hp => (hs.partitions hadv tp inner hp).1,
    fun tp inner hp => (hs.partitions hadv tp inner hp).2, hwals, hs.snapshots⟩

theorem Bounded.env {ev : Env} (hs : Bounded s) (h : env s ev = some s') :
    Bounded s' ∧ s.Advances s' := by
  cases ev with
  | syncSegment tp base upTo =>
    cases h
    exact ⟨⟨hs.handles, hs.ordered, hs.wals, hs.snapshots⟩, .of_eq rfl rfl⟩
  | syncWal seq upTo =>
    cases h
    refine ⟨⟨hs.handles, hs.ordered, fun seq' file hf r hr => ?_, hs.snapshots⟩, .of_eq rfl rfl⟩
    rw [BTreeMap.getElem?_modify_eq] at hf
    split at hf
    · obtain ⟨old, hold, rfl⟩ := map_eq_some_iff.1 hf
      exact hs.wals seq' old hold r hr
    · exact hs.wals seq' file hf r hr

/-! ## Steps of one life -/

/-- Every batch counts at least no offsets: its last offset delta is -1 or more. -/
def Request.spans : Request → Bool
  | .produce call => decide (-1 ≤ call.batch.lastOffsetDelta)
  | _ => true

theorem Request.start_admissible {r : Request} (h : r.spans) :
    ∀ b ∈ r.start, Admissible s b := by
  intro b hb
  cases r with
  | produce call =>
    rw [mem_singleton.1 hb]
    refine ⟨fun call' hc => ?_, fun _ _ _ hack => (by cases hack), trivial⟩
    cases hc
    exact of_decide_eq_true h
  | txnEnd | maintain =>
    refine .of_call (Request.start_call (by simp) b hb) ?_
    simp only [Request.start, mem_cons, not_mem_nil, or_false] at hb
    rcases hb with rfl | rfl <;> trivial
  | _ =>
    refine .of_call (Request.start_call (by simp) b hb) ?_
    rw [mem_singleton.1 hb]
    trivial

/-- What the steps of the engine have to meet. -/
def stepsOrderly (w : EngineWorld) : EngineLabel → Bool
  | .spawn r => r.spans
  | .run i _ => ((w.tasks[i]? : Option (List Action)).bind List.head?).all (·.stays w.shared)
  | .env _ => true

abbrev BoundsInv : EngineWorld → Prop := Holds Bounded Admissible

variable {w w' : EngineWorld} {l : EngineLabel}

theorem stays_of_at {i : Nat} {rest : List Action} (hok : stepsOrderly w (.run i c))
    (hat : At w i a rest) : a.stays w.shared := by
  have htask : w.tasks[i]? = some (a :: rest) := hat
  simp only [stepsOrderly, htask] at hok
  exact hok

theorem BoundsInv.step (hi : BoundsInv w) (hok : stepsOrderly w l)
    (h : (machine cfg).step w l = some w') : BoundsInv w' := by
  refine Holds.step hi h ?_ ?_ ?_ ?_
  · rintro r rfl b hb
    exact Request.start_admissible hok b hb
  · intro ev s hl he
    obtain ⟨hs, hadv⟩ := hi.1.env he
    exact ⟨hs, fun b _ hb => hb.mono hadv⟩
  · intro i c a rest s next hl hat ha he
    subst hl
    have hstays := stays_of_at hok hat
    have hrun := exec_ok he
    exact ⟨hi.1.run ha hstays hrun, run_admissible hi.1 ha hstays hrun,
      fun b _ _ hb => hb.mono (run_advances ha hstays hrun)⟩
  · intro i c a rest s err hl hat ha he
    subst hl
    have hstays := stays_of_at hok hat
    have hrun := exec_err he
    exact ⟨hi.1.run_err ha hstays hrun, fun b _ hb => hb.mono (run_err_advances ha hstays hrun)⟩

theorem boundsInv_opened : BoundsInv opened := by
  refine ⟨⟨fun tp inner hp => ?_, fun tp inner hp => ?_, fun seq file hf r hr => ?_,
    fun seq doc hd tp skeleton hsk => ?_⟩, fun a ha => ?_⟩
  · simp [opened, Engine.opened] at hp
  · simp [opened, Engine.opened] at hp
  · simp only [opened, Engine.opened, getElem?_insert_eq] at hf
    split at hf
    · cases hf
      cases hr
    · simp at hf
  · simp only [opened, Engine.opened, getElem?_insert_eq] at hd
    split at hd
    · cases hd
      simp at hsk
    · simp at hd
  · obtain ⟨todo, hmem, -⟩ := ha
    cases hmem

theorem BoundsInv.evict (hi : BoundsInv w) {base : Int}
    (h : w.shared.evictSegment tp base = some s') : BoundsInv { w with shared := s' } := by
  simp only [Engine.evictSegment] at h
  split at h
  · next inner file hp _ =>
    split at h
    · cases h
    · cases h
      have hadv : w.shared.Advances (w.shared.setPartition tp (inner.evictSegment base)) :=
        .setPartition hp ⟨rfl, Int.le_refl _, fun ho => ⟨ho.nonneg, ho.durable, ho.next, ho.pins⟩⟩
      refine ⟨⟨fun tp inner hp => (hi.1.partitions hadv tp inner hp).1,
        fun tp inner hp => (hi.1.partitions hadv tp inner hp).2, hi.1.wals, hi.1.snapshots⟩,
        fun b hb => ?_⟩
      exact (hi.2 b hb).mono ⟨hadv.nextHandle, hadv.partitions⟩
  · cases h

/-! ## Recovery -/

/-- No log start on the disk is below zero. -/
structure Disk.Nonneg (disk : Disk) : Prop where
  wals : ∀ (seq : Nat) (records : List WalRecord), disk.wals[seq]? = some records →
    ∀ r ∈ records, r.Nonneg
  snapshots : ∀ (seq : Nat) (doc : SnapshotDoc), disk.snapshots[seq]? = some doc →
    Skeletons doc.state.skeletons

variable {disk : Disk} {r : Recovered} {remote : Remote}

theorem Skeletons.alter {m : BTreeMap Topition Skeleton} (h : Skeletons m)
    {f : Skeleton → Skeleton} (hf : ∀ skeleton : Skeleton, 0 ≤ skeleton.logStart →
      0 ≤ (f skeleton).logStart) :
    Skeletons (m.alter tp fun skeleton => some (f (skeleton.getD {}))) := by
  intro tp' skeleton hsk
  rw [getElem?_alter_eq] at hsk
  split at hsk
  · cases hsk
    refine hf _ ?_
    cases hold : m[tp']? with
    | none => exact Int.le_refl 0
    | some old => exact h tp' old hold
  · exact h tp' skeleton hsk

theorem Skeletons.apply {state : ReplayState} {record : WalRecord}
    (h : Skeletons state.skeletons) (hr : record.Nonneg) :
    Skeletons (Nvme.apply state record).skeletons := by
  cases record with
  | topicDelete name =>
    intro tp skeleton hsk
    exact h tp skeleton (getElem?_filter_eq_some.1 hsk).1
  | configAlter name changes =>
    simp only [Nvme.apply]
    split <;> exact h
  | txnTerminal t pid e committed aborted =>
    simp only [Nvme.apply]
    generalize state.skeletons = m at h
    induction aborted generalizing m with
    | nil => exact h
    | cons entry aborted ih =>
      exact ih trivial _ (h.alter (f := fun skeleton => { skeleton with
        aborted := pushAborted skeleton.aborted ⟨pid, entry.2.offsetStart, entry.2.offsetEnd⟩ })
        fun _ hle => hle)
  | logStartAdvance tp offset =>
    exact h.alter (f := fun skeleton => { skeleton with logStart := offset }) fun _ _ => hr
  | _ => exact h

theorem Disk.Nonneg.skeletons (h : disk.Nonneg) :
    Skeletons (Recovered.replayed disk).skeletons := by
  have hreplay (seq : Nat) (state : ReplayState) (hstate : Skeletons state.skeletons) :
      Skeletons (replay state (Recovered.walRecords disk seq)).skeletons := by
    have hrecords : ∀ r ∈ Recovered.walRecords disk seq, r.Nonneg := by
      intro r hr
      obtain ⟨entry, hentry, hr⟩ := mem_flatMap.1 hr
      exact h.wals entry.1 entry.2
        (mem_toList_iff_getElem?_eq_some.1 (List.mem_filter.1 hentry).1) r hr
    unfold replay
    generalize Recovered.walRecords disk seq = records at hrecords
    induction records generalizing state with
    | nil => exact hstate
    | cons r records ih =>
      exact ih _ (hstate.apply (hrecords r mem_cons_self))
        fun r' hr' => hrecords r' (mem_cons_of_mem _ hr')
  unfold Recovered.replayed
  split
  · exact hreplay 0 _ fun tp skeleton hsk => (by simp at hsk)
  · next doc hdoc =>
    obtain ⟨seq, -, hdoc⟩ := bind_eq_some_iff.1 hdoc
    exact hreplay _ _ (h.snapshots seq doc hdoc)

/-- A partition as recovery leaves it, before it is pinned: it starts at or below the log
start that snapshot and log know. -/
structure PartitionInner.Unpinned (start : Int) (inner : PartitionInner) : Prop where
  handle : inner.handle = 0
  nonneg : 0 ≤ inner.logStart
  known : inner.logStart ≤ start
  room : inner.logStart ≤ inner.nextOffset
  durable : inner.durableOffset = inner.nextOffset
  openTxns : inner.openTxns = ∅

theorem SegmentDir.recovered_unpinned {dir : SegmentDir} {skeleton : Skeleton}
    (hparse : ∀ entry ∈ SegmentDir.frames dir, entry.2.Parses) (h : 0 ≤ skeleton.logStart) :
    (SegmentDir.recovered dir skeleton).Unpinned skeleton.logStart := by
  obtain ⟨-, hstart, hnext, -⟩ := SegmentDir.recovered_spec skeleton hparse
  obtain ⟨batches, next, hfold, -⟩ :=
    foldl_scan { logStart := skeleton.logStart, aborted := skeleton.aborted } hparse rfl
  refine ⟨?_, by omega, by omega, by omega, rfl, ?_⟩
  · simp only [recovered, PartitionInner.advanceLogStart, hfold]
  · simp only [recovered, PartitionInner.advanceLogStart, hfold]

/-- The log start that snapshot and log know. -/
def Disk.logStart (disk : Disk) (tp : Topition) : Int := (disk.skeleton tp).logStart

theorem Disk.Nonneg.logStart (h : disk.Nonneg) (tp : Topition) : 0 ≤ disk.logStart tp := by
  unfold Disk.logStart Disk.skeleton
  cases hsk : (Recovered.replayed disk).skeletons[tp]? with
  | none => exact Int.le_refl 0
  | some skeleton => exact h.skeletons tp skeleton hsk

theorem Disk.unpinned_partitions (hscans : disk.Scans) (h : disk.Nonneg)
    (hp : disk.partitions[tp]? = some inner) : inner.Unpinned (disk.logStart tp) := by
  refine Disk.forall_partitions (P := fun tp inner => inner.Unpinned (disk.logStart tp))
    (fun entry he => ?_) (fun entry he => ?_) (fun tp => ?_) inner hp
  · exact SegmentDir.recovered_unpinned (hscans entry he) (h.logStart entry.1)
  · have hsk := mem_toList_iff_getElem?_eq_some.1 he
    have hstart : disk.logStart entry.1 = entry.2.logStart := by
      rw [Disk.logStart, Disk.skeleton, hsk, getD_some]
    exact ⟨rfl, h.skeletons entry.1 entry.2 hsk, Int.le_of_eq hstart.symm, Int.le_refl _, rfl, rfl⟩
  · exact ⟨rfl, Int.le_refl 0, h.logStart tp, Int.le_refl 0, rfl, rfl⟩

/-! ### Segments in the tier -/

namespace Recovered

/-- Sidecars add batches and move the next offset up. -/
theorem foldl_indexRemote (entries : List (Int × SidecarEntry)) (inner : PartitionInner) :
    (entries.foldl indexRemote inner).handle = inner.handle ∧
      (entries.foldl indexRemote inner).openTxns = inner.openTxns ∧
      inner.nextOffset ≤ (entries.foldl indexRemote inner).nextOffset := by
  induction entries generalizing inner with
  | nil => exact ⟨rfl, rfl, Int.le_refl _⟩
  | cons entry entries ih =>
    have hsame := inner.index_sameLog entry.2.offset (entry.2.batchEntry entry.1) 0
    obtain ⟨hhandle, hopen, hnext⟩ := ih (indexRemote inner entry)
    refine ⟨hhandle.trans hsame.handle, hopen.trans hsame.openTxns, Int.le_trans ?_ hnext⟩
    show inner.nextOffset ≤ max (inner.index entry.2.offset
      (entry.2.batchEntry entry.1) 0).nextOffset (entry.2.offsetEnd + 1)
    rw [hsame.nextOffset]
    exact Int.le_max_left _ _

theorem withRemote_unpinned {start : Int} (h : inner.Unpinned start)
    (entries : List (Int × SidecarEntry)) : (withRemote inner entries).Unpinned start := by
  obtain ⟨hhandle, hopen, hnext⟩ := foldl_indexRemote entries inner
  have hnonneg := h.nonneg
  have hknown := h.known
  have hroom := h.room
  obtain ⟨hlow, hhigh⟩ := PartitionInner.clamp_bounds (o := inner.logStart)
    (show 0 ≤ (entries.foldl indexRemote inner).nextOffset by omega)
  refine ⟨hhandle.trans h.handle, hlow, Int.le_trans hhigh ?_, Int.le_trans hhigh ?_, rfl,
    hopen.trans h.openTxns⟩
  · omega
  · show _ ≤ (entries.foldl indexRemote inner).nextOffset
    omega

theorem foldl_addRemote_unpinned {start : Topition → Int} {dirs : BTreeMap Topition SegmentDir}
    (tps : List Topition) {acc : BTreeMap Topition PartitionInner × CoordState}
    (h : ∀ (tp : Topition) (inner : PartitionInner), acc.1[tp]? = some inner →
      inner.Unpinned (start tp)) :
    ∀ (tp : Topition) (inner : PartitionInner),
      (tps.foldl (addRemote remote dirs) acc).1[tp]? = some inner → inner.Unpinned (start tp) := by
  induction tps generalizing acc with
  | nil => exact h
  | cons tp tps ih =>
    refine ih fun tp' inner hp => ?_
    unfold addRemote at hp
    split at hp
    · next sidecars old _ hold =>
      split at hp
      · exact h tp' inner hp
      · simp only [getElem?_insert_eq] at hp
        split at hp
        · next heq =>
          cases hp
          exact heq ▸ withRemote_unpinned (h tp old hold) _
        · exact h tp' inner hp
    · exact h tp' inner hp

/-- A pin is the start of a range that an open transaction produced. -/
theorem addPins_pin {coord : CoordState} {m : BTreeMap Topition PartitionInner} {key : OpenTxnKey}
    {o : Int} (h : (addPins coord m)[tp]? = some inner) (hpin : inner.openTxns[key]? = some o)
    (hm : ∀ inner : PartitionInner, m[tp]? = some inner → inner.openTxns[key]? ≠ some o) :
    ∃ entry ∈ openRanges coord, entry.2.1 = tp ∧ entry.2.2.offsetStart = o := by
  unfold addPins at h
  generalize openRanges coord = l at h
  induction l generalizing m with
  | nil => exact absurd hpin (hm inner h)
  | cons entry l ih =>
    by_cases hentry : entry.2.1 = tp ∧ entry.2.2.offsetStart = o
    · exact ⟨entry, mem_cons_self, hentry⟩
    · refine (ih (fun inner' hp => ?_) h).imp fun entry' hfound =>
        ⟨mem_cons_of_mem _ hfound.1, hfound.2⟩
      rw [BTreeMap.getElem?_modify_eq] at hp
      split at hp
      · next htp =>
        obtain ⟨old, hold, rfl⟩ := map_eq_some_iff.1 hp
        intro hpin'
        rw [getElem?_insert_eq] at hpin'
        split at hpin'
        · exact hentry ⟨htp, Option.some.inj hpin'⟩
        · exact hm old hold hpin'
      · exact hm inner' hp

end Recovered

/-! ### Ranges of open transactions -/

/-- A transaction of the producer has begun in the epoch. -/
def CoordState.begun (s : CoordState) (pid epoch : Int) : Bool :=
  s.transactions.values.any fun txn => decide (txn.producer = pid) &&
    (txn.epochs[epoch]?).any fun detail => decide (detail.state = some .begin)

/-- A data batch of a transaction. -/
def SegmentFrame.isTransactional (f : SegmentFrame) : Bool :=
  match BatchAttribute.tryFrom f.batch.attributes with
  | .ok attributes => attributes.transaction && !attributes.control
  | .error _ => false

/-- What boot takes for a part of an open transaction lies at or above the log start that
snapshot and log know: the ranges they recorded, and every transactional batch, in a segment
file or in a sidecar of the tier, whose producer has begun a transaction in its epoch. -/
def Disk.startsAbove (disk : Disk) (remote : Remote) : Bool :=
  let coord := (Recovered.replayed disk).coord
  (Recovered.openRanges coord).all (fun entry =>
    decide (disk.logStart entry.2.1 ≤ entry.2.2.offsetStart)) &&
  disk.dirs.toList.all (fun entry => (SegmentDir.frames entry.2).all fun f =>
    f.2.isTransactional && coord.begun f.2.batch.producerId f.2.batch.producerEpoch →
      disk.logStart entry.1 ≤ f.2.baseOffset) &&
  remote.toList.all fun entry => entry.2.toList.all fun segment => segment.2.all fun batch =>
    batch.isTransactional && !batch.isControl &&
        coord.begun batch.producerId batch.producerEpoch →
      disk.logStart entry.1 ≤ batch.offset

namespace CoordState

/-- The ranges of open transactions start at or above `start`, and no transaction has begun
but those that `begun` names. -/
structure Above (start : Topition → Int) (begun : Int → Int → Bool) (s : CoordState) : Prop where
  begun : ∀ t pid epoch detail, s.producer? t = some pid → s.detail? t epoch = some detail →
    detail.state = some .begin → begun pid epoch = true
  ranges : ∀ t epoch detail tp range, s.detail? t epoch = some detail → detail.isOpen = true →
    detail.range? tp = some range → start tp ≤ range.offsetStart

variable {start : Topition → Int} {begun : Int → Int → Bool} {coord coord' : CoordState}
  {pid epoch offset offsetEnd : Int}

theorem Above.congr (h : coord.Above start begun)
    (heq : coord'.transactions = coord.transactions) : coord'.Above start begun := by
  obtain ⟨hbegun, hranges⟩ := h
  constructor
  · simpa only [producer?, detail?, heq] using hbegun
  · simpa only [detail?, heq] using hranges

theorem producer?_of_txnByProducer {t : String} (h : coord.txnByProducer pid = some t) :
    coord.producer? t = some pid := by
  obtain ⟨entry, hlast, rfl⟩ := map_eq_some_iff.1 h
  obtain ⟨hmem, hpid⟩ := List.mem_filter.1 (mem_of_getLast? hlast)
  rw [producer?, mem_toList_iff_getElem?_eq_some.1 hmem, map_some, of_decide_eq_true hpid]

theorem range?_mergeRange {detail : TxnDetail} {tp' : Topition} {range : TxnProduceOffset}
    (h : (detail.mergeRange tp offset offsetEnd).range? tp' = some range) :
    (tp = tp' ∧ offset = range.offsetStart) ∨
      ∃ old, detail.range? tp' = some old ∧ (old.offsetStart = range.offsetStart ∨
        tp = tp' ∧ range.offsetStart = min old.offsetStart offset) := by
  simp only [TxnDetail.range?, TxnDetail.mergeRange, getElem?_alter_eq] at h ⊢
  split at h
  · next htp =>
    cases hold : detail.produces[tp']? with
    | none =>
      simp only [hold, join_some, Option.some.injEq] at h
      exact .inl ⟨htp, congrArg TxnProduceOffset.offsetStart h⟩
    | some old =>
      cases old with
      | none =>
        simp only [hold, join_some, Option.some.injEq] at h
        exact .inl ⟨htp, congrArg TxnProduceOffset.offsetStart h⟩
      | some old =>
        simp only [hold, join_some, Option.some.injEq] at h
        exact .inr ⟨old, rfl, .inr ⟨htp, (congrArg TxnProduceOffset.offsetStart h).symm⟩⟩
  · exact .inr ⟨range, h, .inl rfl⟩

/-- A batch of a transaction that has begun widens its range downwards at most to the
batch. -/
theorem Above.rebuildRange (h : coord.Above start begun)
    (hoffset : begun pid epoch = true → start tp ≤ offset) :
    (coord.rebuildRange tp pid epoch offset offsetEnd).Above start begun := by
  unfold CoordState.rebuildRange
  split
  · exact h
  · next t ht =>
    split
    · exact h
    · next detail hdetail =>
      split
      · next hstate =>
        have habove := hoffset (h.begun t pid epoch detail (producer?_of_txnByProducer ht) hdetail
          hstate)
        constructor
        · intro t' pid' epoch' detail' hpid' hdetail' hstate'
          rw [producer?_modifyDetail] at hpid'
          rw [detail?_modifyDetail] at hdetail'
          split at hdetail'
          · obtain ⟨old, hold, rfl⟩ := map_eq_some_iff.1 hdetail'
            exact h.begun t' pid' epoch' old hpid' hold hstate'
          · exact h.begun t' pid' epoch' detail' hpid' hdetail' hstate'
        · intro t' epoch' detail' tp' range hdetail' hopen hrange
          rw [detail?_modifyDetail] at hdetail'
          split at hdetail'
          · obtain ⟨old, hold, rfl⟩ := map_eq_some_iff.1 hdetail'
            have hranges := h.ranges t' epoch' old tp'
            rcases range?_mergeRange hrange with ⟨rfl, rfl⟩ | ⟨before, hbefore, hcase⟩
            · exact habove
            · have hle := hranges before hold hopen hbefore
              rcases hcase with heq | ⟨rfl, heq⟩ <;> omega
          · exact h.ranges t' epoch' detail' tp' range hdetail' hopen hrange
      · exact h

theorem Above.scan (h : coord.Above start begun) {entry : Int × SegmentFrame}
    (hentry : entry.2.isTransactional = true →
      begun entry.2.batch.producerId entry.2.batch.producerEpoch = true →
        start tp ≤ entry.2.baseOffset) : (coord.scan tp entry).Above start begun := by
  unfold CoordState.scan
  unfold SegmentFrame.isTransactional at hentry
  split
  · exact h
  · next attributes hattributes =>
    have hsequence : (coord.scanSequence tp entry.2.batch).Above start begun := by
      refine h.congr ?_
      unfold scanSequence
      split <;> rfl
    rw [hattributes] at hentry
    unfold scanRange
    split
    · next hdata => exact hsequence.rebuildRange (hentry hdata)
    · exact hsequence

theorem Above.sidecar (h : coord.Above start begun) {entry : SidecarEntry}
    (hentry : (entry.isTransactional && !entry.isControl) = true →
      begun entry.producerId entry.producerEpoch = true → start tp ≤ entry.offset) :
    (entry.range tp (entry.sequence tp coord)).Above start begun := by
  have hsequence : (entry.sequence tp coord).Above start begun := by
    refine h.congr ?_
    unfold SidecarEntry.sequence
    split <;> rfl
  unfold SidecarEntry.range
  split
  · next hdata => exact hsequence.rebuildRange (hentry hdata)
  · exact hsequence

theorem mem_openRanges {key : OpenTxnKey} {range : TxnProduceOffset} :
    (key, tp, range) ∈ Recovered.openRanges coord ↔ coord.producer? key.1 = some key.2.1 ∧
      ∃ detail, coord.detail? key.1 key.2.2 = some detail ∧ detail.isOpen = true ∧
        detail.range? tp = some range := by
  obtain ⟨t, pid, epoch⟩ := key
  simp only [Recovered.openRanges, mem_flatMap, Prod.exists]
  constructor
  · rintro ⟨t', txn, ht, epoch', detail, he, hmem⟩
    split at hmem
    · next hopen =>
      obtain ⟨⟨tp', range'⟩, hrange, heq⟩ := List.mem_map.1 hmem
      cases heq
      have ht := mem_toList_iff_getElem?_eq_some.1 ht
      have he := mem_toList_iff_getElem?_eq_some.1 he
      exact ⟨by rw [producer?, ht, map_some], detail, by rw [detail?, ht, bind_some, he], hopen,
        TxnDetail.mem_ranges.1 hrange⟩
    · cases hmem
  · rintro ⟨hpid, detail, hdetail, hopen, hrange⟩
    obtain ⟨txn, ht, he⟩ := bind_eq_some_iff.1 hdetail
    rw [producer?, ht, map_some, Option.some.injEq] at hpid
    subst hpid
    refine ⟨t, txn, mem_toList_iff_getElem?_eq_some.2 ht, epoch, detail,
      mem_toList_iff_getElem?_eq_some.2 he, ?_⟩
    rw [show (detail.state.isSome && !detail.isTerminal) = true from hopen, if_pos rfl]
    exact List.mem_map.2 ⟨(tp, range), TxnDetail.mem_ranges.2 hrange, rfl⟩

end CoordState

theorem foldl_addRemote_above {start : Topition → Int} {begun : Int → Int → Bool}
    {dirs : BTreeMap Topition SegmentDir} (tps : List Topition)
    {acc : BTreeMap Topition PartitionInner × CoordState} (h : acc.2.Above start begun)
    (hremote : ∀ (tp : Topition) sidecars, remote[tp]? = some sidecars →
      ∀ entry ∈ sidecars.toList, ∀ batch ∈ entry.2,
        (batch.isTransactional && !batch.isControl) = true →
          begun batch.producerId batch.producerEpoch = true → start tp ≤ batch.offset) :
    (tps.foldl (Recovered.addRemote remote dirs) acc).2.Above start begun := by
  induction tps generalizing acc with
  | nil => exact h
  | cons tp tps ih =>
    refine ih ?_
    unfold Recovered.addRemote
    split
    · next sidecars old hsidecars _ =>
      split
      · exact h
      · refine foldlRecOn _ _ h fun coord hcoord entry hmem => hcoord.sidecar ?_
        obtain ⟨segment, hsegment, hentry⟩ := mem_flatMap.1 hmem
        obtain ⟨batch, hbatch, rfl⟩ := List.mem_map.1 hentry
        exact hremote tp sidecars hsidecars segment (List.mem_filter.1 hsegment).1 batch hbatch
    · exact h

/-- The condition on the disk carries over to what recovery finds. -/
theorem Disk.above_coord (h : disk.startsAbove remote) :
    disk.coord.Above disk.logStart (Recovered.replayed disk).coord.begun := by
  simp only [Disk.startsAbove, Bool.and_eq_true, List.all_eq_true, decide_eq_true_eq] at h
  obtain ⟨⟨hranges, hframes⟩, -⟩ := h
  refine foldlRecOn _ _ ⟨?_, ?_⟩ fun coord hcoord dir hdir => ?_
  · intro t pid epoch detail hpid hdetail hstate
    obtain ⟨txn, ht, he⟩ := bind_eq_some_iff.1 hdetail
    rw [CoordState.producer?, ht, map_some, Option.some.injEq] at hpid
    refine List.any_eq_true.2 ⟨txn, mem_values.2 ⟨t, ht⟩, ?_⟩
    simp [hpid, he, hstate]
  · intro t epoch detail tp range hdetail hopen hrange
    obtain ⟨txn, ht, -⟩ := bind_eq_some_iff.1 hdetail
    exact hranges ((t, txn.producer, epoch), tp, range) (CoordState.mem_openRanges.2
      ⟨by rw [CoordState.producer?, ht, map_some], detail, hdetail, hopen, hrange⟩)
  · refine foldlRecOn _ _ hcoord fun coord hcoord frame hframe => hcoord.scan ?_
    intro hdata hbegun
    exact hframes dir (List.mem_filter.1 hdir).1 frame hframe ⟨hdata, hbegun⟩

theorem recovered_bounds (h : recoverTiered disk remote = .ok r) (hdisk : disk.Nonneg)
    (habove : disk.startsAbove remote) (hp : r.partitions[tp]? = some inner) :
    inner.handle = 0 ∧ inner.Ordered := by
  obtain ⟨hscans, dirs, found, hfound, hcoord, hparts⟩ := partitions_of_recoverTiered h
  rw [hparts] at hp
  obtain ⟨inner₀, openTxns, hp₀, rfl⟩ := addPins_inv found.2 hp
  have hunpinned : inner₀.Unpinned (disk.logStart tp) := by
    rw [hfound] at hp₀
    exact Recovered.foldl_addRemote_unpinned disk.partitions.keys
      (fun _ _ => Disk.unpinned_partitions hscans hdisk) tp inner₀ hp₀
  have hroom := hunpinned.room
  have hdurable := hunpinned.durable
  refine ⟨hunpinned.handle, hunpinned.nonneg, ?_, Int.le_of_eq hdurable, fun key o hpin => ?_⟩
  · show inner₀.logStart ≤ inner₀.durableOffset
    omega
  · obtain ⟨⟨key', tp', range⟩, hmem, rfl, rfl⟩ := Recovered.addPins_pin hp hpin
      fun inner hinner => by
      rw [hp₀] at hinner
      cases hinner
      rw [hunpinned.openTxns]
      simp
    have hranges : found.2.Above disk.logStart (Recovered.replayed disk).coord.begun := by
      rw [hfound]
      refine foldl_addRemote_above _ (Disk.above_coord habove)
        fun tp sidecars hsidecars entry he batch hbatch => ?_
      simp only [Disk.startsAbove, Bool.and_eq_true, List.all_eq_true, decide_eq_true_eq] at habove
      intro hdata hbegun
      exact habove.2 (tp, sidecars) (mem_toList_iff_getElem?_eq_some.2 hsidecars) entry he batch
        hbatch ⟨Bool.and_eq_true_iff.1 hdata, hbegun⟩
    obtain ⟨-, detail, hdetail, hopen, hrange⟩ := CoordState.mem_openRanges.1 hmem
    exact Int.le_trans hunpinned.known
      (hranges.ranges key'.1 key'.2.2 detail tp' range hdetail hopen hrange)

theorem boundsInv_rebooted (h : recoverTiered disk remote = .ok r) (hdisk : disk.Nonneg)
    (habove : disk.startsAbove remote) : BoundsInv (rebooted disk r) := by
  refine ⟨⟨fun tp inner hp => ?_, fun tp inner hp => ?_, fun seq file hf record hrecord => ?_,
    hdisk.snapshots⟩, fun a ha => ?_⟩
  · rw [(recovered_bounds h hdisk habove hp).1]
    exact Nat.one_pos
  · exact (recovered_bounds h hdisk habove hp).2
  · simp only [rebooted, Engine.ofRecovered, getElem?_insert_eq] at hf
    split at hf
    · cases hf
      cases hrecord
    · rw [ExtTreeMap.getElem?_map] at hf
      obtain ⟨records, hrecords, rfl⟩ := map_eq_some_iff.1 hf
      exact hdisk.wals seq records hrecords record hrecord
  · obtain ⟨todo, hmem, ha⟩ := ha
    rw [mem_singleton.1 hmem] at ha
    rcases mem_append.1 ha with ha | ha
    · obtain ⟨entry, -, rfl⟩ := List.mem_map.1 ha
      exact .of_call rfl trivial
    · rw [mem_singleton.1 ha]
      exact .of_call rfl trivial

/-! ## Lives with a tier -/

theorem Bounded.crash (hs : Bounded s) (cut : Cut) : (s.crash cut).Nonneg := by
  refine ⟨fun seq records hf r hr => ?_, hs.snapshots⟩
  simp only [Engine.crash, ExtTreeMap.getElem?_map] at hf
  obtain ⟨file, hfile, rfl⟩ := map_eq_some_iff.1 hf
  exact hs.wals seq file hfile r (file.replayable_subset (mem_of_mem_take hr))

/-- The mirror holds what the engine has written, so it is a disk of this kind. -/
def Mirror.Nonneg (m : Mirror) : Prop := Disk.Nonneg { wals := m.wals, snapshots := m.snapshots }

variable {m m' : Mirror}

theorem Mirror.Nonneg.uploadSnapshot (h : m.Nonneg) (hs : Bounded s) {seq : Nat}
    (hm : m.uploadSnapshot s seq = some m') : m'.Nonneg := by
  obtain ⟨doc, hdoc, rfl⟩ := map_eq_some_iff.1 hm
  refine ⟨h.wals, fun seq' doc' hd => ?_⟩
  simp only [getElem?_insert_eq] at hd
  split at hd
  · cases hd
    exact hs.snapshots seq doc hdoc
  · exact h.snapshots seq' doc' hd

theorem Mirror.Nonneg.mirrorWal (h : m.Nonneg) (hs : Bounded s) {n : Nat}
    (hm : m.mirrorWal s n = some m') : m'.Nonneg := by
  obtain ⟨file, hfile, rfl⟩ := map_eq_some_iff.1 hm
  refine ⟨fun seq records hf r hr => ?_, h.snapshots⟩
  simp only [getElem?_insert_eq] at hf
  split at hf
  · cases hf
    exact hs.wals s.walSeq file hfile r (file.replayable_subset (mem_of_mem_take hr))
  · exact h.wals seq records hf r hr

theorem Mirror.Nonneg.deleteWalsBelow (h : m.Nonneg) (retiredSeq : Nat) :
    (m.deleteWalsBelow retiredSeq).Nonneg :=
  ⟨fun seq records hf => h.wals seq records (getElem?_filter_eq_some.1 hf).1, h.snapshots⟩

theorem Mirror.Nonneg.bootstrap (h : m.Nonneg) (hdisk : disk.Nonneg) :
    (m.bootstrap disk).Nonneg := by
  unfold Mirror.bootstrap
  split
  · split
    · exact hdisk
    · next seq _ =>
      split
      · exact hdisk
      · next doc hdoc =>
        refine ⟨?_, fun seq' doc' hd => ?_⟩
        · refine forall_foldl_insert
            (P := fun _ records => ∀ r ∈ records, WalRecord.Nonneg r) hdisk.wals fun entry he => ?_
          exact h.wals entry.1 entry.2
            (mem_toList_iff_getElem?_eq_some.1 (List.mem_filter.1 he).1)
        · simp only [getElem?_insert_eq] at hd
          split at hd
          · cases hd
            exact h.snapshots seq doc hdoc
          · exact hdisk.snapshots seq' doc' hd
  · exact hdisk

/-- What a life with a tier has to meet: batches count at least no offsets, deletion and
retention respect the open transactions, and a boot finds nothing of an open transaction
below the log start. -/
def TierEvent.orderly (w : TieredWorld) : TierEvent → Bool
  | .step l => stepsOrderly w.world l
  | .restart cut remote => (w.disk cut).startsAbove remote
  | _ => true

/-- An empty directory and an empty tier. -/
def tieredOpened : TieredWorld := ⟨opened, {}⟩

def TieredInv (w : TieredWorld) : Prop := BoundsInv w.world ∧ w.mirror.Nonneg

theorem TieredInv.step {w w' : TieredWorld} {ev : TierEvent} (hi : TieredInv w)
    (hok : ev.orderly w) (h : (tieredLives cfg).step w ev = some w') : TieredInv w' := by
  obtain ⟨hworld, hmirror⟩ := hi
  cases ev with
  | step l =>
    obtain ⟨world, hstep, rfl⟩ := map_eq_some_iff.1 h
    exact ⟨hworld.step hok hstep, hmirror⟩
  | evict tp base =>
    obtain ⟨s, hs, rfl⟩ := map_eq_some_iff.1 h
    exact ⟨hworld.evict hs, hmirror⟩
  | uploadSnapshot seq =>
    obtain ⟨m, hm, rfl⟩ := map_eq_some_iff.1 h
    exact ⟨hworld, hmirror.uploadSnapshot hworld.1 hm⟩
  | mirrorWal n =>
    obtain ⟨m, hm, rfl⟩ := map_eq_some_iff.1 h
    exact ⟨hworld, hmirror.mirrorWal hworld.1 hm⟩
  | deleteWalsBelow seq =>
    cases h
    exact ⟨hworld, hmirror.deleteWalsBelow seq⟩
  | restart cut remote =>
    have hdisk : (w.disk cut).Nonneg := by
      refine hmirror.bootstrap ?_
      cases cut with
      | none => exact ⟨fun _ _ hf => (by simp at hf), fun _ _ hd => (by simp at hd)⟩
      | some cut => exact hworld.1.crash cut
    simp only [tieredLives] at h
    split at h
    · next r hr =>
      cases h
      exact ⟨boundsInv_rebooted hr hdisk hok, hmirror⟩
    · cases h

theorem tieredInv_opened : TieredInv tieredOpened :=
  ⟨boundsInv_opened, fun _ _ hf => (by simp [tieredOpened] at hf),
    fun _ _ hd => (by simp [tieredOpened] at hd)⟩

namespace Bounds

def p : Topition := ⟨"p", 0⟩

/-- A plain batch of one record. -/
def plainBatch : ProduceCall := ⟨none, p, ⟨0, 0, 0, -1, -1, -1, .client 10⟩⟩

/-- Two segments; the first is evicted, the log is truncated behind it, and the
engine boots again with the sidecar of that segment in the tier. -/
def evictedRun : List TierEvent :=
  (List.flatten [
    [.spawn (.createTopic ⟨"p", 1, 1, none⟩)], Schedule.rounds [p] 0 4,
    [.spawn (.produce plainBatch)], Schedule.rounds [p] 1 4,
    [.spawn (.produce plainBatch), .run 2 {}, .run 2 {}, .run 2 {},
      .env (.syncSegment p 1 100000), .run 2 {}]]).map .step ++
  [.evict p 0] ++
  ((.spawn (.deleteRecords [(p, 1)]) :: Schedule.rounds [p] 3 4).map .step) ++
  [.restart (some {}) ((∅ : Remote).insert p ((∅ : BTreeMap Int _).insert 0
    [⟨0, 0, 100, 0, 0, false, false, -1, -1, -1⟩]))]

/-- The offsets of the partition: log start, last stable, high watermark, next. -/
def offsets (w : TieredWorld) : Option (Int × Int × Int × Int) :=
  (w.world.shared.partitions[p]?).map fun inner =>
    (inner.logStart, inner.lastStable, inner.highWatermark, inner.nextOffset)

/-- A transaction has produced the batch at offset 0 and is open. -/
def openRun : List EngineLabel :=
  List.flatten [
    [.spawn (.createTopic ⟨"p", 1, 1, none⟩)], Schedule.rounds [p] 0 4,
    [Schedule.register "a"], Schedule.rounds [p] 1 3,
    [.spawn (.txnAddPartitions "a" 1 0 [p])], Schedule.rounds [p] 2 3,
    [.spawn (.produce (Schedule.data p "a" 1 0 0))], Schedule.rounds [p] 3 5]

/-- All records up to the high watermark are deleted. -/
def truncate (i : Nat) : List EngineLabel :=
  .spawn (.deleteRecords [(p, -1)]) :: Schedule.rounds [p] i 4

/-- The transaction commits, the log is truncated behind it, and the producer opens
another transaction in the same epoch. -/
def againRun : List EngineLabel :=
  List.flatten [
    openRun, [.spawn (.txnEnd ⟨"a", 1, 0, true⟩)], Schedule.rounds [p] 4 14, truncate 5,
    [.spawn (.txnAddPartitions "a" 1 0 [p])], Schedule.rounds [p] 6 3,
    [.spawn (.produce (Schedule.data p "a" 1 0 1))], Schedule.rounds [p] 7 5]

/-- A batch that counts one offset, then one that counts minus one. -/
def backRun : List EngineLabel :=
  List.flatten [
    [.spawn (.produce plainBatch)], Schedule.rounds [p] 0 4,
    [.spawn (.produce ⟨none, p, ⟨0, -2, 0, -1, -1, -1, .client 10⟩⟩)], Schedule.rounds [p] 1 4]

/-- A reader of committed records is answered with a panic. -/
def panics (w : TieredWorld) : Bool :=
  (w.world.shared.partitions[p]?).any fun inner =>
    (inner.listOffsets .readCommitted (.timestamp 0)).isNone

end Bounds

end Tansu.Nvme

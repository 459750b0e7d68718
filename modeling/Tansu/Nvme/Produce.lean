import Tansu.Nvme.Engine

/-!
# Produce

`Engine::produce` and `Engine::produce_marker`, section by section: the
disk-budget guard, the coordination check, the append under the partition's
lock, the high watermark once the group commit has acknowledged the append, and
the record of a transactional batch in its transaction's range.
-/

namespace Tansu.Nvme

open Std Tansu.Lib BTreeMap

/-- The end marker: a control batch of the transaction. -/
def markerBatch (producerId : Int) (producerEpoch : Int) (committed : Bool)
    (now : Int) : Batch :=
  { attributes := 48#16
    lastOffsetDelta := 0
    maxTimestamp := now
    producerId
    producerEpoch
    baseSequence := -1
    recordData := .endTransactionMarker committed }

namespace Engine

/-- The shared state of a partition, created on demand.  The map cannot grow
while a snapshot holds it. -/
def partition (s : Engine) (tp : Topition) : Option (Engine × PartitionInner) :=
  match s.partitions[tp]? with
  | some inner => some (s, inner)
  | none =>
    if s.partitionsLocked then none
    else
      let inner : PartitionInner := { handle := s.nextHandle }
      some ({ s with
        partitions := s.partitions.insert tp inner
        dirs := s.dirs.insertIfNew tp ∅
        nextHandle := s.nextHandle + 1 }, inner)

/-- `SegmentWriter::create`: a new file that must not exist yet. -/
def createSegment (s : Engine) (c : Choice) (tp : Topition) (base : Int) : Option Engine :=
  match s.dirs[tp]? with
  | none => none
  | some dir =>
    if c.fault = some .create ∨ base ∈ dir then none
    else some { s with dirs := s.dirs.insert tp (dir.insert base {}) }

/-- The active segment that an append at `offset` goes to: rotated when there is
none or when it has reached the size threshold. -/
def activeSegment (cfg : Config) (s : Engine) (c : Choice) (tp : Topition)
    (writer : Option SegmentWriter) (offset : Int) : Option (Engine × SegmentWriter) :=
  match writer with
  | some writer =>
    if cfg.segmentBytes ≤ writer.position then
      (s.createSegment c tp offset).map (·, ⟨offset, 0⟩)
    else some (s, writer)
  | none => (s.createSegment c tp offset).map (·, ⟨offset, 0⟩)

def appendFrame (s : Engine) (tp : Topition) (base offset : Int) (batch : Batch) : Engine :=
  { s with
    dirs := s.dirs.modify tp fun dir => dir.modify base (·.append offset batch)
    diskUsage := s.diskUsage + batch.framedLen }

/-- A write of `len` bytes failed before its last one. -/
def tearSegment (s : Engine) (c : Choice) (tp : Topition) (base : Int) (len : Nat) : Engine :=
  { s with dirs := s.dirs.modify tp fun dir => dir.modify base (·.tear (min c.kept (len - 1))) }

def setPartition (s : Engine) (tp : Topition) (inner : PartitionInner) : Engine :=
  { s with partitions := s.partitions.insert tp inner }

/-- The group commit of a segment has reached `upTo`.  A file that was unlinked
meanwhile is still synced through its open handle. -/
def segmentSynced (s : Engine) (tp : Topition) (base : Int) (upTo : Nat) : Bool :=
  match s.dirs[tp]?.bind (·[base]?) with
  | none => true
  | some file => decide (upTo ≤ file.synced)

end Engine

namespace Produce

/-- The transaction of a transactional data batch pins the last stable offset. -/
def pinKey (call : ProduceCall) (attributes : BatchAttribute) : Option OpenTxnKey :=
  match call.transactionId with
  | some t =>
    if attributes.transaction && !attributes.control then
      some (t, call.batch.producerId, call.batch.producerEpoch)
    else none
  | none => none

/-- The transaction whose range a transactional batch is recorded in. -/
def recordedIn (call : ProduceCall) (attributes : BatchAttribute) : Option String :=
  if attributes.transaction then call.transactionId else none

def guard (cfg : Config) (s : Engine) (call : ProduceCall) : Step :=
  match BatchAttribute.tryFrom call.batch.attributes with
  | .error e => .err s e
  | .ok attributes =>
    if 0 < cfg.diskBudgetBytes ∧ cfg.diskBudgetBytes ≤ s.diskUsage then
      .err s (.api .kafkaStorageError)
    else .ok s [.produce (.check call attributes)]

/-- A transactional data batch for an epoch that is known and not open. -/
def notOpen (coord : CoordState) (call : ProduceCall) (attributes : BatchAttribute) : Bool :=
  match pinKey call attributes with
  | none => false
  | some (t, _, e) => (coord.detail? t e).any (·.state ≠ some .begin)

/-- The sequence of an idempotent batch is validated. -/
def sequenced (coord : CoordState) (call : ProduceCall) : CoordState × Except Error Unit :=
  let batch := call.batch
  if batch.isIdempotent then
    coord.validateSequence batch.producerId batch.producerEpoch batch.baseSequence
      batch.lastOffsetDelta call.topition
  else (coord, .ok ())

def check (s : Engine) (call : ProduceCall) (attributes : BatchAttribute) : Step :=
  let (coord, verdict) := sequenced s.coord call
  match verdict with
  | .error e => .err { s with coord } e
  | .ok () =>
    if notOpen coord call attributes then .err { s with coord } (.api .invalidTxnState)
    else .ok { s with coord } [.produce (.append call attributes)]

/-- Index the appended batch, and pin the last stable offset below it if it is
the first data batch of its transaction here. -/
def indexed (cfg : Config) (call : ProduceCall) (attributes : BatchAttribute)
    (inner : PartitionInner) (writer : SegmentWriter) (offset : Int) : PartitionInner :=
  let batch := call.batch
  let frame : SegmentFrame := ⟨offset, writer.position, batch⟩
  let inner := inner.index offset (frame.entry writer.baseOffset attributes (some batch.size))
    cfg.tailCacheBytes
  { inner with
    writer := some { writer with position := writer.position + batch.framedLen }
    openTxns := match pinKey call attributes with
      | none => inner.openTxns
      | some key => inner.openTxns.insertIfNew key offset }

/-- The append itself, under the partition's lock. -/
def appendTo (cfg : Config) (s : Engine) (c : Choice) (call : ProduceCall)
    (attributes : BatchAttribute) (inner : PartitionInner) : Step :=
  let tp := call.topition
  let offset := inner.nextOffset
  let offsetEnd := offset + call.batch.lastOffsetDelta
  let inner := { inner with nextOffset := offsetEnd + 1 }
  match s.activeSegment cfg c tp inner.writer offset with
  | none => .err (s.setPartition tp { inner with writer := none })
      (.message "nvme segment create")
  | some (s, writer) =>
    let inner := { inner with writer := some writer }
    if c.fault = some .write then
      .err ((s.tearSegment c tp writer.baseOffset call.batch.framedLen).setPartition tp inner)
        (.message "nvme segment append")
    else
      .ok ((s.appendFrame tp writer.baseOffset offset call.batch).setPartition tp
          (indexed cfg call attributes inner writer offset))
        [.produce (.acked call attributes
          ⟨inner.handle, writer.baseOffset, writer.position + call.batch.framedLen, offset,
            offsetEnd⟩)]

/-- The partition is looked up and locked in one section: no deletion of its topic
comes between the two. -/
def append (cfg : Config) (s : Engine) (c : Choice) (call : ProduceCall)
    (attributes : BatchAttribute) : Step :=
  if cfg.schemas ∧ ¬ attributes.control ∧ c.fault = some .validate then
    .err s (.message "schema validation")
  else
    match s.partition call.topition with
    | none => .blocked
    | some (s, inner) => appendTo cfg s c call attributes inner

/-- The high watermark rises to just past an acknowledged batch. -/
def raise (handle : Nat) (offsetEnd : Int) (inner : PartitionInner) : PartitionInner :=
  if inner.handle = handle then
    { inner with durableOffset := max inner.durableOffset (offsetEnd + 1) }
  else inner

def acked (s : Engine) (c : Choice) (call : ProduceCall) (attributes : BatchAttribute)
    (ack : Ack) : Step :=
  let tp := call.topition
  if c.fault = some .fsync then .err s (.message "nvme fdatasync")
  else if s.segmentSynced tp ack.segmentBase ack.endPosition then
    .ok { s with partitions := s.partitions.modify tp (raise ack.handle ack.offsetEnd) }
      (match recordedIn call attributes with
        | none => []
        | some t => [.produce (.record t call attributes ack)])
  else .blocked

def record (s : Engine) (t : String) (call : ProduceCall) (attributes : BatchAttribute)
    (ack : Ack) : Step :=
  match s.coord.recordTxnProduce t call.batch.producerEpoch call.topition ack.offset
      ack.offsetEnd attributes.control with
  | .error e => .err s e
  | .ok coord => .ok { s with coord } []

def exec (cfg : Config) (s : Engine) (c : Choice) : ProduceStep → Step
  | .marker t pid e committed tp =>
    .ok s [.produce (.guard ⟨some t, tp, markerBatch pid e committed c.now⟩)]
  | .guard call => guard cfg s call
  | .check call attributes => check s call attributes
  | .append call attributes => append cfg s c call attributes
  | .acked call attributes ack => acked s c call attributes ack
  | .record t call attributes ack => record s t call attributes ack

end Produce

/-! ## What the sections do -/

namespace Engine

variable {cfg : Config} {c : Choice} {s s₁ : Engine} {tp : Topition} {writer : Option SegmentWriter}
  {offset : Int} {w : SegmentWriter}

theorem partition_eq {inner : PartitionInner} (h : s.partition tp = some (s₁, inner)) :
    (s.partitions[tp]? = some inner ∧ s₁ = s) ∨
      (s.partitions[tp]? = none ∧ inner = { handle := s.nextHandle } ∧
        s₁ = { s with
          partitions := s.partitions.insert tp inner
          dirs := s.dirs.insertIfNew tp ∅
          nextHandle := s.nextHandle + 1 }) := by
  unfold partition at h
  split at h
  · next hp =>
    cases h
    exact .inl ⟨hp, rfl⟩
  · next hp =>
    split at h
    · cases h
    · cases h
      exact .inr ⟨hp, rfl, rfl⟩

theorem createSegment_eq {base : Int} (h : s.createSegment c tp base = some s₁) :
    ∃ dir, s.dirs[tp]? = some dir ∧ base ∉ dir ∧
      s₁ = { s with dirs := s.dirs.insert tp (dir.insert base {}) } := by
  unfold createSegment at h
  split at h
  · cases h
  · next dir hd =>
    split at h
    · cases h
    · next hc =>
      cases h
      exact ⟨dir, hd, fun hb => hc (.inr hb), rfl⟩

/-- An append goes to the writer it finds, or to a segment it has just created. -/
theorem activeSegment_eq (h : s.activeSegment cfg c tp writer offset = some (s₁, w)) :
    (writer = some w ∧ s₁ = s) ∨
      (w = ⟨offset, 0⟩ ∧ (∀ old, writer = some old → cfg.segmentBytes ≤ old.position) ∧
        ∃ dir, s.dirs[tp]? = some dir ∧ offset ∉ dir ∧
          s₁ = { s with dirs := s.dirs.insert tp (dir.insert offset {}) }) := by
  unfold activeSegment at h
  split at h
  · next old =>
    split at h
    · next hfull =>
      obtain ⟨s', hs', heq⟩ := Option.map_eq_some_iff.1 h
      cases heq
      exact .inr ⟨rfl, fun old' ho => by cases ho; exact hfull, createSegment_eq hs'⟩
    · cases h
      exact .inl ⟨rfl, rfl⟩
  · obtain ⟨s', hs', heq⟩ := Option.map_eq_some_iff.1 h
    cases heq
    exact .inr ⟨rfl, nofun, createSegment_eq hs'⟩

/-- No segment to append to: the one that was there is full. -/
theorem activeSegment_none (h : s.activeSegment cfg c tp writer offset = none)
    (hw : writer = some w) : cfg.segmentBytes ≤ w.position := by
  subst hw
  by_contra hlt
  simp [activeSegment, hlt] at h

end Engine

namespace Produce

variable {cfg : Config} {c : Choice} {s s' : Engine} {call : ProduceCall}
  {attributes : BatchAttribute} {ack : Ack} {next : List Action} {e : Error} {s₁ : Engine}
  {t : String}

theorem guard_ok (h : guard cfg s call = .ok s' next) :
    s' = s ∧ ∃ attributes, BatchAttribute.tryFrom call.batch.attributes = .ok attributes ∧
      next = [.produce (.check call attributes)] := by
  unfold guard at h
  split at h
  · cases h
  · next attributes ha =>
    split at h
    · cases h
    · cases h
      exact ⟨rfl, attributes, ha, rfl⟩

theorem guard_err (h : guard cfg s call = .err s' e) : s' = s := by
  unfold guard at h
  split at h
  · cases h; rfl
  · split at h <;> cases h
    rfl

section Indexed

variable (cfg call attributes) (inner : PartitionInner) (w : SegmentWriter) (offset o : Int)

@[simp] theorem indexed_writer : (indexed cfg call attributes inner w offset).writer =
    some { w with position := w.position + call.batch.framedLen } := rfl

@[simp] theorem indexed_handle :
    (indexed cfg call attributes inner w offset).handle = inner.handle :=
  (inner.index_sameLog offset _ _).handle

@[simp] theorem indexed_nextOffset :
    (indexed cfg call attributes inner w offset).nextOffset = inner.nextOffset :=
  (inner.index_sameLog offset _ _).nextOffset

@[simp] theorem indexed_durableOffset :
    (indexed cfg call attributes inner w offset).durableOffset = inner.durableOffset :=
  (inner.index_sameLog offset _ _).durableOffset

@[simp] theorem indexed_aborted :
    (indexed cfg call attributes inner w offset).aborted = inner.aborted :=
  (inner.index_sameLog offset _ _).aborted

theorem indexed_openTxns : (indexed cfg call attributes inner w offset).openTxns =
    match pinKey call attributes with
    | none => inner.openTxns
    | some key => inner.openTxns.insertIfNew key offset := by
  simp only [indexed, (inner.index_sameLog offset _ _).openTxns]

theorem indexed_batches :
    ((indexed cfg call attributes inner w offset).batches[o]?).map BatchEntry.stored =
      if offset = o then
        some ((⟨offset, w.position, call.batch⟩ : SegmentFrame).entry w.baseOffset attributes none)
      else (inner.batches[o]?).map BatchEntry.stored :=
  inner.index_batches offset o _ _

end Indexed

/-- The number of a batch once it is appended. -/
def endOffset (inner : PartitionInner) (call : ProduceCall) : Int :=
  inner.nextOffset + call.batch.lastOffsetDelta

theorem append_ok (h : append cfg s c call attributes = .ok s' next) :
    ∃ s₁ s₂ inner w, s.partition call.topition = some (s₁, inner) ∧
      s₁.activeSegment cfg c call.topition inner.writer inner.nextOffset = some (s₂, w) ∧
      s' = (s₂.appendFrame call.topition w.baseOffset inner.nextOffset call.batch).setPartition
        call.topition (indexed cfg call attributes
          { inner with nextOffset := endOffset inner call + 1, writer := some w } w
            inner.nextOffset) ∧
      next = [.produce (.acked call attributes
        ⟨inner.handle, w.baseOffset, w.position + call.batch.framedLen, inner.nextOffset,
          endOffset inner call⟩)] := by
  unfold append at h
  split at h
  · cases h
  · split at h
    · cases h
    · next s₁ inner hp =>
      unfold appendTo at h
      simp only at h
      split at h
      · cases h
      · next s₂ w ha =>
        split at h
        · cases h
        · cases h
          exact ⟨s₁, s₂, inner, w, hp, ha, rfl, rfl⟩

/-- A failed append adds no frame but may have used up an offset, may have sealed the
active segment or created the next one, and may leave a torn frame in it. -/
theorem append_err (h : append cfg s c call attributes = .err s' e) :
    s' = s ∨ ∃ s₁ inner, s.partition call.topition = some (s₁, inner) ∧
      (s₁.activeSegment cfg c call.topition inner.writer inner.nextOffset = none ∧
          s' = s₁.setPartition call.topition
            { inner with nextOffset := endOffset inner call + 1, writer := none } ∨
        ∃ s₂ w, s₁.activeSegment cfg c call.topition inner.writer inner.nextOffset =
            some (s₂, w) ∧
          s' = (s₂.tearSegment c call.topition w.baseOffset call.batch.framedLen).setPartition
            call.topition
            { inner with nextOffset := endOffset inner call + 1, writer := some w }) := by
  unfold append at h
  split at h
  · cases h
    exact .inl rfl
  · split at h
    · cases h
    · next s₁ inner hp =>
      unfold appendTo at h
      simp only at h
      split at h
      · next ha =>
        cases h
        exact .inr ⟨s₁, inner, hp, .inl ⟨ha, rfl⟩⟩
      · next s₂ w ha =>
        split at h
        · cases h
          exact .inr ⟨s₁, inner, hp, .inr ⟨s₂, w, ha, rfl⟩⟩
        · cases h

/-- The partition that an append finds or creates. -/
def target (s : Engine) (call : ProduceCall) : PartitionInner :=
  s.partitions[call.topition]?.getD { handle := s.nextHandle }

theorem partition_target {inner : PartitionInner}
    (h : s.partition call.topition = some (s₁, inner)) : inner = target s call ∧
      ∃ partitions dirs nextHandle, s₁ = { s with partitions, dirs, nextHandle } ∧
        ∀ tp, call.topition ≠ tp → partitions[tp]? = s.partitions[tp]? := by
  rcases Engine.partition_eq h with ⟨hp, rfl⟩ | ⟨hp, hinner, rfl⟩
  · exact ⟨by simp [target, hp], _, _, _, rfl, fun _ _ => rfl⟩
  · refine ⟨by simp [target, hp, hinner], _, _, _, rfl, fun tp hne => ?_⟩
    rw [getElem?_insert_eq, if_neg hne]

theorem activeSegment_dirs {tp : Topition} {writer : Option SegmentWriter} {offset : Int}
    {w : SegmentWriter} (h : s.activeSegment cfg c tp writer offset = some (s₁, w)) :
    ∃ dirs, s₁ = { s with dirs } := by
  rcases Engine.activeSegment_eq h with ⟨-, rfl⟩ | ⟨-, -, dir, -, -, rfl⟩
  · exact ⟨_, rfl⟩
  · exact ⟨_, rfl⟩

/-- What an append does to the partitions: its own gets one more batch. -/
theorem append_ok_partitions (h : append cfg s c call attributes = .ok s' next) :
    ∃ partitions dirs diskUsage nextHandle w,
      s' = { s with partitions, dirs, diskUsage, nextHandle } ∧
      (∀ tp, s'.partitions[tp]? = if call.topition = tp then
          some (indexed cfg call attributes
            { target s call with
              nextOffset := endOffset (target s call) call + 1
              writer := some w } w (target s call).nextOffset)
        else s.partitions[tp]?) ∧
      next = [.produce (.acked call attributes
        ⟨(target s call).handle, w.baseOffset, w.position + call.batch.framedLen,
          (target s call).nextOffset, endOffset (target s call) call⟩)] := by
  obtain ⟨s₁, s₂, inner, w, hp, ha, rfl, rfl⟩ := append_ok h
  obtain ⟨rfl, partitions, dirs, nextHandle, rfl, hother⟩ := partition_target hp
  obtain ⟨dirs', rfl⟩ := activeSegment_dirs ha
  refine ⟨_, _, _, _, w, rfl, fun tp => ?_, rfl⟩
  simp only [Engine.setPartition, getElem?_insert_eq]
  split
  · rfl
  · next hne => exact hother tp hne

theorem append_err_partitions (h : append cfg s c call attributes = .err s' e) :
    s' = s ∨ ∃ partitions dirs nextHandle writer, s' = { s with partitions, dirs, nextHandle } ∧
      ∀ tp, partitions[tp]? = if call.topition = tp then
          some { target s call with
            nextOffset := endOffset (target s call) call + 1
            writer }
        else s.partitions[tp]? := by
  rcases append_err h with rfl | ⟨s₁, inner, hp, hcase⟩
  · exact .inl rfl
  · obtain ⟨rfl, partitions, dirs, nextHandle, rfl, hother⟩ := partition_target hp
    right
    rcases hcase with ⟨-, rfl⟩ | ⟨s₂, w, ha, rfl⟩
    · refine ⟨_, _, _, none, rfl, fun tp => ?_⟩
      rw [getElem?_insert_eq]
      split
      · rfl
      · next hne => exact hother tp hne
    · obtain ⟨dirs', rfl⟩ := activeSegment_dirs ha
      refine ⟨_, _, _, some w, rfl, fun tp => ?_⟩
      rw [getElem?_insert_eq]
      split
      · rfl
      · next hne => exact hother tp hne

theorem sequenced_fst (coord : CoordState) (call : ProduceCall) :
    ∃ producers, (sequenced coord call).1 = { coord with producers } := by
  unfold sequenced
  simp only
  split
  · exact coord.validateSequence_fst ..
  · exact ⟨coord.producers, rfl⟩

/-- The check changes nothing but sequence numbers, and lets no data batch of a
known transaction through unless it is open. -/
theorem check_ok (h : check s call attributes = .ok s' next) :
    ∃ producers, s' = { s with coord := { s.coord with producers } } ∧
      notOpen s.coord call attributes = false ∧ next = [.produce (.append call attributes)] := by
  obtain ⟨producers, hfst⟩ := sequenced_fst s.coord call
  unfold check at h
  simp only [hfst] at h
  split at h
  · cases h
  · split at h
    · cases h
    · next hopen =>
      cases h
      exact ⟨producers, rfl, Bool.eq_false_iff.2 hopen, rfl⟩

theorem check_err (h : check s call attributes = .err s' e) :
    ∃ producers, s' = { s with coord := { s.coord with producers } } := by
  obtain ⟨producers, hfst⟩ := sequenced_fst s.coord call
  unfold check at h
  simp only [hfst] at h
  split at h
  · cases h
    exact ⟨producers, rfl⟩
  · split at h <;> cases h
    exact ⟨producers, rfl⟩

theorem acked_ok (h : acked s c call attributes ack = .ok s' next) :
    s.segmentSynced call.topition ack.segmentBase ack.endPosition ∧
      s' = { s with partitions :=
        s.partitions.modify call.topition (raise ack.handle ack.offsetEnd) } ∧
      next = match recordedIn call attributes with
        | none => []
        | some t => [.produce (.record t call attributes ack)] := by
  unfold acked at h
  simp only at h
  split at h
  · cases h
  · split at h
    · next hs =>
      cases h
      exact ⟨hs, rfl, rfl⟩
    · cases h

theorem acked_err (h : acked s c call attributes ack = .err s' e) :
    s' = s ∧ c.fault = some .fsync := by
  unfold acked at h
  simp only at h
  split at h
  · next hf =>
    cases h
    exact ⟨rfl, hf⟩
  · split at h <;> cases h

theorem record_ok (h : record s t call attributes ack = .ok s' next) :
    next = [] ∧ ((s.coord.detail? t call.batch.producerEpoch = none ∧ s' = s) ∨
      ∃ d, s.coord.detail? t call.batch.producerEpoch = some d ∧
        (attributes.control = true ∨ d.state = some .begin) ∧
        s' = { s with
          coord := s.coord.modifyDetail t call.batch.producerEpoch
            (·.extend call.topition ack.offset ack.offsetEnd) }) := by
  unfold record CoordState.recordTxnProduce at h
  cases hd : s.coord.detail? t call.batch.producerEpoch with
  | none =>
    simp only [hd] at h
    cases h
    exact ⟨rfl, .inl ⟨rfl, rfl⟩⟩
  | some d =>
    simp only [hd] at h
    by_cases hopen : (!attributes.control && decide (d.state ≠ some .begin)) = true
    · simp only [hopen, if_true] at h
      cases h
    · simp only [hopen] at h
      cases h
      refine ⟨rfl, .inr ⟨d, rfl, ?_, rfl⟩⟩
      by_cases hc : attributes.control = true
      · exact .inl hc
      · exact .inr (by simpa [hc] using hopen)

theorem record_err (h : record s t call attributes ack = .err s' e) :
    s' = s ∧ attributes.control = false ∧
      ∃ d, s.coord.detail? t call.batch.producerEpoch = some d ∧ d.state ≠ some .begin := by
  unfold record CoordState.recordTxnProduce at h
  cases hd : s.coord.detail? t call.batch.producerEpoch with
  | none => simp only [hd] at h; cases h
  | some d =>
    simp only [hd] at h
    by_cases hopen : (!attributes.control && decide (d.state ≠ some .begin)) = true
    · simp only [hopen, if_true] at h
      cases h
      obtain ⟨hc, hb⟩ := Bool.and_eq_true_iff.1 hopen
      exact ⟨rfl, by simpa using hc, d, rfl, by simpa using hb⟩
    · simp only [hopen] at h
      cases h

end Produce

end Tansu.Nvme

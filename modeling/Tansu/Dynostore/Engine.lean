import Tansu.Nvme.Transactions

/-!
# The object store engine

`DynoStore` of `dynostore.rs` at the granularity of its requests to the object
store.  The metadata and the watermark of a partition are `OptiCon` values: a
`with_mut` takes effect at one put (`Dynostore.Linearizable`), and a `with` reads the
stored object at one moment; in a fetch and in `describe_config` that may be an older
version, which the cache of the broker still answers with.  A batch is an object of
its own, named by its base offset.  Every request may fail, without having done anything; a
process that stops is a task that is not run any more.

The producers, transactions and topics of `Meta` are those of `nvme/state.rs`, and
so are the functions on them where the two sources do the same.  The index of
aborted ranges is part of the metadata here.  Timestamps of watermarks, cluster
and broker metadata, consumer groups and the contents of records are left out.
-/

namespace Tansu.Dynostore.Engine

open Std Tansu.Lib
open Tansu.Nvme (Topition Topic Group Batch BatchAttribute CoordState TxnDetail TxnState TxnRef
  TxnEnd TxnCommitOffset TxnProduceOffset OffsetCommitRequest Error ErrorCode ProduceCall
  markerBatch wrapI16)

/-! ## Objects -/

structure AbortedTxnRange where
  producer : Int
  offsetStart : Int
  offsetEnd : Int
deriving DecidableEq

structure Meta where
  coord : CoordState := {}
  aborted : BTreeMap Topition (List AbortedTxnRange) := ∅

structure Watermark where
  low : Option Int := none
  high : Option Int := none
deriving DecidableEq

structure Objects where
  metadata : Meta := {}
  watermarks : BTreeMap Topition Watermark := ∅
  /-- `records/{base offset}.batch` of every partition. -/
  batches : BTreeMap Topition (BTreeMap Int Batch) := ∅
  /-- `offsets/{topic}/partitions/{partition}.json` of every group. -/
  offsets : BTreeMap (Group × Topition) OffsetCommitRequest := ∅

namespace Objects

def log (s : Objects) (tp : Topition) : BTreeMap Int Batch := s.batches[tp]?.getD ∅

def watermark (s : Objects) (tp : Topition) : Watermark := s.watermarks[tp]?.getD {}

/-- `watermark.high.unwrap_or_default()`. -/
def high (s : Objects) (tp : Topition) : Int := (s.watermark tp).high.getD 0

def setCoord (s : Objects) (coord : CoordState) : Objects :=
  { s with metadata := { s.metadata with coord } }

def putBatch (s : Objects) (tp : Topition) (offset : Int) (batch : Batch) : Objects :=
  { s with batches := s.batches.insert tp ((s.log tp).insert offset batch) }

/-- The closure of `produce` on the watermark: room for one batch. -/
def advance (s : Objects) (tp : Topition) (lastOffsetDelta : Int) : Objects :=
  let watermark := { s.watermark tp with high := some (s.high tp + lastOffsetDelta + 1) }
  { s with watermarks := s.watermarks.insert tp watermark }

end Objects

structure Config where
  /-- A schema registry is configured. -/
  schemas : Bool := false
  /-- A lake house is configured. -/
  lake : Bool := false

/-! ## Sections -/

inductive IsolationLevel
  | readUncommitted
  | readCommitted
deriving DecidableEq

structure OffsetStage where
  lastStable : Int
  highWatermark : Int
  logStart : Int
deriving DecidableEq

/-- A client that fetches at its position, again and again.  `delivered` is what it has
been given so far, with the base offsets. -/
structure Consumer where
  topition : Topition
  isolation : IsolationLevel
  start : Int
  position : Int
  delivered : List (Int × Batch) := []

inductive ProduceStep
  /-- `describe_config`, which decides whether the topic only feeds the lake. -/
  | config (call : ProduceCall)
  | sink (call : ProduceCall)
  | sequence (call : ProduceCall)
  | schema (call : ProduceCall)
  | watermark (call : ProduceCall)
  | lake (call : ProduceCall) (offset : Int)
  | record (transactionId : String) (call : ProduceCall) (offset : Int)
  | put (call : ProduceCall) (offset : Int)

inductive TxnStep
  | initProducer (transactionId : Option String) (transactionTimeoutMs : Int)
      (producerId producerEpoch : Option Int)
  | addPartitions (transactionId : String) (producerId producerEpoch : Int)
      (partitions : List Topition)
  | offsetCommit (transactionId : String) (producerId producerEpoch : Int) (group : Group)
      (offsets : List (Topition × TxnCommitOffset))
  /-- The first update of the metadata in `txn_end`. -/
  | prepare (call : TxnEnd)
  /-- The second one, after the markers. -/
  | resolve (call : TxnEnd)
  /-- `maintain_transactions`. -/
  | sweep (now : Int)

/-- `offset_commit`, one partition at a time. -/
inductive OffsetStep
  | topic (group : Group) (tp : Topition) (request : OffsetCommitRequest)
  | put (group : Group) (tp : Topition) (request : OffsetCommitRequest)

/-- `fetch`.  The first two are `offset_stage`. -/
inductive FetchStep
  | stage (k : Consumer)
  | watermark (k : Consumer) (stable : Option Int)
  | list (k : Consumer) (stage : OffsetStage)
  | get (k : Consumer) (stage : OffsetStage) (wanted : List Int) (bytes : Nat)
      (batches : List (Int × Batch))
  | received (k : Consumer) (stage : OffsetStage) (batches : List (Int × Batch))

inductive Section
  | produce (step : ProduceStep)
  | txn (step : TxnStep)
  | offsets (step : OffsetStep)
  | fetch (step : FetchStep)
  /-- The caller ignores the errors of what precedes. -/
  | handler

/-- What the outside world decides when a section runs. -/
structure Choice where
  /-- The request to the store, the registry or the lake house fails. -/
  fault : Bool := false
  now : Int := 0
  /-- The entries of a listing that arrive before the deadline of the fetch. -/
  listed : Int → Bool := fun _ => true
  /-- The deadline of the fetch has expired. -/
  expired : Bool := false
  maxBytes : Nat := 1024 * 1024
  /-- The consumer fetches once more. -/
  again : Bool := false
  /-- The version of the metadata that the broker has cached, if it is not the stored one. -/
  cachedMeta : Option Meta := none
  /-- The same for the watermark that is read. -/
  cachedWatermark : Option Watermark := none

namespace Choice

/-- What is cached of the metadata and of the watermark is the stored version. -/
def current (c : Choice) : Bool := c.cachedMeta.isNone && c.cachedWatermark.isNone

/-- What a `with` of the metadata, or of the watermark of `tp`, reads. -/
def reads (c : Choice) (s : Objects) (tp : Topition) : Objects :=
  { s with
    metadata := c.cachedMeta.getD s.metadata
    watermarks := (c.cachedWatermark.map (s.watermarks.insert tp)).getD s.watermarks }

theorem reads_of_current {c : Choice} (h : c.current = true) (s : Objects) (tp : Topition) :
    c.reads s tp = s := by
  simp only [current, Bool.and_eq_true, Option.isNone_iff_eq_none] at h
  simp only [reads, h.1, h.2, Option.getD_none, Option.map_none]

end Choice

abbrev Step := Outcome Objects Section Error

def failed (s : Objects) : Step := .err s (.message "object store")

/-! ## Produce -/

namespace Produce

/-- `tansu.lake.sink` is set for the topic. -/
def isSink (s : Objects) (topic : Topic) : Bool :=
  match s.metadata.coord.topics[topic]? with
  | none => false
  | some metadata =>
    (metadata.topic.configs.getD []).any fun config =>
      config.1 = "tansu.lake.sink" && config.2 = some "true"

/-- The sections of a produce to a topic that keeps batches. -/
def kept (cfg : Config) (call : ProduceCall) : List Section :=
  (if call.batch.isIdempotent then [.produce (.sequence call)] else []) ++
    (if cfg.schemas then [.produce (.schema call)] else []) ++ [.produce (.watermark call)]

/-- What follows once the batch has its offset. -/
def placed (cfg : Config) (call : ProduceCall) (attributes : BatchAttribute) (offset : Int) :
    List Section :=
  (if cfg.lake && !attributes.control then [.produce (.lake call offset)] else []) ++
    (match call.transactionId with
      | some t => if attributes.transaction then [.produce (.record t call offset)] else []
      | none => []) ++
    [.produce (.put call offset)]

/-- The sequence is compared and moved in one update of the metadata, which is stored
also when the verdict is an error. -/
def sequence (s : Objects) (call : ProduceCall) : Step :=
  let b := call.batch
  let (coord, verdict) := s.metadata.coord.validateSequence b.producerId
    b.producerEpoch b.baseSequence b.lastOffsetDelta call.topition
  match verdict with
  | .error e => .err (s.setCoord coord) e
  | .ok () => .ok (s.setCoord coord) []

/-- The attributes are parsed before the registry validates the records. -/
def schema (s : Objects) (call : ProduceCall) : Step :=
  match BatchAttribute.tryFrom call.batch.attributes with
  | .error e => .err s e
  | .ok _ => .ok s []

/-- The offset is the old high watermark; attributes that do not parse are found out
afterwards. -/
def watermark (cfg : Config) (s : Objects) (call : ProduceCall) : Step :=
  let offset := s.high call.topition
  let s := s.advance call.topition call.batch.lastOffsetDelta
  match BatchAttribute.tryFrom call.batch.attributes with
  | .error e => .err s e
  | .ok attributes => .ok s (placed cfg call attributes offset)

/-- A topic that only feeds the lake takes an offset and stores no batch. -/
def sink (cfg : Config) (s : Objects) (call : ProduceCall) : Step :=
  let offset := s.high call.topition
  let s := s.advance call.topition call.batch.lastOffsetDelta
  if cfg.schemas then
    match BatchAttribute.tryFrom call.batch.attributes with
    | .error e => .err s e
    | .ok attributes =>
      .ok s (if attributes.control then []
        else [.produce (.schema call), .produce (.lake call offset)])
  else .ok s []

/-- A transaction that is not known keeps no range. -/
def record (s : Objects) (t : String) (call : ProduceCall) (offset : Int) : Objects :=
  s.setCoord (s.metadata.coord.modifyDetail t call.batch.producerEpoch
    (·.extend call.topition offset (offset + call.batch.lastOffsetDelta)))

/-- `PutMode::Create`. -/
def put (s : Objects) (call : ProduceCall) (offset : Int) : Step :=
  if offset ∈ s.log call.topition then failed s
  else .ok (s.putBatch call.topition offset call.batch) []

def exec (cfg : Config) (s : Objects) (c : Choice) (step : ProduceStep) : Step :=
  if c.fault then failed s
  else
    match step with
    | .config call =>
      let read := c.reads s call.topition
      .ok s (if cfg.lake && isSink read call.topition.topic then [.produce (.sink call)]
        else kept cfg call)
    | .sink call => sink cfg s call
    | .sequence call => sequence s call
    | .schema call => schema s call
    | .watermark call => watermark cfg s call
    | .lake .. => .ok s []
    | .record t call offset => .ok (record s t call offset) []
    | .put call offset => put s call offset

end Produce

/-! ## Transactions -/

/-- Offsets of consumer groups that wait for the end of `txn_end`. -/
abbrev Staged := BTreeMap (Group × Topition) TxnCommitOffset

namespace Meta

/-- The ranges of a transaction go into the index of aborted ranges. -/
def pushAborted (m : Meta) (producer : Int) (ranges : List (Topition × TxnProduceOffset)) : Meta :=
  { m with aborted := ranges.foldl (fun aborted (tp, range) => aborted.alter tp fun listed =>
      some (listed.getD [] ++ [⟨producer, range.offsetStart, range.offsetEnd⟩])) m.aborted }

def stage (staged : Staged) (offsets : BTreeMap (Group × Topition) TxnCommitOffset) : Staged :=
  offsets.toList.foldl (fun staged entry => staged.insert entry.1 entry.2) staged

/-- One transaction of the resolution.  Its own state decides the terminal state; the
reference's state decides what becomes of its offsets and its ranges. -/
def resolveRef (acc : Meta × Staged) (ref : TxnRef) : Meta × Staged :=
  match acc.1.coord.detail? ref.transaction ref.producerEpoch with
  | none => acc
  | some detail =>
    match CoordState.terminal detail.state with
    | none => acc
    | some state =>
      let staged := if ref.state = .prepareCommit then stage acc.2 detail.offsets else acc.2
      let m := if ref.state = .prepareAbort then
          acc.1.pushAborted ref.producerId detail.ranges.toList
        else acc.1
      ({ m with coord := m.coord.modifyDetail ref.transaction ref.producerEpoch (·.finish state) },
        staged)

/-- The transaction of the call and all those that overlap it. -/
def resolve (m : Meta) (call : TxnEnd) : Meta × Staged :=
  (m.coord.peers call ++ [CoordState.ownRef call]).foldl resolveRef (m, ∅)

/-- The start of the first range on the partition of a transaction that has not ended. -/
def stable (m : Meta) (tp : Topition) : Option Int :=
  (m.coord.transactions.values.flatMap fun txn =>
    (txn.epochs.values.filter fun detail => detail.state.any fun state =>
      !state.isTerminal).filterMap fun detail => (detail.range? tp).map (·.offsetStart)).min?

end Meta

namespace Transactions

def initTransactional (s : Objects) (t : String) (timeout : Int) (pid e : Option Int) : Step :=
  if pid = some (-1) ∧ e = some (-1) then
    match s.metadata.coord.transactions[t]? with
    | none => .ok (s.setCoord (s.metadata.coord.allocate s.metadata.coord.nextProducerId
        (some t) timeout)) []
    | some txn =>
      match BTreeMap.lastKey? txn.epochs with
      -- `todo!()`
      | none => .blocked
      | some current =>
        if (txn.epochs[current]?.bind (·.state)) = some .begin then
          -- the open transaction is rolled back, then the call starts over
          .ok s [.txn (.prepare ⟨t, txn.producer, current, false⟩),
            .txn (.initProducer (some t) timeout pid e)]
        else
          .ok (s.setCoord (s.metadata.coord.bumpEpoch t txn.producer
            (wrapI16 (current + 1)) timeout)) []
  else .ok s []

def initIdempotent (s : Objects) (pid e : Option Int) : Step :=
  if pid = some (-1) ∧ e = some (-1) then
    .ok (s.setCoord (s.metadata.coord.allocate s.metadata.coord.nextProducerId none 0)) []
  else .ok s []

/-- The metadata of a transaction that passes the checks of `txn_add_partitions`,
`txn_offset_commit` and `txn_end`. -/
def modify (s : Objects) (t : String) (e : Int) (f : TxnDetail → TxnDetail) : Objects :=
  s.setCoord (s.metadata.coord.modifyDetail t e f)

def marker (call : TxnEnd) (tp : Topition) : ProduceCall :=
  ⟨some call.transactionId, tp, markerBatch call.producerId call.producerEpoch call.committed 0⟩

/-- A marker for every partition that holds a range of a transaction that is open. -/
def prepare (s : Objects) (call : TxnEnd) : Step :=
  match s.metadata.coord.txnDetail call.transactionId call.producerId call.producerEpoch with
  | .error e => .err s e
  | .ok detail =>
    if detail.state = some .begin then
      .ok (modify s call.transactionId call.producerEpoch (·.prepare call.committed))
        (detail.ranges.keys.map (fun tp => .produce (.config (marker call tp))) ++
          [.txn (.resolve call)])
    else .ok s [.txn (.resolve call)]

def offsetRequest (offset : TxnCommitOffset) : OffsetCommitRequest :=
  { offset := offset.committedOffset
    leaderEpoch := offset.leaderEpoch
    metadata := offset.metadata }

/-- The offsets that the resolution has released are committed one by one. -/
def offsetCommits (staged : Staged) : List Section :=
  staged.toList.map fun entry => .offsets (.topic entry.1.1 entry.1.2 (offsetRequest entry.2))

def resolve (s : Objects) (call : TxnEnd) : Step :=
  match s.metadata.coord.txnDetail call.transactionId call.producerId call.producerEpoch with
  | .error e => .err s e
  | .ok _ =>
    if s.metadata.coord.deferred call then .ok s []
    else .ok { s with metadata := (s.metadata.resolve call).1 }
      (offsetCommits (s.metadata.resolve call).2)

def exec (s : Objects) (c : Choice) (step : TxnStep) : Step :=
  if c.fault then failed s
  else
    match step with
    | .initProducer (some t) timeout pid e => initTransactional s t timeout pid e
    | .initProducer none _ pid e => initIdempotent s pid e
    | .addPartitions t pid e partitions =>
      match s.metadata.coord.txnDetail t pid e with
      | .error _ => .ok s []
      | .ok _ => .ok (modify s t e (·.begin c.now partitions)) []
    | .offsetCommit t pid e group offsets =>
      match s.metadata.coord.txnDetail t pid e with
      | .error _ => .ok s []
      | .ok _ => .ok (modify s t e (·.stage group offsets)) []
    | .prepare call => prepare s call
    | .resolve call => resolve s call
    | .sweep now =>
      .ok s ((s.metadata.coord.expired now).flatMap fun (t, pid, e) =>
        [.txn (.prepare ⟨t, pid, e, false⟩), .handler])

end Transactions

namespace Offsets

/-- A topic that is not known takes no offsets, and a put that fails is only answered. -/
def exec (s : Objects) (c : Choice) : OffsetStep → Step
  | .topic group tp request =>
    if c.fault then failed s
    else .ok s
      (if tp.topic ∈ s.metadata.coord.topics then [.offsets (.put group tp request)] else [])
  | .put group tp request =>
    .ok (if c.fault then s else { s with offsets := s.offsets.insert (group, tp) request }) []

end Offsets

/-! ## Fetch -/

namespace Fetch

/-- The bound of a fetch. -/
def bound (isolation : IsolationLevel) (stage : OffsetStage) : Int :=
  match isolation with
  | .readCommitted => stage.lastStable
  | .readUncommitted => stage.highWatermark

/-- The base offsets below the bound that were listed. -/
def offsets (s : Objects) (c : Choice) (k : Consumer) (stage : OffsetStage) : List Int :=
  if k.position < bound k.isolation stage then
    (s.log k.topition).keys.filter fun base =>
      c.listed base && decide (base < bound k.isolation stage)
  else []

/-- From the position on, with the batch before it if none starts there. -/
def wanted (position : Int) (offsets : List Int) : List Int :=
  let above := offsets.filter fun base => decide (position ≤ base)
  if above.head? = some position then above
  else ((offsets.filter fun base => decide (base < position)).getLast?).toList ++ above

def stage (s : Objects) (k : Consumer) (stable : Option Int) : OffsetStage where
  lastStable := stable.getD (s.high k.topition)
  highWatermark := s.high k.topition
  logStart := (s.watermark k.topition).low.getD 0

/-- The first batch that exceeds the budget is the last one. -/
def get (s : Objects) (c : Choice) (k : Consumer) (stage : OffsetStage) (bytes : Nat)
    (batches : List (Int × Batch)) : List Int → Step
  | [] => .ok s [.fetch (.received k stage batches)]
  | base :: rest =>
    match (s.log k.topition)[base]? with
    | none => .err s (.api .unknownServerError)
    | some batch =>
      if k.position ≤ base + batch.lastOffsetDelta then
        let batches := batches ++ [(base, batch)]
        if bytes < batch.size ∨ c.expired then .ok s [.fetch (.received k stage batches)]
        else .ok s [.fetch (.get k stage rest (bytes - batch.size) batches)]
      else if c.expired then .ok s [.fetch (.received k stage batches)]
      else .ok s [.fetch (.get k stage rest bytes batches)]

end Fetch

/-- The consumer moves just past the last record it was given. -/
def Consumer.receive (k : Consumer) (batches : List (Int × Batch)) : Consumer :=
  { k with
    position := (batches.getLast?.map fun b => b.1 + b.2.lastOffsetDelta + 1).getD k.position
    delivered := k.delivered ++ batches }

def Fetch.exec (s : Objects) (c : Choice) (step : FetchStep) : Step :=
  match step with
  | .received k _ batches => .ok s (if c.again then [.fetch (.stage (k.receive batches))] else [])
  | step =>
    if c.fault then failed s
    else
      match step with
      | .stage k =>
        .ok s [.fetch (.watermark k ((c.reads s k.topition).metadata.stable k.topition))]
      | .watermark k stable => .ok s [.fetch (.list k (stage (c.reads s k.topition) k stable))]
      | .list k stage =>
        .ok s [.fetch (.get k stage (wanted k.position (offsets s c k stage)) c.maxBytes [])]
      | .get k stage wanted bytes batches => get s c k stage bytes batches wanted
      | .received .. => .ok s []

/-! ## The machine -/

inductive Request
  | produce (call : ProduceCall)
  | initProducer (transactionId : Option String) (transactionTimeoutMs : Int)
      (producerId producerEpoch : Option Int)
  | txnAddPartitions (transactionId : String) (producerId producerEpoch : Int)
      (partitions : List Topition)
  | txnOffsetCommit (transactionId : String) (producerId producerEpoch : Int) (group : Group)
      (offsets : List (Topition × TxnCommitOffset))
  | txnEnd (call : TxnEnd)
  | maintainTransactions (now : Int)
  | offsetCommit (group : Group) (offsets : List (Topition × OffsetCommitRequest))
  | consume (tp : Topition) (isolation : IsolationLevel) (start : Int)

def Request.start : Request → List Section
  | .produce call => [.produce (.config call)]
  | .initProducer t timeout pid e => [.txn (.initProducer t timeout pid e)]
  | .txnAddPartitions t pid e partitions => [.txn (.addPartitions t pid e partitions)]
  | .txnOffsetCommit t pid e group offsets => [.txn (.offsetCommit t pid e group offsets)]
  | .txnEnd call => [.txn (.prepare call)]
  | .maintainTransactions now => [.txn (.sweep now)]
  | .offsetCommit group offsets => offsets.map fun entry => .offsets (.topic group entry.1 entry.2)
  | .consume tp isolation start =>
    [.fetch (.stage { topition := tp, isolation, start, position := start })]

def exec (cfg : Config) (s : Objects) (c : Choice) : Section → Step
  | .produce step => Produce.exec cfg s c step
  | .txn step => Transactions.exec s c step
  | .offsets step => Offsets.exec s c step
  | .fetch step => Fetch.exec s c step
  | .handler => .ok s []

/-- Any number of brokers and clients over one object store. -/
def machine (cfg : Config) : Machine Objects Section Choice Error Request Empty where
  start := Request.start
  exec := exec cfg
  handler
    | .handler => true
    | _ => false
  env _ e := nomatch e

abbrev EngineWorld := World Objects Section
abbrev EngineLabel := Label Request Choice Empty

/-- A store that holds nothing but topics. -/
def opened (topics : BTreeMap Topic Tansu.Nvme.TopicMetadata) : EngineWorld :=
  ⟨{ metadata := { coord := { topics } } }, []⟩

/-! ## Schedules -/

namespace Schedule

/-- Task `i` runs `n` sections, none of which fails. -/
def turns (i n : Nat) : List EngineLabel := List.replicate n (.run i {})

/-- A store with the topic `p`. -/
def store : EngineWorld := opened ((∅ : BTreeMap Topic Tansu.Nvme.TopicMetadata).insert "p"
  ⟨0, ⟨"p", 1, 1, none⟩⟩)

def partition : Topition := ⟨"p", 0⟩

def register (t : String) : EngineLabel :=
  .spawn (.initProducer (some t) 60000 (some (-1)) (some (-1)))

/-- Three records of the transaction `t`. -/
def data (t : String) (pid epoch : Int) : EngineLabel :=
  .spawn (.produce ⟨some t, partition,
    { attributes := 16#16, lastOffsetDelta := 2, maxTimestamp := 0, producerId := pid
      producerEpoch := epoch, baseSequence := -1, recordData := .client 40 }⟩)

end Schedule

end Tansu.Dynostore.Engine

import Tansu.Lib.Varint
import Tansu.Lib.Wire
import Tansu.Nvme.Produce

/-!
# The SlateDB engine

`Engine` of `slate/storage.rs`, without a schema registry and without a lake house.
Every operation is one serializable transaction of the store, and is here one function
on the state.  The store is a map from bytes to bytes: the keys are the postcard
encodings of the key structs, which is what a scan sees, and the values are kept
decoded.  What is assumed of a scan are the fields of `SlateDb`.  Topics, producers and
transactions are the single values of their metadata keys; they are those of
`nvme/state.rs`, and so are the functions on them where the two sources do the same.
-/

namespace Tansu.Slate

open Std Tansu.Lib
open Tansu.Nvme (Topition Topic Group Batch BatchAttribute CoordState TxnDetail TxnState Txn
  TxnCommitOffset TxnProduceOffset TopicId TopicMetadata CreatableTopic ProducerDetail markerBatch
  wrapI16 wrapI32)

inductive ErrorCode
  | none
  | unknownServerError
  | unknownTopicOrPartition
  | topicAlreadyExists
  | outOfOrderSequenceNumber
  | duplicateSequenceNumber
  | invalidProducerEpoch
  | producerFenced
  | unknownProducerId
  | groupIdNotFound
  | transactionalIdNotFound
deriving DecidableEq

/-! ## Keys -/

namespace Postcard

/-- A `char` is a string of one character. -/
def char (c : UInt8) : Bytes := [1, c]

def str (s : String) : Bytes := uvarint s.toUTF8.data.toList.length ++ s.toUTF8.data.toList

/-- A UUID is a byte array, with its length. -/
def uuid (id : Nat) : Bytes := 16 :: be 16 id

/-- `fixint::be` of an `i32`. -/
def int32 (i : Int) : Bytes := be 4 (i % 2 ^ 32).toNat

/-- `fixint::be` of an `i64`. -/
def int64 (i : Int) : Bytes := be 8 (i % 2 ^ 64).toNat

end Postcard

inductive Key
  | batch (topic : Nat) (partition offset : Int)
  | watermark (topic : Nat) (partition : Int)
  | offsetCommit (groupId : Group) (tp : Topition)
  | group (groupId : Group)
  | brokers
  | producers
  | topics
  | transactions
deriving DecidableEq

/-- `BatchKeyPrefix` -/
def batchKeyPrefix (topic : Nat) (partition : Int) : Bytes :=
  Postcard.char 0x62 ++ Postcard.uuid topic ++ Postcard.int32 partition

/-- `OffsetCommitKeyPrefix` -/
def offsetCommitKeyPrefix (group : Group) : Bytes := Postcard.char 0x63 ++ Postcard.str group

def Key.encode : Key → Bytes
  | .batch topic partition offset => batchKeyPrefix topic partition ++ Postcard.int64 offset
  | .watermark topic partition =>
    Postcard.char 0x77 ++ Postcard.uuid topic ++ Postcard.int32 partition
  | .offsetCommit groupId tp =>
    offsetCommitKeyPrefix groupId ++ Postcard.str tp.topic ++ Postcard.int32 tp.partition
  | .group groupId => Postcard.char 0x67 ++ Postcard.str groupId
  | .brokers => "brokers.pc.bin".toUTF8.data.toList
  | .producers => "producers.pc.bin".toUTF8.data.toList
  | .topics => "topics.pc.bin".toUTF8.data.toList
  | .transactions => "transactions.pc.bin".toUTF8.data.toList

/-! ## The state -/

structure Watermark where
  low : Option Int := none
  high : Option Int := none
deriving DecidableEq

instance instTransOrdBatchKey : TransOrd (Nat × Int × Int) := inferInstance

structure State where
  coord : CoordState := {}
  /-- By topic id and partition. -/
  watermarks : BTreeMap (Nat × Int) Watermark := ∅
  /-- By topic id, partition and offset. -/
  batches : BTreeMap (Nat × Int × Int) Batch := ∅
  commits : BTreeMap (Group × Topition) TxnCommitOffset := ∅
  /-- The groups that have an entry. -/
  groups : List Group := []

/-- Whether a metadata key has been written yet makes no difference to a scan. -/
def State.keys (s : State) : List Key :=
  s.batches.keys.map (fun k => .batch k.1 k.2.1 k.2.2) ++
    s.watermarks.keys.map (fun k => .watermark k.1 k.2) ++
    s.commits.keys.map (fun k => .offsetCommit k.1 k.2) ++ s.groups.map .group ++
    [.brokers, .producers, .topics, .transactions]

/-- What is assumed of the store, beside serializable transactions: how it scans the keys
that it holds. -/
class SlateDb where
  /-- `db.scan(start..)` -/
  scan : List Key → Bytes → List (Bytes × Key)
  of_mem_scan : ∀ {keys start e}, e ∈ scan keys start →
    e.1 = e.2.encode ∧ e.2 ∈ keys ∧ (compare start e.1).isLE
  /-- A key that is there is found, or one that is written the same. -/
  exists_mem_scan : ∀ {keys start k}, k ∈ keys → (compare start k.encode).isLE →
    ∃ k', (k.encode, k') ∈ scan keys start
  pairwise_scan : ∀ keys start, (scan keys start).Pairwise fun x y => (compare x.1 y.1).isLE

namespace Ordered

open List BTreeMap ExtTreeMap

/-- A store that has its keys in an ordered map. -/
scoped instance ordered : SlateDb where
  scan keys start :=
    (keys.foldl (fun m k => m.insert k.encode k) (∅ : BTreeMap Bytes Key)).toList.filter fun e =>
      (compare start e.1).isLE
  of_mem_scan {keys start e} h := by
    obtain ⟨hmem, hstart⟩ := List.mem_filter.1 h
    have hall := forall_foldl_insert (m := (∅ : BTreeMap Bytes Key)) (l := keys)
      (P := fun bytes key => bytes = key.encode ∧ key ∈ keys) (by simp) fun k hk => ⟨rfl, hk⟩
    obtain ⟨hbytes, hkey⟩ := hall e.1 e.2 (mem_toList_iff_getElem?_eq_some.1 hmem)
    exact ⟨hbytes, hkey, hstart⟩
  exists_mem_scan {keys start k} h hstart := by
    obtain ⟨k', hk'⟩ : ∃ k', (keys.foldl (fun m k => m.insert k.encode k)
        (∅ : BTreeMap Bytes Key))[k.encode]? = some k' := by
      rw [getElem?_foldl_insert]
      cases hlast : (keys.filter (Key.encode · = k.encode)).getLast? with
      | none =>
        rw [getLast?_eq_none_iff, filter_eq_nil_iff] at hlast
        exact absurd (decide_eq_true rfl) (hlast k h)
      | some k' => exact ⟨k', by simp⟩
    exact ⟨k', List.mem_filter.2 ⟨mem_toList_iff_getElem?_eq_some.2 hk', hstart⟩⟩
  pairwise_scan keys start := by
    refine List.Pairwise.filter _ (ordered_keys_toList.imp fun h => ?_)
    rw [h]
    rfl

end Ordered

open SlateDb (scan)

namespace State

/-- The loop over a scan that stops where a key does not begin with `pre`. -/
def scanPrefix [SlateDb] (s : State) (start pre : Bytes) : List Key :=
  ((scan s.keys start).takeWhile fun e => pre.isPrefixOf e.1).map Prod.snd

def watermark (s : State) (topic : Nat) (partition : Int) : Watermark :=
  s.watermarks[(topic, partition)]?.getD {}

/-- `watermark.high.unwrap_or_default()` -/
def high (s : State) (topic : Nat) (partition : Int) : Int :=
  (s.watermark topic partition).high.getD 0

/-- A batch goes to the end of a partition. -/
def append (s : State) (topic : Nat) (partition : Int) (b : Batch) : State :=
  let offset := s.high topic partition
  { s with
    watermarks := s.watermarks.insert (topic, partition)
      { s.watermark topic partition with high := some (offset + b.lastOffsetDelta + 1) }
    batches := s.batches.insert (topic, partition, offset) b }

/-- The topic of a partition, which is in its range. -/
def partition? (s : State) (tp : Topition) : Option TopicMetadata :=
  s.coord.topics[tp.topic]?.filter fun metadata =>
    decide (0 ≤ tp.partition ∧ tp.partition < metadata.topic.numPartitions)

def modifyDetail (s : State) (t : String) (e : Int) (f : TxnDetail → TxnDetail) : State :=
  { s with coord := s.coord.modifyDetail t e f }

end State

/-! ## Topics -/

/-- `id` is the new UUID. -/
def createTopic (s : State) (id : Nat) (topic : CreatableTopic) : Except ErrorCode State :=
  if topic.name ∈ s.coord.topics then .error .topicAlreadyExists
  else .ok { s with
    coord := { s.coord with topics := s.coord.topics.insert topic.name ⟨id, topic⟩ } }

/-- The topic that a `TopicId` names. -/
def findTopic (s : State) : TopicId → Option (Topic × TopicMetadata)
  | .name name => s.coord.topics[name]?.map (name, ·)
  | .id id => s.coord.topics.toList.find? fun entry => entry.2.id = id

namespace DeleteTopic

/-- 1. The batches of every partition. -/
def batches [SlateDb] (s : State) (topic : Nat) (numPartitions : Int) : List Key :=
  (List.range numPartitions.toNat).flatMap fun partition =>
    s.scanPrefix (Key.batch topic partition 0).encode (batchKeyPrefix topic partition)

/-- 2. The watermarks of every partition. -/
def watermarks (topic : Nat) (numPartitions : Int) : List Key :=
  (List.range numPartitions.toNat).map fun partition => .watermark topic partition

/-- 3. The committed offsets of the topic among the keys that begin with `c`. -/
def offsets [SlateDb] (s : State) (name : Topic) : List Key :=
  (((scan s.keys [0x63]).takeWhile fun e => e.1.head? = some 0x63).map Prod.snd).filter fun
    | .offsetCommit _ tp => decide (tp.topic = name)
    | _ => false

/-- `tx.delete` -/
def delete (s : State) : Key → State
  | .batch topic partition offset =>
    { s with batches := s.batches.erase (topic, partition, offset) }
  | .watermark topic partition => { s with watermarks := s.watermarks.erase (topic, partition) }
  | .offsetCommit group tp => { s with commits := s.commits.erase (group, tp) }
  | .group groupId => { s with groups := s.groups.filter (· ≠ groupId) }
  | .brokers | .producers | .topics | .transactions => s

/-- 4. and 5. The sequences of producers, and what transactions have produced and staged. -/
def forget (coord : CoordState) (name : Topic) : CoordState :=
  { coord with
    producers := coord.producers.map fun _ pd =>
      ⟨pd.sequences.map fun _ sequences => sequences.filter fun tp _ => tp.topic ≠ name⟩
    transactions := coord.transactions.map fun _ txn =>
      { txn with epochs := txn.epochs.map fun _ d =>
          { d with
            produces := d.produces.filter fun tp _ => tp.topic ≠ name
            offsets := d.offsets.filter fun k _ => k.2.topic ≠ name } } }

end DeleteTopic

open DeleteTopic in
def deleteTopic [SlateDb] (s : State) (topic : TopicId) : State × ErrorCode :=
  match findTopic s topic with
  | none => (s, .unknownTopicOrPartition)
  | some (name, metadata) =>
    let doomed := batches s metadata.id metadata.topic.numPartitions ++
      watermarks metadata.id metadata.topic.numPartitions ++ offsets s name
    let s := doomed.foldl delete s
    let coord := forget s.coord name
    ({ s with coord := { coord with topics := coord.topics.erase name } }, .none)

/-- `delete_records`, one partition: the batches below `offset` go. -/
def deleteRecords [SlateDb] (s : State) (tp : Topition) (offset : Int) : State × ErrorCode :=
  match s.partition? tp with
  | none => (s, .unknownTopicOrPartition)
  | some metadata =>
    let doomed := (s.scanPrefix (Key.batch metadata.id tp.partition 0).encode
      (batchKeyPrefix metadata.id tp.partition)).takeWhile fun
        | .batch _ _ base => decide (base < offset)
        | _ => false
    let s := doomed.foldl DeleteTopic.delete s
    ({ s with
      watermarks := s.watermarks.insert (metadata.id, tp.partition)
        { s.watermark metadata.id tp.partition with low := some offset } }, .none)

/-! ## Produce -/

/-- `idempotent_sequence_check` -/
def idempotentSequenceCheck (producerEpoch sequence : Int) (b : Batch) : Except ErrorCode Int :=
  if producerEpoch = b.producerEpoch then
    if sequence = b.baseSequence then .ok (wrapI32 (b.lastOffsetDelta + 1))
    else if b.baseSequence < sequence then .error .duplicateSequenceNumber
    else .error .outOfOrderSequenceNumber
  else if b.producerEpoch < producerEpoch then .error .producerFenced
  else .error .invalidProducerEpoch

/-- The sequence of an idempotent batch is checked and moved. -/
def sequence (s : State) (tp : Topition) (b : Batch) : Except ErrorCode State :=
  match s.coord.producers[b.producerId]? with
  | none => .error .unknownProducerId
  | some pd =>
    match BTreeMap.lastKey? pd.sequences with
    | none => .error .unknownProducerId
    | some currentEpoch =>
      let currentSequence := (pd.sequences[b.producerEpoch]?.bind (·[tp]?)).getD 0
      (idempotentSequenceCheck currentEpoch currentSequence b).map fun increment =>
        let sequences := pd.sequences.alter b.producerEpoch fun sequences =>
          some ((sequences.getD ∅).insert tp (wrapI32 (currentSequence + increment)))
        { s with
          coord := { s.coord with producers := s.coord.producers.insert b.producerId ⟨sequences⟩ } }

/-- The range of a transaction on a partition, with a batch more: a start that is there stays. -/
def extend (d : TxnDetail) (tp : Topition) (offset offsetEnd : Int) : TxnDetail :=
  { d with produces := d.produces.alter tp fun
      | some (some range) => some (some { range with offsetEnd })
      | _ => some (some ⟨offset, offsetEnd⟩) }

/-- The batch goes into the range of its transaction and to the end of the partition. -/
def place (s : State) (transactionId : Option String) (metadata : TopicMetadata) (tp : Topition)
    (b : Batch) : State :=
  let offset := s.high metadata.id tp.partition
  let s := match transactionId with
    | none => s
    | some t => s.modifyDetail t b.producerEpoch (extend · tp offset (offset + b.lastOffsetDelta))
  s.append metadata.id tp.partition b

def produce (s : State) (transactionId : Option String) (tp : Topition) (b : Batch) :
    Except ErrorCode (State × Int) :=
  match s.partition? tp with
  | none => .error .unknownTopicOrPartition
  | some metadata =>
    (if b.isIdempotent then sequence s tp b else .ok s).map fun s =>
      (place s transactionId metadata tp b, s.high metadata.id tp.partition)

/-! ## Fetch -/

inductive IsolationLevel
  | readUncommitted
  | readCommitted
deriving DecidableEq

structure OffsetStage where
  logStart : Int
  lastStable : Int
  highWatermark : Int
deriving DecidableEq

/-- Where the transactions in progress start on a partition. -/
def openStarts (s : State) (tp : Topition) : List Int :=
  s.coord.transactions.values.flatMap fun txn =>
    (txn.epochs.values.filter TxnDetail.isOpen).filterMap fun d =>
      (d.range? tp).map TxnProduceOffset.offsetStart

def offsetStage (s : State) (tp : Topition) : Except ErrorCode OffsetStage :=
  match s.partition? tp with
  | none => .error .unknownTopicOrPartition
  | some metadata =>
    let highWatermark := s.high metadata.id tp.partition
    .ok
      { logStart := (s.watermark metadata.id tp.partition).low.getD 0
        lastStable := (openStarts s tp).foldl min highWatermark
        highWatermark }

/-- `batch_base_at_or_after` -/
def batchBaseAtOrAfter [SlateDb] (s : State) (topic : Nat) (partition probe : Int) : Option Int :=
  match scan s.keys (Key.batch topic partition probe).encode with
  | (bytes, .batch _ _ offset) :: _ =>
    if (batchKeyPrefix topic partition).isPrefixOf bytes then some offset else none
  | _ => none

/-- `batch_base_at_or_before`, by binary search. -/
def batchBaseAtOrBefore [SlateDb] (s : State) (topic : Nat) (partition offset : Int) :
    Nat → Int → Int → Option Int → Option Int
  | 0, _, _, floor => floor
  | fuel + 1, lo, hi, floor =>
    if lo ≤ hi then
      let mid := lo + (hi - lo) / 2
      match batchBaseAtOrAfter s topic partition mid with
      | some base =>
        if base ≤ offset then batchBaseAtOrBefore s topic partition offset fuel
          (base + 1) hi (some base)
        else batchBaseAtOrBefore s topic partition offset fuel lo (mid - 1) floor
      | none => batchBaseAtOrBefore s topic partition offset fuel lo (mid - 1) floor
    else floor

/-- The loop of `fetch` over the keys from its start.  The sizes are those of the encoded
batches. -/
def collect (s : State) (highWatermark offset : Int) (minBytes maxBytes : Nat) :
    List Key → Nat → List (Int × Batch)
  | .batch topic partition base :: keys, bytes =>
    if highWatermark ≤ base then []
    else
      match s.batches[(topic, partition, base)]? with
      | none => []
      | some b =>
        if base + b.lastOffsetDelta < offset then
          collect s highWatermark offset minBytes maxBytes keys bytes
        else
          (base, b) ::
            if maxBytes ≤ bytes + b.size ∨
                (minBytes ≤ bytes + b.size ∧ maxBytes - (bytes + b.size) < b.size) then []
            else collect s highWatermark offset minBytes maxBytes keys (bytes + b.size)
  | _, _ => []

/-- A batch is returned with its base offset. -/
def fetch [SlateDb] (s : State) (tp : Topition) (offset : Int) (minBytes maxBytes : Nat)
    (isolation : IsolationLevel) : Except ErrorCode (List (Int × Batch)) := do
  let stage ← offsetStage s tp
  let highWatermark :=
    if isolation = .readCommitted then stage.lastStable else stage.highWatermark
  match s.partition? tp with
  | none => .error .unknownTopicOrPartition
  | some metadata =>
    if highWatermark ≤ offset then .ok []
    else
      let start :=
        if batchBaseAtOrAfter s metadata.id tp.partition offset = some offset then offset
        else (batchBaseAtOrBefore s metadata.id tp.partition offset (offset.toNat + 1) 0 offset
          none).getD offset
      .ok (collect s highWatermark offset minBytes maxBytes
        (s.scanPrefix (Key.batch metadata.id tp.partition start).encode
          (batchKeyPrefix metadata.id tp.partition)) 0)

/-- A producer and the first offset of an aborted transaction. -/
structure AbortedTransaction where
  producerId : Int
  firstOffset : Int
deriving DecidableEq

/-- `aborted_transactions` -/
def abortedTransactions (_s : State) (_tp : Topition) (_fetchOffset : Int) :
    List AbortedTransaction := []

/-! ## Committed offsets -/

/-- `offset_commit`, one partition. -/
def offsetCommit (s : State) (group : Group) (tp : Topition) (value : TxnCommitOffset) :
    State × ErrorCode :=
  if tp.topic ∈ s.coord.topics then
    ({ s with
      groups := if group ∈ s.groups then s.groups else s.groups ++ [group]
      commits := s.commits.insert (group, tp) value }, .none)
  else (s, .unknownTopicOrPartition)

/-- The committed offset that a key holds. -/
def listOffset (s : State) (topitions : BTreeMap Topition Int) : Key → BTreeMap Topition Int
  | .offsetCommit group tp =>
    match s.commits[(group, tp)]? with
    | some value => topitions.insert tp value.committedOffset
    | none => topitions
  | _ => topitions

/-- `committed_offset_topitions` -/
def committedOffsetTopitions [SlateDb] (s : State) (group : Group) : BTreeMap Topition Int :=
  (s.scanPrefix (offsetCommitKeyPrefix group) (offsetCommitKeyPrefix group)).foldl (listOffset s) ∅

/-- `offset_fetch` of one partition. -/
def offsetFetch (s : State) (group : Group) (tp : Topition) : Int :=
  if tp.topic ∈ s.coord.topics then
    match s.commits[(group, tp)]? with
    | some value => value.committedOffset
    | none => -1
  else -1

/-- `delete_groups`, one group. -/
def deleteGroup [SlateDb] (s : State) (group : Group) : State × ErrorCode :=
  let offsets := s.scanPrefix (offsetCommitKeyPrefix group) (offsetCommitKeyPrefix group)
  ((.group group :: offsets).foldl DeleteTopic.delete s,
    if group ∈ s.groups ∨ offsets ≠ [] then .none else .groupIdNotFound)

/-! ## Producers and transactions -/

/-- The end marker of a transaction on each of the partitions whose topic exists, and the
greatest of the offsets of the markers and `offsetEnd`. -/
def marks (producerId producerEpoch : Int) (committed : Bool) :
    State → Int → List Topition → State × Int
  | s, offsetEnd, [] => (s, offsetEnd)
  | s, offsetEnd, tp :: partitions =>
    match s.coord.topics[tp.topic]? with
    | none => marks producerId producerEpoch committed s offsetEnd partitions
    | some metadata =>
      marks producerId producerEpoch committed
        (s.append metadata.id tp.partition (markerBatch producerId producerEpoch committed 0))
        (max offsetEnd (s.high metadata.id tp.partition)) partitions

structure ProducerIdResponse where
  id : Int
  epoch : Int
  error : ErrorCode := .none
deriving DecidableEq

def nextProducerId (s : State) : Int := (BTreeMap.lastKey? s.coord.producers).elim 1 (· + 1)

/-- A transaction detail as `init_producer` leaves it. -/
def begun (transactionTimeoutMs now : Int) : TxnDetail :=
  { transactionTimeoutMs
    startedAt := some now
    state := some .begin }

/-- The transaction of the greatest epoch is aborted when it has begun. -/
def abortOpen (s : State) (t : String) (txn : Txn) : State :=
  let oldEpoch := (BTreeMap.lastKey? txn.epochs).getD 0
  match (BTreeMap.lastKey? txn.epochs).bind (txn.epochs[·]?) with
  | none => s
  | some d =>
    if d.state = some TxnState.begin then
      (marks txn.producer oldEpoch false s 0 d.produces.keys).1.modifyDetail t oldEpoch
        ({ · with state := some .aborted })
    else s

/-- An id that is known: its open transaction is aborted, and the epoch goes up. -/
def reinit (s : State) (t : String) (txn : Txn) (transactionTimeoutMs now : Int) :
    State × ProducerIdResponse :=
  let oldEpoch := (BTreeMap.lastKey? txn.epochs).getD 0
  let s := abortOpen s t txn
  let newEpoch := wrapI16 (oldEpoch + 1)
  ({ s with
    coord := { s.coord with
      transactions := s.coord.transactions.modify t fun txn =>
        { txn with epochs := txn.epochs.insert newEpoch (begun transactionTimeoutMs now) }
      producers := s.coord.producers.modify txn.producer fun pd =>
        ⟨pd.sequences.insert newEpoch ∅⟩ } },
    { id := txn.producer, epoch := newEpoch })

def initProducer (s : State) (transactionId : Option String) (transactionTimeoutMs : Int)
    (producerId producerEpoch : Option Int) (now : Int) : State × ProducerIdResponse :=
  match transactionId with
  | some t =>
    match s.coord.transactions[t]? with
    | some txn => reinit s t txn transactionTimeoutMs now
    | none =>
      let id := nextProducerId s
      ({ s with
        coord := { s.coord with
          producers := s.coord.producers.insert id ⟨(∅ : BTreeMap Int _).insert 0 ∅⟩
          transactions := s.coord.transactions.insert t
            ⟨id, (∅ : BTreeMap Int TxnDetail).insert 0 (begun transactionTimeoutMs now)⟩ } },
        { id, epoch := 0 })
  | none =>
    if producerId = some (-1) ∧ producerEpoch = some (-1) then
      let id := nextProducerId s
      ({ s with
        coord := { s.coord with
          producers := s.coord.producers.insert id ⟨(∅ : BTreeMap Int _).insert 0 ∅⟩ } },
        { id, epoch := 0 })
    else (s, { id := -1, epoch := -1, error := .unknownServerError })

/-- The checks of `txn_add_partitions`, `txn_offset_commit` and `txn_end`: the transaction is
known by its producer, at its current epoch. -/
def current (s : State) (t : String) (producerId producerEpoch : Int) :
    Except ErrorCode TxnDetail :=
  match s.coord.transactions[t]? with
  | none => .error .transactionalIdNotFound
  | some txn =>
    if txn.producer ≠ producerId then .error .unknownProducerId
    else
      match BTreeMap.lastKey? txn.epochs with
      | none => .error .producerFenced
      | some currentEpoch =>
        if producerEpoch ≠ currentEpoch then .error .producerFenced
        else
          match txn.epochs[producerEpoch]? with
          | none => .error .producerFenced
          | some d => .ok d

/-- `insert(partition, None)` for every partition, whatever is there. -/
def addPartitions (d : TxnDetail) (partitions : List Topition) : TxnDetail :=
  { d with produces := partitions.foldl (fun m tp => m.insert tp none) d.produces }

/-- `txn_add_partitions` for one transaction. -/
def txnAddPartitions (s : State) (t : String) (producerId producerEpoch : Int)
    (partitions : List Topition) : State × ErrorCode :=
  match current s t producerId producerEpoch with
  | .error e => (s, e)
  | .ok _ => (s.modifyDetail t producerEpoch (addPartitions · partitions), .none)

/-- `txn_offset_commit` -/
def txnOffsetCommit (s : State) (t : String) (producerId producerEpoch : Int) (group : Group)
    (offsets : List (Topition × TxnCommitOffset)) : State × ErrorCode :=
  match current s t producerId producerEpoch with
  | .error e => (s, e)
  | .ok _ => (s.modifyDetail t producerEpoch (TxnDetail.stage · group offsets), .none)

/-- Some range of `d` on a partition of `produces` starts below `offsetEnd`. -/
def overlaps (produces : BTreeMap Topition (Option TxnProduceOffset)) (offsetEnd : Int)
    (d : TxnDetail) : Bool :=
  d.produces.toList.any fun (tp, range) =>
    decide (tp ∈ produces) && range.any fun range => decide (range.offsetStart < offsetEnd)

/-- The epochs of the other transactions that overlap. -/
def overlapping (s : State) (t : String) (produces : BTreeMap Topition (Option TxnProduceOffset))
    (offsetEnd : Int) : List (String × Int × TxnDetail) :=
  s.coord.transactions.toList.flatMap fun (t', txn) =>
    if t' = t then []
    else (txn.epochs.toList.filter fun (_, d) => overlaps produces offsetEnd d).map (t', ·)

/-- The staged offsets of a transaction are committed. -/
def applyOffsets (s : State) (offsets : BTreeMap (Group × Topition) TxnCommitOffset) : State :=
  { s with commits := offsets.toList.foldl (fun m o => m.insert o.1 o.2) s.commits }

/-- A prepared transaction gets its final state. -/
def complete (s : State) (t : String) (e : Int) : State :=
  match s.coord.detail? t e with
  | none => s
  | some d =>
    if d.state = some .prepareCommit then
      (applyOffsets s d.offsets).modifyDetail t e ({ · with state := some .committed })
    else s.modifyDetail t e ({ · with state := some .aborted })

/-- The final state that a caller of `txn_end` asks for. -/
def final (committed : Bool) : TxnState := if committed then .committed else .aborted

namespace TxnEnd

/-- Only a transaction that has begun is prepared. -/
def prepare (s : State) (t : String) (e : Int) (committed : Bool) : State :=
  s.modifyDetail t e fun d =>
    if d.state = some TxnState.begin then { d with state := some (.prepare committed) } else d

/-- The transaction and the prepared ones that overlap it get their final states. -/
def resolve (s : State) (t : String) (e : Int) (committed : Bool)
    (offsets : BTreeMap (Group × Topition) TxnCommitOffset) (prepared : List (String × Int)) :
    State :=
  let s := if committed then applyOffsets s offsets else s
  let s := s.modifyDetail t e ({ · with state := some (final committed) })
  prepared.foldl (fun s p => complete s p.1 p.2) s

end TxnEnd

open TxnEnd in
def txnEnd (s : State) (t : String) (producerId producerEpoch : Int) (committed : Bool) :
    Except ErrorCode State :=
  match current s t producerId producerEpoch with
  | .error e => .error e
  | .ok d =>
    let marked := marks producerId producerEpoch committed (prepare s t producerEpoch committed) 0
      d.produces.keys
    let others := overlapping marked.1 t d.produces marked.2
    if others.any fun o => decide (o.2.2.state = some TxnState.begin) then .ok marked.1
    else
      let prepared := others.filter fun o => o.2.2.state.any TxnState.isPrepared
      .ok (resolve marked.1 t producerEpoch committed d.offsets
        (prepared.map fun o => (o.1, o.2.1)))

end Tansu.Slate

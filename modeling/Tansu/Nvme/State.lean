import Tansu.Nvme.Types

/-!
# Coordination state

Producers, transactions, topics and SCRAM credentials: the state behind the
engine's single coordination mutex (`nvme/state.rs`).  The nested maps of the
source that are only ever used as one (topic, then partition; group, then topic,
then partition) are keyed by the tuple, which keeps their iteration order.
-/

namespace Tansu.Nvme

open Std Tansu.Lib

structure ProducerDetail where
  sequences : BTreeMap Int (BTreeMap Topition Int) := ∅
deriving DecidableEq

structure TxnProduceOffset where
  offsetStart : Int
  offsetEnd : Int
deriving DecidableEq

structure TxnCommitOffset where
  committedOffset : Int
  leaderEpoch : Option Int
  metadata : Option String
deriving DecidableEq

inductive TxnState
  | begin
  | prepareCommit
  | prepareAbort
  | committed
  | aborted
deriving DecidableEq

namespace TxnState

def isPrepared : TxnState → Bool
  | .prepareAbort | .prepareCommit => true
  | _ => false

/-- `Committed | Aborted`. -/
def isTerminal : TxnState → Bool
  | .committed | .aborted => true
  | _ => false

/-- The prepared state that a caller of `txn_end` asks for. -/
def prepare (committed : Bool) : TxnState := if committed then .prepareCommit else .prepareAbort

end TxnState

structure TxnDetail where
  transactionTimeoutMs : Int := 0
  startedAt : Option Int := none
  state : Option TxnState := none
  produces : BTreeMap Topition (Option TxnProduceOffset) := ∅
  offsets : BTreeMap (Group × Topition) TxnCommitOffset := ∅
deriving DecidableEq

structure Txn where
  producer : Int
  epochs : BTreeMap Int TxnDetail
deriving DecidableEq

structure CreatableTopic where
  name : Topic
  numPartitions : Int
  replicationFactor : Int
  configs : Option (List (String × Option String))
deriving DecidableEq

structure TopicMetadata where
  id : Nat
  topic : CreatableTopic
deriving DecidableEq

structure ScramCredential where
  salt : List UInt8
  iterations : Int
  storedKey : List UInt8
  serverKey : List UInt8
deriving DecidableEq

inductive TopicId
  | name (name : Topic)
  | id (id : Nat)

/-- One transaction incarnation found by the overlap scan of `txn_end`. -/
structure TxnRef where
  transaction : String
  producerId : Int
  producerEpoch : Int
  state : TxnState
deriving DecidableEq

structure CoordState where
  producers : BTreeMap Int ProducerDetail := ∅
  transactions : BTreeMap String Txn := ∅
  topics : BTreeMap Topic TopicMetadata := ∅
  scram : BTreeMap (String × String) ScramCredential := ∅
deriving DecidableEq

/-! ## Transaction details -/

namespace TxnDetail

/-- The partitions that hold a produced range. -/
def ranges (d : TxnDetail) : BTreeMap Topition TxnProduceOffset :=
  d.produces.filterMap fun _ range => range

/-- A committed or aborted transaction. -/
def isTerminal (d : TxnDetail) : Bool := d.state.any TxnState.isTerminal

/-- Begin, PrepareCommit or PrepareAbort. -/
def isOpen (d : TxnDetail) : Bool := d.state.isSome && !d.isTerminal

/-- The payload of the previous incarnation is dropped when a terminal
transaction starts again at the same epoch. -/
def clearTerminal (d : TxnDetail) : TxnDetail :=
  if d.isTerminal then { d with produces := ∅, offsets := ∅ } else d

/-- `entry(topition).or_default()` for every partition. -/
def addPartitions (d : TxnDetail) (partitions : List Topition) : TxnDetail :=
  { d with produces := partitions.foldl (fun m tp => m.insertIfNew tp none) d.produces }

/-- What `txn_add_partitions`, and its replay, make of a detail. -/
def begin (d : TxnDetail) (startedAt : Int) (partitions : List Topition) : TxnDetail :=
  { d.clearTerminal.addPartitions partitions with
    startedAt := some startedAt
    state := some .begin }

/-- What `txn_offset_commit`, and its replay, make of a detail. -/
def stage (d : TxnDetail) (group : Group) (offsets : List (Topition × TxnCommitOffset)) :
    TxnDetail :=
  { d with offsets := offsets.foldl (fun m o => m.insert (group, o.1) o.2) d.offsets }

/-- Phase 1 of `txn_end`. -/
def prepare (d : TxnDetail) (committed : Bool) : TxnDetail :=
  { d with state := some (.prepare committed) }

/-- What the terminal transition, and its replay, make of a detail. -/
def finish (d : TxnDetail) (terminal : TxnState) : TxnDetail :=
  { d with state := some terminal, produces := ∅, offsets := ∅, startedAt := none }

/-- Merge `[offset_start, offset_end]` into the range of one partition: the start
of a range that is there stays where it is. -/
def extend (d : TxnDetail) (tp : Topition) (offsetStart offsetEnd : Int) : TxnDetail :=
  { d with produces := d.produces.alter tp fun
      | some (some range) =>
        some (some { range with offsetEnd := max range.offsetEnd offsetEnd })
      | _ => some (some ⟨offsetStart, offsetEnd⟩) }

/-- The produced range of one partition. -/
def range? (d : TxnDetail) (tp : Topition) : Option TxnProduceOffset := d.produces[tp]?.join

variable {d : TxnDetail} {tp tp' : Topition}

theorem getElem?_ranges : d.ranges[tp]? = d.range? tp := by
  simp only [ranges, range?, ExtTreeMap.getElem?_filterMap']
  cases d.produces[tp]? <;> rfl

theorem mem_ranges {range : TxnProduceOffset} :
    (tp, range) ∈ d.ranges.toList ↔ d.range? tp = some range := by
  rw [ExtTreeMap.mem_toList_iff_getElem?_eq_some, getElem?_ranges]

theorem range?_addPartitions {partitions : List Topition} :
    (d.addPartitions partitions).range? tp = d.range? tp := by
  unfold addPartitions range?
  generalize d.produces = m
  induction partitions generalizing m with
  | nil => rfl
  | cons tp' partitions ih =>
    rw [List.foldl_cons, ih, BTreeMap.getElem?_insertIfNew_eq]
    split
    · cases m[tp]? <;> rfl
    · rfl

/-- A new incarnation starts without ranges; one that goes on keeps them. -/
theorem range?_begin {now : Int} {partitions : List Topition} :
    (d.begin now partitions).range? tp = if d.isTerminal then none else d.range? tp := by
  have h : (d.begin now partitions).range? tp =
      (d.clearTerminal.addPartitions partitions).range? tp := rfl
  rw [h, range?_addPartitions, clearTerminal]
  split
  · simp [range?]
  · rfl

@[simp] theorem range?_finish {terminal : TxnState} : (d.finish terminal).range? tp = none := by
  simp [range?, finish]

theorem range?_extend {lo hi : Int} : (d.extend tp lo hi).range? tp' =
    if tp = tp' then
      some (match d.range? tp' with
        | some range => { range with offsetEnd := max range.offsetEnd hi }
        | none => ⟨lo, hi⟩)
    else d.range? tp' := by
  simp only [range?, extend, BTreeMap.getElem?_alter_eq]
  split
  · rcases d.produces[tp']? with _ | _ | range <;> rfl
  · rfl

end TxnDetail

namespace CoordState

def detail? (s : CoordState) (t : String) (e : Int) : Option TxnDetail :=
  s.transactions[t]?.bind fun txn => txn.epochs[e]?

def producer? (s : CoordState) (t : String) : Option Int :=
  s.transactions[t]?.map (·.producer)

/-- The current epoch of a transactional id: the greatest one. -/
def currentEpoch? (s : CoordState) (t : String) : Option Int :=
  s.transactions[t]?.bind fun txn => BTreeMap.lastKey? txn.epochs

def modifyDetail (s : CoordState) (t : String) (e : Int) (f : TxnDetail → TxnDetail) :
    CoordState :=
  { s with transactions := s.transactions.modify t fun txn =>
      { txn with epochs := txn.epochs.modify e f } }

def topicMetadata (s : CoordState) : TopicId → Option TopicMetadata
  | .name name => s.topics[name]?
  | .id id => s.topics.values.find? fun metadata => metadata.id = id

/-- `txn_detail_mut`: the detail of the current epoch, checked in the order
unknown id, unknown producer, stale or missing epoch. -/
def txnDetail (s : CoordState) (transactionId : String) (producerId : Int)
    (producerEpoch : Int) : Except Error TxnDetail :=
  match s.transactions[transactionId]? with
  | none => .error (.api .transactionalIdNotFound)
  | some transaction =>
    if transaction.producer ≠ producerId then .error (.api .unknownProducerId)
    else
      match BTreeMap.lastKey? transaction.epochs with
      | none => .error (.api .producerFenced)
      | some currentEpoch =>
        if currentEpoch ≠ producerEpoch then .error (.api .producerFenced)
        else
          match transaction.epochs[producerEpoch]? with
          | none => .error (.api .producerFenced)
          | some detail => .ok detail

/-- Idempotent producer sequence validation.  The partition's entry is created
before it is compared, so the state is returned with the verdict. -/
def validateSequence (s : CoordState) (producerId : Int) (producerEpoch : Int)
    (baseSequence : Int) (lastOffsetDelta : Int) (tp : Topition) :
    CoordState × Except Error Unit :=
  match s.producers[producerId]? with
  | none => (s, .error (.api .unknownProducerId))
  | some pd =>
    match BTreeMap.lastKey? pd.sequences with
    | none => (s, .error (.api .unknownServerError))
    | some current =>
      if current ≠ producerEpoch then (s, .error (.api .producerFenced))
      else
        let sequence := (pd.sequences[current]?.bind (·[tp]?)).getD 0
        let store (n : Int) : CoordState :=
          let sequences := pd.sequences.modify current (·.insert tp n)
          { s with producers := s.producers.insert producerId ⟨sequences⟩ }
        if sequence < baseSequence then (store sequence, .error (.api .outOfOrderSequenceNumber))
        else if baseSequence < sequence then
          (store sequence, .error (.api .duplicateSequenceNumber))
        else (store (wrapI32 (sequence + wrapI32 (lastOffsetDelta + 1))), .ok ())

/-- Merge a transactional produce into the range of its transaction.  Data needs
an open transaction; a control batch is merged whatever the state is. -/
def recordTxnProduce (s : CoordState) (transactionId : String) (producerEpoch : Int)
    (tp : Topition) (offsetStart offsetEnd : Int) (isControl : Bool) :
    Except Error CoordState :=
  match s.detail? transactionId producerEpoch with
  | none => .ok s
  | some detail =>
    if !isControl && detail.state ≠ some .begin then .error (.api .invalidTxnState)
    else .ok (s.modifyDetail transactionId producerEpoch (·.extend tp offsetStart offsetEnd))

/-- The produced offset ranges of one transaction incarnation. -/
def produced (s : CoordState) (t : String) (e : Int) :
    List (Topition × TxnProduceOffset) :=
  match s.detail? t e with
  | none => []
  | some d => d.ranges.toList

/-! ## Overlapping transactions -/

/-- Some range of `d` starts below the end of the candidate's range on the same
partition. -/
def overlaps (candidates : BTreeMap Topition TxnProduceOffset) (d : TxnDetail) : Bool :=
  d.ranges.toList.any fun (tp, range) =>
    match candidates[tp]? with
    | none => false
    | some candidate => decide (range.offsetStart < candidate.offsetEnd)

/-- The open or prepared epoch of one transactional id that overlaps the
candidate: the first one, and never the candidate itself. -/
def overlapping (candidates : BTreeMap Topition TxnProduceOffset) (transactionId : String)
    (producerId : Int) (producerEpoch : Int) (candidateId : String) (txn : Txn) :
    Option TxnRef :=
  txn.epochs.toList.findSome? fun (epoch, detail) =>
    if transactionId = candidateId ∧ producerId = txn.producer ∧ producerEpoch = epoch then none
    else
      match detail.state with
      | none => none
      | some state =>
        if state.isTerminal then none
        else if overlaps candidates detail then some ⟨candidateId, txn.producer, epoch, state⟩
        else none

def overlappingTransactions (s : CoordState) (transactionId : String) (producerId : Int)
    (producerEpoch : Int) : List TxnRef :=
  let candidates := ((s.detail? transactionId producerEpoch).map TxnDetail.ranges).getD ∅
  s.transactions.toList.filterMap fun (candidateId, txn) =>
    overlapping candidates transactionId producerId producerEpoch candidateId txn

/-! ## Topic configuration -/

end CoordState

inductive OpType
  | set
  | delete
  | append
  | subtract

def OpType.tryFrom : Int → Except Error OpType
  | 0 => .ok .set
  | 1 => .ok .delete
  | 2 => .ok .append
  | 3 => .ok .subtract
  | otherwise => .error (.invalidOpType otherwise)

structure AlterableConfig where
  name : String
  configOperation : Int
  value : Option String
deriving DecidableEq

/-- `str::split(',')`. -/
def splitComma (s : String) : List String := (s.toList.splitOn ',').map String.ofList

namespace CoordState

/-- One incremental change of a topic's configuration; `Append` and `Subtract`
treat the value as a comma separated list. -/
def alterConfig (configuration : BTreeMap String (Option String)) (change : AlterableConfig) :
    Except Error (BTreeMap String (Option String)) := do
  match ← OpType.tryFrom change.configOperation with
  | .set => return configuration.insert change.name change.value
  | .delete => return configuration.erase change.name
  | .append =>
    let appended := change.value.getD ""
    return configuration.alter change.name fun
      | some (some current) =>
        if current.isEmpty then some (some appended)
        else if (splitComma current).contains appended then some (some current)
        else some (some (current ++ "," ++ appended))
      | _ => some (some appended)
  | .subtract =>
    let subtracted := change.value.getD ""
    return configuration.modify change.name (Option.map fun current =>
      ",".intercalate ((splitComma current).filter (· != subtracted)))

def alterTopic (s : CoordState) (topic : Topic) (changes : List AlterableConfig) :
    Except Error CoordState :=
  match s.topics[topic]? with
  | none => .ok s
  | some metadata => do
    let stored := (metadata.topic.configs.getD []).foldl (fun m item => m.insert item.1 item.2) ∅
    let configuration ← changes.foldlM alterConfig stored
    let topic' := { metadata.topic with configs := some configuration.toList }
    return { s with topics := s.topics.insert topic { metadata with topic := topic' } }

/-! ## Lookups after an update -/

variable {s : CoordState} {t t' : String} {e e' : Int} {f : TxnDetail → TxnDetail}

theorem detail?_modifyDetail : (s.modifyDetail t e f).detail? t' e' =
    if t = t' ∧ e = e' then (s.detail? t' e').map f else s.detail? t' e' := by
  unfold detail? modifyDetail
  rw [BTreeMap.getElem?_modify_eq]
  by_cases ht : t = t'
  · subst ht
    cases h : s.transactions[t]? with
    | none => simp
    | some txn => simp [BTreeMap.getElem?_modify_eq]
  · simp [ht]

theorem producer?_modifyDetail : (s.modifyDetail t e f).producer? t' = s.producer? t' := by
  unfold producer? modifyDetail
  rw [BTreeMap.getElem?_modify_eq]
  split
  · cases s.transactions[t']? <;> rfl
  · rfl

theorem currentEpoch?_modifyDetail :
    (s.modifyDetail t e f).currentEpoch? t' = s.currentEpoch? t' := by
  unfold currentEpoch? modifyDetail
  rw [BTreeMap.getElem?_modify_eq]
  split
  · cases s.transactions[t']? <;> simp [BTreeMap.lastKey?_modify]
  · rfl

theorem validateSequence_fst (s : CoordState) (pid e sequence delta : Int) (tp : Topition) :
    ∃ producers, (s.validateSequence pid e sequence delta tp).1 = { s with producers } := by
  unfold validateSequence
  split
  · exact ⟨s.producers, rfl⟩
  · split
    · exact ⟨s.producers, rfl⟩
    · split
      · exact ⟨s.producers, rfl⟩
      · simp only
        split
        · exact ⟨_, rfl⟩
        · split <;> exact ⟨_, rfl⟩

/-- The validation accepts exactly the current epoch under its own producer. -/
theorem txnDetail_eq_ok {pid : Int} {d : TxnDetail} : s.txnDetail t pid e = .ok d ↔
    s.producer? t = some pid ∧ s.currentEpoch? t = some e ∧ s.detail? t e = some d := by
  unfold txnDetail producer? currentEpoch? detail?
  cases s.transactions[t]? with
  | none => simp
  | some txn =>
    by_cases hp : txn.producer = pid
    · cases hl : BTreeMap.lastKey? txn.epochs with
      | none => simp [hp, hl]
      | some last =>
        by_cases he : last = e
        · cases hd : txn.epochs[e]? <;> simp [hp, hl, he, hd]
        · simp [hp, hl, he]
    · simp [hp]

end CoordState

end Tansu.Nvme

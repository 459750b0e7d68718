import Tansu.Nvme.Partition

/-!
# The metadata log and its snapshots

The records of the write-ahead log (`nvme/wal.rs`), what replaying one of them
does (`apply` of `nvme/recovery.rs`), and the snapshot document
(`nvme/snapshot.rs`).  Replay works on the coordination state, the consumer
groups, their offsets and a skeleton of every partition; the document keeps the
same four parts, so that both are a `ReplayState`.
-/

namespace Tansu.Nvme

open Std Tansu.Lib BTreeMap

/-- A consumer group's state.  The engine stores and compares it as a whole and
never looks inside. -/
structure GroupDetail where
  encoded : String
deriving DecidableEq

structure Version where
  eTag : Option String
  version : Option String
deriving DecidableEq

/-- `Version::from(&Uuid)`. -/
def Version.ofUuid (uuid : Nat) : Version := ⟨some (toString uuid), none⟩

structure OffsetCommitRequest where
  offset : Int
  leaderEpoch : Option Int := none
  timestamp : Option Int := none
  metadata : Option String := none
deriving DecidableEq

inductive WalRecord
  | topicCreate (id : Nat) (topic : CreatableTopic)
  | topicDelete (name : Topic)
  | configAlter (name : Topic) (changes : List AlterableConfig)
  | pidAlloc (producerId : Int) (transactionId : Option String)
      (transactionTimeoutMs : Int)
  | epochBump (transactionId : String) (producerId : Int)
      (producerEpoch : Int) (transactionTimeoutMs : Int)
  | txnBegin (transactionId : String) (producerId : Int) (producerEpoch : Int)
      (startedAt : Int) (partitions : List Topition)
  | txnPrepare (transactionId : String) (producerId : Int)
      (producerEpoch : Int) (committed : Bool)
      (produced : List (Topition × TxnProduceOffset))
  | txnTerminal (transactionId : String) (producerId : Int)
      (producerEpoch : Int) (committed : Bool)
      (aborted : List (Topition × TxnProduceOffset))
  | txnOffsets (transactionId : String) (producerId : Int)
      (producerEpoch : Int) (group : Group)
      (offsets : List (Topition × TxnCommitOffset))
  | groupOffsetCommit (group : Group) (offsets : List (Topition × OffsetCommitRequest))
  | groupUpdate (group : Group) (detail : GroupDetail) (version : Version)
  | groupDelete (group : Group)
  | scramUpsert (user mechanism : String) (credential : ScramCredential)
  | scramDelete (user mechanism : String)
  | logStartAdvance (tp : Topition) (offset : Int)
deriving DecidableEq

/-- A log file with every record that was written to it.  As in a segment file, a
write that fails may leave bytes that no replay gets past. -/
structure WalFile where
  records : List WalRecord := []
  /-- How many of the records an `fdatasync` has made durable. -/
  synced : Nat := 0
  /-- How many records lie in front of the first bytes that a failed write left. -/
  torn : Option Nat := none
  /-- Bytes that failed writes left. -/
  scrap : Nat := 0
deriving DecidableEq

namespace WalFile

/-- `write_all` failed behind the first `kept` bytes of a frame. -/
def tear (f : WalFile) (kept : Nat) : WalFile :=
  if kept = 0 then f
  else { f with torn := some (f.torn.getD f.records.length), scrap := f.scrap + kept }

/-- The records that a replay of the file reaches. -/
def replayable (f : WalFile) : List WalRecord :=
  f.records.take (f.torn.getD f.records.length)

def append (f : WalFile) (record : WalRecord) : WalFile :=
  { f with records := f.records ++ [record] }

def sync (f : WalFile) (upTo : Nat) : WalFile :=
  { f with synced := max f.synced (min upTo f.records.length) }

theorem tear_records (f : WalFile) (kept : Nat) : (f.tear kept).records = f.records := by
  unfold tear
  split <;> rfl

theorem replayable_subset (f : WalFile) : f.replayable ⊆ f.records := List.take_subset _ _

end WalFile

/-! ## Replay -/

/-- What snapshot and log know of a partition before its segments are scanned. -/
structure Skeleton where
  logStart : Int := 0
  aborted : List AbortedRange := []
deriving DecidableEq

structure ReplayState where
  coord : CoordState := {}
  groups : BTreeMap Group (GroupDetail × Version) := ∅
  groupOffsets : BTreeMap (Group × Topition) OffsetCommitRequest := ∅
  skeletons : BTreeMap Topition Skeleton := ∅
deriving DecidableEq

/-- An aborted range is listed once, however often it is reported. -/
def pushAborted (aborted : List AbortedRange) (range : AbortedRange) : List AbortedRange :=
  if range ∈ aborted then aborted else aborted ++ [range]

/-- A producer that starts at epoch 0. -/
def ProducerDetail.fresh : ProducerDetail := ⟨(∅ : BTreeMap Int _).insert 0 ∅⟩

/-- A transaction that was just given its producer id. -/
def Txn.fresh (producer : Int) (transactionTimeoutMs : Int) : Txn :=
  ⟨producer, (∅ : BTreeMap Int TxnDetail).insert 0 { transactionTimeoutMs }⟩

namespace CoordState

/-- Change the detail of an epoch if the transaction belongs to `producerId`. -/
def modifyOwned (s : CoordState) (t : String) (producerId : Int) (e : Int)
    (f : TxnDetail → TxnDetail) : CoordState :=
  { s with transactions := s.transactions.modify t fun txn =>
      if txn.producer = producerId then { txn with epochs := txn.epochs.modify e f } else txn }

def allocate (s : CoordState) (producerId : Int) (transactionId : Option String)
    (transactionTimeoutMs : Int) : CoordState :=
  let producers := s.producers.insert producerId .fresh
  match transactionId with
  | none => { s with producers }
  | some t => { s with
      producers
      transactions := s.transactions.insert t (.fresh producerId transactionTimeoutMs) }

def bumpEpoch (s : CoordState) (t : String) (producerId : Int) (e : Int)
    (transactionTimeoutMs : Int) : CoordState :=
  { s with
    producers := s.producers.modify producerId fun pd => ⟨pd.sequences.insert e ∅⟩
    transactions := s.transactions.modify t fun txn =>
      { txn with epochs := txn.epochs.insert e { transactionTimeoutMs } } }

variable {s : CoordState} {t t' : String} {pid e e' timeout : Int}

theorem detail?_allocate : (s.allocate pid (some t) timeout).detail? t' e' =
    if t = t' then (if e' = 0 then some { transactionTimeoutMs := timeout } else none)
    else s.detail? t' e' := by
  simp only [allocate, detail?, getElem?_insert_eq]
  split
  · simp only [Txn.fresh, Option.bind_some, getElem?_insert_eq, eq_comm (a := (0 : Int))]
    split <;> simp
  · rfl

theorem producer?_allocate : (s.allocate pid (some t) timeout).producer? t' =
    if t = t' then some pid else s.producer? t' := by
  simp only [allocate, producer?, getElem?_insert_eq]
  split <;> rfl

theorem currentEpoch?_allocate : (s.allocate pid (some t) timeout).currentEpoch? t' =
    if t = t' then some 0 else s.currentEpoch? t' := by
  simp only [allocate, currentEpoch?, getElem?_insert_eq]
  split
  · rw [Option.bind_some, Txn.fresh, lastKey?_insert, lastKey?_eq_maxKey?]
    simp
  · rfl

theorem detail?_bumpEpoch (h : (s.producer? t).isSome) :
    (s.bumpEpoch t pid e timeout).detail? t' e' =
      if t = t' ∧ e = e' then some { transactionTimeoutMs := timeout } else s.detail? t' e' := by
  simp only [bumpEpoch, detail?, BTreeMap.getElem?_modify_eq]
  by_cases ht : t = t'
  · subst ht
    cases htxn : s.transactions[t]? with
    | none => simp [producer?, htxn] at h
    | some txn => simp [getElem?_insert_eq]
  · simp [ht]

theorem producer?_bumpEpoch :
    (s.bumpEpoch t pid e timeout).producer? t' = s.producer? t' := by
  simp only [bumpEpoch, producer?, BTreeMap.getElem?_modify_eq]
  split
  · cases s.transactions[t']? <;> rfl
  · rfl

theorem currentEpoch?_bumpEpoch {current : Int} (h : s.currentEpoch? t = some current) :
    (s.bumpEpoch t pid e timeout).currentEpoch? t' =
      if t = t' then some (max current e) else s.currentEpoch? t' := by
  simp only [bumpEpoch, currentEpoch?, BTreeMap.getElem?_modify_eq]
  by_cases ht : t = t'
  · subst ht
    cases htxn : s.transactions[t]? with
    | none => simp [currentEpoch?, htxn] at h
    | some txn =>
      simp only [currentEpoch?, htxn, Option.bind_some] at h
      simp only [if_true, Option.map_some, Option.bind_some, lastKey?_insert, h,
        Option.elim_some, Option.some.injEq]
      by_cases hle : current ≤ e
      · rw [if_pos (Int.isLE_compare.2 hle), max_eq_right hle]
      · rw [if_neg (fun hc => hle (Int.isLE_compare.1 hc)), max_eq_left (by omega)]
  · simp [ht]

end CoordState

/-- What replaying `TxnPrepare` makes of a detail: the logged ranges replace
whatever partitions were listed. -/
def TxnDetail.prepareAs (d : TxnDetail) (committed : Bool)
    (produced : List (Topition × TxnProduceOffset)) : TxnDetail :=
  { d with
    state := some (.prepare committed)
    produces := produced.foldl (fun m p => m.insert p.1 (some p.2)) ∅ }

def apply (s : ReplayState) : WalRecord → ReplayState
  | .topicCreate id topic =>
    let topics := s.coord.topics.insert topic.name ⟨id, topic⟩
    { s with coord := { s.coord with topics } }
  | .topicDelete name => { s with
      coord := { s.coord with topics := s.coord.topics.erase name }
      skeletons := s.skeletons.filter fun tp _ => tp.topic != name
      groupOffsets := s.groupOffsets.filter fun key _ => key.2.topic != name }
  | .configAlter name changes =>
    match s.coord.alterTopic name changes with
    | .ok coord => { s with coord }
    | .error _ => s
  | .pidAlloc pid t timeout => { s with coord := s.coord.allocate pid t timeout }
  | .epochBump t pid e timeout => { s with coord := s.coord.bumpEpoch t pid e timeout }
  | .txnBegin t pid e startedAt partitions => { s with
      coord := s.coord.modifyOwned t pid e (·.begin startedAt partitions) }
  | .txnPrepare t pid e committed produced => { s with
      coord := s.coord.modifyOwned t pid e (·.prepareAs committed produced) }
  | .txnTerminal t pid e committed aborted => { s with
      coord := s.coord.modifyOwned t pid e
        (·.finish (if committed then .committed else .aborted))
      skeletons := aborted.foldl (fun m (tp, range) => m.alter tp fun skeleton =>
        let skeleton := skeleton.getD {}
        let range : AbortedRange := ⟨pid, range.offsetStart, range.offsetEnd⟩
        some { skeleton with aborted := pushAborted skeleton.aborted range }) s.skeletons }
  | .txnOffsets t pid e group offsets => { s with
      coord := s.coord.modifyOwned t pid e (·.stage group offsets) }
  | .groupOffsetCommit group offsets => { s with
      groupOffsets := offsets.foldl (fun m o => m.insert (group, o.1) o.2) s.groupOffsets }
  | .groupUpdate group detail version => { s with
      groups := s.groups.insert group (detail, version) }
  | .groupDelete group => { s with
      groups := s.groups.erase group
      groupOffsets := s.groupOffsets.filter fun key _ => key.1 != group }
  | .scramUpsert user mechanism credential =>
    let scram := s.coord.scram.insert (user, mechanism) credential
    { s with coord := { s.coord with scram } }
  | .scramDelete user mechanism =>
    { s with coord := { s.coord with scram := s.coord.scram.erase (user, mechanism) } }
  | .logStartAdvance tp offset => { s with
      skeletons := s.skeletons.alter tp fun skeleton =>
        some { skeleton.getD {} with logStart := offset } }

/-- Fold `apply` over log records. -/
def replay (s : ReplayState) (records : List WalRecord) : ReplayState := records.foldl apply s

/-! ## Snapshots -/

structure SnapshotDoc where
  /-- WAL files up to this sequence are captured by the snapshot. -/
  walSeq : Nat
  state : ReplayState
deriving DecidableEq

end Tansu.Nvme

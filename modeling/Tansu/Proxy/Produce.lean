import Tansu.Lib.System
import Tansu.Records.RoundTrip
import Tansu.Topition

/-!
# Produce batching in the proxy

`BatchProduceService` of `produce.rs`.  A request is put into one queue for all the
topics, and waits for an answer under its ticket.  Whoever finds enough records in the
queue, or runs out of patience, takes all of it, merges it into one request, sends that
upstream and splits the answer among the owners of its partitions.  The nested maps from
topics to partitions are here maps from topitions, which iterate in the same order.
Every use of a mutex and the call of the upstream service is a step.
-/

namespace Tansu.Proxy

open Std Tansu.Lib Tansu.Records

/-! ## Requests and answers -/

structure PartitionProduceData where
  index : Int32
  records : Option (List Deflated.Batch)

structure TopicProduceData where
  name : String
  partitionData : Option (List PartitionProduceData)

/-- The defaults are those of `ProduceRequest::default()`. -/
structure ProduceRequest where
  transactionalId : Option String := none
  acks : Int16 := 0
  timeoutMs : Int32 := 0
  topicData : Option (List TopicProduceData) := none

structure PartitionProduceResponse where
  index : Int32
  errorCode : Int16
  baseOffset : Int64
  logAppendTimeMs : Option Int64
  logStartOffset : Option Int64
  errorMessage : Option String
deriving DecidableEq

structure TopicProduceResponse where
  name : String
  partitionResponses : Option (List PartitionProduceResponse)
deriving DecidableEq

structure ProduceResponse where
  responses : Option (List TopicProduceResponse)
  throttleTimeMs : Option Int32
deriving DecidableEq

namespace ProduceRequest

/-- The partitions of a request, in the order of its loops. -/
def partitions (q : ProduceRequest) : List (Topition × Option (List Deflated.Batch)) :=
  (q.topicData.getD []).flatMap fun topic =>
    (topic.partitionData.getD []).map fun partition =>
      (⟨topic.name, partition.index⟩, partition.records)

def topitions (q : ProduceRequest) : List Topition := q.partitions.map Prod.fst

/-- `number_of_records` -/
def numberOfRecords (q : ProduceRequest) : Nat :=
  (q.partitions.map fun p => ((p.2.getD []).map fun b => b.recordCount.toNat).sum).sum

/-- `topic_names` -/
def topicNames (q : ProduceRequest) : List String :=
  (((q.topicData.getD []).map TopicProduceData.name).mergeSort fun a b => decide (a ≤ b)).dedup

/-- The smallest `tansu.batch.max_records` that is configured for a topic of the request. -/
def maxRecords (config : String → Option Nat) (q : ProduceRequest) : Nat :=
  (q.topicNames.filterMap config).min?.getD 1000

end ProduceRequest

namespace ProduceResponse

def partitions (a : ProduceResponse) : List (Topition × PartitionProduceResponse) :=
  (a.responses.getD []).flatMap fun topic =>
    (topic.partitionResponses.getD []).map fun partition =>
      (⟨topic.name, partition.index⟩, partition)

def topitions (a : ProduceResponse) : List Topition := a.partitions.map Prod.fst

end ProduceResponse

/-- The entries of a map by topic. -/
def byTopic {β : Type} : List (Topition × β) → List (String × List (Int32 × β))
  | [] => []
  | (tp, b) :: entries =>
    match byTopic entries with
    | [] => [(tp.topic, [(tp.partition, b)])]
    | (topic, partitions) :: topics =>
      if tp.topic = topic then (topic, (tp.partition, b) :: partitions) :: topics
      else (tp.topic, [(tp.partition, b)]) :: (topic, partitions) :: topics

/-! ## Merging -/

/-- A record of `batch` behind those of `sink`, in the arithmetic of a release build. -/
def moved (sink batch : Inflated.Batch) (record : Record) : Record :=
  { record with
    offsetDelta := record.offsetDelta + sink.lastOffsetDelta
    timestampDelta := record.timestampDelta + (sink.baseTimestamp - batch.baseTimestamp) }

/-- The body of the loop in `combine`. -/
def append (sink batch : Inflated.Batch) : Inflated.Batch :=
  { sink with
    records := sink.records ++ batch.records.map (moved sink batch)
    lastOffsetDelta := sink.lastOffsetDelta + batch.lastOffsetDelta
    maxTimestamp :=
      if sink.maxTimestamp < batch.maxTimestamp then batch.maxTimestamp else sink.maxTimestamp }

def combine (libs : Libraries) : List Deflated.Batch → Except Fault (List Deflated.Batch)
  | first :: second :: rest => do
    let sink ← Inflated.Batch.tryFrom libs first
    let sink ← (second :: rest).foldlM
      (fun sink batch => (Inflated.Batch.tryFrom libs batch).map (append sink)) sink
    let batch ← (Deflated.Batch.tryFromInflated libs sink).mapError .error
    pure [batch]
  | batches => pure batches

/-- `combine(batches).unwrap_or_default()`, which a panic in `combine` goes through. -/
def combineOrDefault (libs : Libraries) (batches : List Deflated.Batch) :
    Except Panic (List Deflated.Batch) :=
  match combine libs batches with
  | .ok batches => .ok batches
  | .error (.error _) => .ok []
  | .error (.panic p) => .error p

/-- A ticket is a fresh UUID, which is here the position of its call. -/
structure BatchRequest where
  id : Nat
  request : ProduceRequest

/-- The partitions of the requests that come with records, in the order of the loops. -/
def recordsOf (requests : List BatchRequest) : List (Topition × List Deflated.Batch) :=
  requests.flatMap fun r => r.request.partitions.filterMap fun p => p.2.map (p.1, ·)

/-- `TopicPartitionBatch` -/
def topicPartitionBatch (requests : List BatchRequest) : BTreeMap Topition (List Deflated.Batch) :=
  (recordsOf requests).foldl (fun run p => run.alter p.1 fun old => some (old.getD [] ++ p.2)) ∅

/-- The acks and the transactional id of the requests are not read. -/
def produceRequest (libs : Libraries) (requests : List BatchRequest) :
    Except Panic ProduceRequest := do
  let run ← (topicPartitionBatch requests).toList.mapM fun p =>
    (combineOrDefault libs p.2).map (p.1, ·)
  pure
    { topicData := some ((byTopic run).map fun topic =>
        { name := topic.1
          partitionData := some (topic.2.map fun p => ⟨p.1, some p.2⟩) })
      timeoutMs := 5000 }

/-! ## Splitting -/

/-- `Owner::from`: the tickets of the requests with a partition, with records or without. -/
def owners (requests : List BatchRequest) : BTreeMap Topition (List Nat) :=
  (requests.flatMap fun r => r.request.topitions.map (·, r.id)).foldl
    (fun owners p => owners.alter p.1 fun ids => some ((ids.getD []).insert p.2)) ∅

/-- What the loops of `Owner::split` collect for every owner. -/
def collected (owners : BTreeMap Topition (List Nat)) (response : ProduceResponse) :
    BTreeMap Nat (BTreeMap Topition PartitionProduceResponse) :=
  response.partitions.foldl (fun responses p =>
    (owners[p.1]?.getD []).foldl (fun responses owner =>
      responses.alter owner fun own => some ((own.getD ∅).insert p.1 p.2)) responses) ∅

/-- `Owner::split` -/
def split (owners : BTreeMap Topition (List Nat)) (response : ProduceResponse) :
    BTreeMap Nat ProduceResponse :=
  (collected owners response).map fun _ own =>
    { responses := some ((byTopic own.toList).map fun topic =>
        { name := topic.1
          partitionResponses := some (topic.2.map Prod.snd) })
      throttleTimeMs := response.throttleTimeMs }

/-! ## The state -/

inductive BatchResponse
  | waker
  | response (response : ProduceResponse)

/-- What a call does after `send_pending_batch`, unless that gave it its answer: the queue held
enough records, or patience ran out. -/
inductive After
  | wait
  | again

inductive Phase
  /-- The request is not in the queue yet. -/
  | start
  /-- At the head of the loop. -/
  | check
  /-- `send_pending_batch` is called. -/
  | flush (after : After)
  /-- The queue is taken, and `request` is sent upstream. -/
  | sending (after : After) (queued : List BatchRequest) (request : ProduceRequest)
  /-- The upstream service has answered. -/
  | answering (after : After) (queued : List BatchRequest) (response : ProduceResponse)
  /-- In `select!`, for the ticket or the end of patience. -/
  | waiting
  /-- No call returns an error. -/
  | returned (response : ProduceResponse)
  | panicked

def After.phase : After → Phase
  | .wait => .waiting
  | .again => .check

structure Call where
  request : ProduceRequest
  maxRecords : Nat
  phase : Phase

/-- A request that the upstream service has answered, or failed with `none`, and the requests
that it was merged from. -/
structure Sent where
  queued : List BatchRequest
  request : ProduceRequest
  answer : Option ProduceResponse

/-- `sent` is a history, which no call reads. -/
structure World where
  calls : List Call
  requests : List BatchRequest
  responses : Nat → Option BatchResponse
  sent : List Sent

def World.init : World :=
  { calls := []
    requests := []
    responses := fun _ => none
    sent := [] }

namespace World

def setPhase (w : World) (i : Nat) (phase : Phase) : World :=
  { w with calls := w.calls.modify i fun c => { c with phase } }

/-- `requests.push(request)` -/
def push (w : World) (request : BatchRequest) : World :=
  { w with requests := w.requests ++ [request] }

/-- `mem::take` of the requests. -/
def drain (w : World) : World := { w with requests := [] }

def setResponse (w : World) (id : Nat) (response : Option BatchResponse) : World :=
  { w with responses := Function.update w.responses id response }

/-- `responses.insert(owner, Response(response))` for every owner. -/
def respond (w : World) (owners : BTreeMap Nat ProduceResponse) : World :=
  { w with responses := fun i => (owners[i]?.map BatchResponse.response).or (w.responses i) }

def record (w : World) (sent : Sent) : World := { w with sent := w.sent ++ [sent] }

def queuedRecords (w : World) : Nat := (w.requests.map fun r => r.request.numberOfRecords).sum

end World

/-! ## Steps -/

inductive Action
  /-- `config` is the maximum number of records configured for a topic at the time. -/
  | call (config : String → Option Nat) (request : ProduceRequest)
  | enqueue (i : Nat)
  | check (i : Nat)
  | take (i : Nat)
  /-- The upstream service answers, or fails with `none`. -/
  | upstream (i : Nat) (answer : Option ProduceResponse)
  | answer (i : Nat)
  /-- The ticket is polled. -/
  | poll (i : Nat)
  /-- Patience runs out. -/
  | expire (i : Nat)

section

variable (libs : Libraries)

def enqueue (w : World) (i : Nat) (c : Call) : Option World :=
  match c.phase with
  | .start => some ((w.push ⟨i, c.request⟩).setPhase i .check)
  | _ => none

/-- The head of the loop. -/
def check (w : World) (i : Nat) (c : Call) : Option World :=
  match c.phase with
  | .check =>
    if c.maxRecords ≤ w.queuedRecords then some (w.setPhase i (.flush .wait))
    else some (w.setPhase i .waiting)
  | _ => none

/-- The queue is taken and merged. -/
def take (w : World) (i : Nat) (c : Call) : Option World :=
  match c.phase with
  | .flush after =>
    if w.requests.isEmpty then some (w.setPhase i after.phase)
    else
      match produceRequest libs w.requests with
      | .error _ => some (w.drain.setPhase i .panicked)
      | .ok request => some (w.drain.setPhase i (.sending after w.requests request))
  | _ => none

/-- `service.serve`.  The `if let Ok(Some(..))` around `send_pending_batch` drops an error. -/
def upstream (w : World) (i : Nat) (c : Call) (answer : Option ProduceResponse) : Option World :=
  match c.phase with
  | .sending after queued request =>
    match answer with
    | none => some ((w.record ⟨queued, request, none⟩).setPhase i after.phase)
    | some response =>
      some ((w.record ⟨queued, request, some response⟩).setPhase i
        (.answering after queued response))
  | _ => none

/-- The rest of `send_pending_batch`, under the lock of the responses. -/
def answer (w : World) (i : Nat) (c : Call) : Option World :=
  match c.phase with
  | .answering after queued response =>
    match (split (owners queued) response)[i]? with
    | some own =>
      some (((w.setResponse i none).respond ((split (owners queued) response).erase i)).setPhase i
        (.returned own))
    | none => some ((w.respond (split (owners queued) response)).setPhase i after.phase)
  | _ => none

/-- `Ticket::poll`.  A waker that is there is removed, and no other is left in its place. -/
def poll (w : World) (i : Nat) (c : Call) : Option World :=
  match c.phase with
  | .waiting =>
    match w.responses i with
    | some (.response own) => some ((w.setResponse i none).setPhase i (.returned own))
    | some .waker => some (w.setResponse i none)
    | none => some (w.setResponse i (some .waker))
  | _ => none

def expire (w : World) (i : Nat) (c : Call) : Option World :=
  match c.phase with
  | .waiting => some (w.setPhase i (.flush .again))
  | _ => none

def step (w : World) : Action → Option World
  | .call config request =>
    some { w with calls := w.calls ++ [⟨request, request.maxRecords config, .start⟩] }
  | .enqueue i => w.calls[i]?.bind (enqueue w i)
  | .check i => w.calls[i]?.bind (check w i)
  | .take i => w.calls[i]?.bind (take libs w i)
  | .upstream i outcome => w.calls[i]?.bind fun c => upstream w i c outcome
  | .answer i => w.calls[i]?.bind (answer w i)
  | .poll i => w.calls[i]?.bind (poll w i)
  | .expire i => w.calls[i]?.bind (expire w i)

/-- Any number of calls on clones of one service. -/
def system : System World Action := ⟨step libs⟩

end

end Tansu.Proxy

import Tansu.Lib.System
import Tansu.Records.RoundTrip
import Tansu.Topition

/-!
# The produce request batcher

`ProduceRequestBatcher` of `batch.rs`, with a maximum delay set.  A call puts its batch
into a queue for its partition and producer id, and waits for an answer under its
ticket.  Whoever runs out of patience first, or finds the queue large enough, takes
the whole queue, combines it into one batch, produces that and leaves the offset for
all the owners.  Every use of a mutex and the request to the storage is a step.
-/

namespace Tansu.Storage.Batcher

open Tansu.Lib Tansu.Records

/-! ## Combining -/

/-- A record of `batch` behind those of `sink`, in the arithmetic of a release build. -/
def moved (sink batch : Inflated.Batch) (record : Record) : Record :=
  { record with
    offsetDelta := record.offsetDelta + sink.lastOffsetDelta + 1
    timestampDelta := record.timestampDelta + (sink.baseTimestamp - batch.baseTimestamp) }

/-- The body of the loop in `combine`. -/
def append (sink batch : Inflated.Batch) : Inflated.Batch :=
  { sink with
    records := sink.records ++ batch.records.map (moved sink batch)
    lastOffsetDelta := sink.lastOffsetDelta + (batch.lastOffsetDelta + 1)
    maxTimestamp :=
      if sink.maxTimestamp < batch.maxTimestamp then batch.maxTimestamp else sink.maxTimestamp }

def combine (libs : Libraries) : List Deflated.Batch → Except Fault (Option Deflated.Batch)
  | [] => .ok none
  | first :: rest => do
    let sink ← Inflated.Batch.tryFrom libs first
    let sink ← rest.foldlM (fun sink batch =>
      (Inflated.Batch.tryFrom libs batch).map (append sink)) sink
    let batch ← (Deflated.Batch.tryFromInflated libs sink).mapError .error
    pure (some batch)

/-! ## The state -/

structure TopitionProducerId where
  topition : Topition
  producerId : Int64
deriving DecidableEq

/-- A ticket is a fresh UUID, which is here the position of its call. -/
structure BatchRequest where
  id : Nat
  batch : Deflated.Batch

inductive BatchResponse
  | waker
  | response (offset : Int64)
deriving DecidableEq

/-- `E` are the errors of the storage. -/
inductive Error (E : Type)
  | record (fault : Fault)
  | storage (e : E)

/-- What a call does after `send_queued`: the queue was large enough, or patience ran out. -/
inductive After
  | wait
  | again

inductive Phase (E : Type)
  /-- The batch is not in the queue yet. -/
  | start
  /-- At the head of the loop. -/
  | check
  /-- `send_queued` is called. -/
  | flush (after : After)
  /-- The queue is taken. -/
  | sending (after : After) (queued : List BatchRequest)
  /-- The storage has answered. -/
  | answering (after : After) (owners : List Nat) (offset : Int64)
  /-- In `select!`, for the ticket or the end of patience. -/
  | waiting
  | returned (outcome : Except (Error E) Int64)

def After.phase {E : Type} : After → Phase E
  | .wait => .waiting
  | .again => .check

structure Call (E : Type) where
  transactionId : Option String
  topition : Topition
  batch : Deflated.Batch
  phase : Phase E

def Call.key {E : Type} (c : Call E) : TopitionProducerId := ⟨c.topition, c.batch.producerId⟩

/-- A batch that the storage holds, at `offset`.  `owners` are the calls it was combined from,
which the storage does not know. -/
structure Stored where
  owners : List Nat
  transactionId : Option String
  topition : Topition
  batch : Deflated.Batch
  offset : Int64

namespace Stored

/-- The last of the offsets that the batch takes. -/
def lastOffset (e : Stored) : Int := e.offset.toInt + e.batch.lastOffsetDelta.toInt

/-- Two batches do not take the same offset of a partition. -/
def apart (e e' : Stored) : Bool :=
  e.topition != e'.topition || e.lastOffset < e'.offset.toInt || e'.lastOffset < e.offset.toInt

end Stored

/-- The batch that call `c` has combined from `queued`, at the offset it was given. -/
def Call.stored {E : Type} (c : Call E) (queued : List BatchRequest) (batch : Deflated.Batch)
    (offset : Int64) : Stored :=
  { owners := queued.map BatchRequest.id
    transactionId := c.transactionId
    topition := c.topition
    batch
    offset }

structure World (E : Type) where
  calls : List (Call E)
  requests : TopitionProducerId → Option (List BatchRequest)
  responses : Nat → Option BatchResponse
  log : List Stored

def World.init (E : Type) : World E :=
  { calls := []
    requests := fun _ => none
    responses := fun _ => none
    log := [] }

namespace World

variable {E : Type}

def setPhase (w : World E) (i : Nat) (phase : Phase E) : World E :=
  { w with calls := w.calls.modify i fun c => { c with phase } }

def setRequests (w : World E) (key : TopitionProducerId) (queue : Option (List BatchRequest)) :
    World E :=
  { w with requests := Function.update w.requests key queue }

/-- `requests.entry(key).or_default().push(request)` -/
def push (w : World E) (key : TopitionProducerId) (request : BatchRequest) : World E :=
  w.setRequests key (some ((w.requests key).getD [] ++ [request]))

def setResponse (w : World E) (id : Nat) (response : Option BatchResponse) : World E :=
  { w with responses := Function.update w.responses id response }

/-- `responses.insert(owner, Response(offset))` for every owner. -/
def respond (w : World E) (owners : List Nat) (offset : Int64) : World E :=
  owners.foldl (fun w owner => w.setResponse owner (some (.response offset))) w

def queuedBytes (w : World E) (key : TopitionProducerId) : Nat :=
  (((w.requests key).getD []).map fun r => r.batch.recordData.length).sum

end World

/-! ## Steps -/

inductive Action (E : Type)
  | call (transactionId : Option String) (topition : Topition) (batch : Deflated.Batch)
  | enqueue (i : Nat)
  | check (i : Nat)
  | take (i : Nat)
  /-- The queue is combined and produced, which the storage answers. -/
  | produce (i : Nat) (answer : Except E Int64)
  | answer (i : Nat)
  /-- The ticket is polled. -/
  | poll (i : Nat)
  /-- Patience runs out. -/
  | expire (i : Nat)

section

variable {E : Type} (libs : Libraries) (minimumSize : Option Nat)

/-- `enqueue`, for a call that has not queued its batch yet. -/
def enqueue (w : World E) (i : Nat) (c : Call E) : Option (World E) :=
  match c.phase with
  | .start => some ((w.push c.key ⟨i, c.batch⟩).setPhase i .check)
  | _ => none

/-- The head of the loop. -/
def check (w : World E) (i : Nat) (c : Call E) : Option (World E) :=
  match c.phase with
  | .check =>
    if minimumSize.any fun size => size < w.queuedBytes c.key then
      some (w.setPhase i (.flush .wait))
    else
      some (w.setPhase i .waiting)
  | _ => none

/-- `requests.remove(key)`. -/
def take (w : World E) (i : Nat) (c : Call E) : Option (World E) :=
  match c.phase with
  | .flush after =>
    match w.requests c.key with
    | none => some (w.setPhase i after.phase)
    | some queued => some ((w.setRequests c.key none).setPhase i (.sending after queued))
  | _ => none

/-- `storage.produce`.  The storage gives no offset twice in one partition. -/
def produce (w : World E) (i : Nat) (c : Call E) (answer : Except E Int64) : Option (World E) :=
  match c.phase with
  | .sending after queued =>
    match combine libs (queued.map BatchRequest.batch) with
    | .error fault => some (w.setPhase i (.returned (.error (.record fault))))
    | .ok none => some (w.setPhase i after.phase)
    | .ok (some batch) =>
      match answer with
      | .error e => some (w.setPhase i (.returned (.error (.storage e))))
      | .ok offset =>
        if w.log.all (c.stored queued batch offset).apart then
          some ({ w with log := w.log ++ [c.stored queued batch offset] }.setPhase i
            (.answering after (queued.map BatchRequest.id) offset))
        else none
  | _ => none

def answer (w : World E) (i : Nat) (c : Call E) : Option (World E) :=
  match c.phase with
  | .answering after owners offset => some ((w.respond owners offset).setPhase i after.phase)
  | _ => none

/-- `Ticket::poll`. -/
def poll (w : World E) (i : Nat) (c : Call E) : Option (World E) :=
  match c.phase with
  | .waiting =>
    match w.responses i with
    | some (.response offset) => some ((w.setResponse i none).setPhase i (.returned (.ok offset)))
    | _ => some (w.setResponse i (some .waker))
  | _ => none

def expire (w : World E) (i : Nat) (c : Call E) : Option (World E) :=
  match c.phase with
  | .waiting => some (w.setPhase i (.flush .again))
  | _ => none

def step (w : World E) : Action E → Option (World E)
  | .call transactionId topition batch =>
    some { w with calls := w.calls ++ [⟨transactionId, topition, batch, .start⟩] }
  | .enqueue i => w.calls[i]?.bind (enqueue w i)
  | .check i => w.calls[i]?.bind (check minimumSize w i)
  | .take i => w.calls[i]?.bind (take w i)
  | .produce i outcome => w.calls[i]?.bind fun c => produce libs w i c outcome
  | .answer i => w.calls[i]?.bind (answer w i)
  | .poll i => w.calls[i]?.bind (poll w i)
  | .expire i => w.calls[i]?.bind (expire w i)

/-- Any number of calls on clones of one batcher. -/
def system : System (World E) (Action E) := ⟨step libs minimumSize⟩

end

end Tansu.Storage.Batcher

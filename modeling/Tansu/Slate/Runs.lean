import Tansu.Lib.System
import Tansu.Slate.Engine

/-!
# Runs of the SlateDB engine

The operations of one engine, one after the other.  An operation that fails leaves the
state as it is.
-/

namespace Tansu.Slate

open Std Tansu.Lib
open Tansu.Nvme (Topition Topic Group Batch CoordState TxnDetail TxnCommitOffset TopicId
  TopicMetadata CreatableTopic Txn)

inductive Action
  /-- `id` is the new UUID. -/
  | createTopic (id : Nat) (topic : CreatableTopic)
  | deleteTopic (topic : TopicId)
  | deleteRecords (tp : Topition) (offset : Int)
  /-- `maintain`: the cleanup policies leave these of the batches and watermarks there are,
  perhaps with other values. -/
  | maintain (batches : BTreeMap (Nat × Int × Int) Batch)
      (watermarks : BTreeMap (Nat × Int) Watermark)
  | produce (transactionId : Option String) (tp : Topition) (b : Batch)
  | offsetCommit (group : Group) (tp : Topition) (value : TxnCommitOffset)
  | deleteGroup (group : Group)
  | initProducer (transactionId : Option String) (transactionTimeoutMs : Int)
      (producerId producerEpoch : Option Int) (now : Int)
  | txnAddPartitions (t : String) (producerId producerEpoch : Int) (partitions : List Topition)
  | txnOffsetCommit (t : String) (producerId producerEpoch : Int) (group : Group)
      (offsets : List (Topition × TxnCommitOffset))
  | txnEnd (t : String) (producerId producerEpoch : Int) (committed : Bool)

/-- `issued` are the UUIDs of all the topics there have been. -/
structure World where
  state : State := {}
  issued : List Nat := []

/-- What an operation other than `create_topic` makes of the state. -/
def State.after [SlateDb] (s : State) : Action → State
  | .createTopic .. => s
  | .deleteTopic topic => (deleteTopic s topic).1
  | .deleteRecords tp offset => (deleteRecords s tp offset).1
  | .maintain batches watermarks => { s with batches, watermarks }
  | .produce transactionId tp b =>
    match produce s transactionId tp b with
    | .ok (s, _) => s
    | .error _ => s
  | .offsetCommit group tp value => (offsetCommit s group tp value).1
  | .deleteGroup group => (deleteGroup s group).1
  | .initProducer transactionId timeout producerId producerEpoch now =>
    (initProducer s transactionId timeout producerId producerEpoch now).1
  | .txnAddPartitions t producerId producerEpoch partitions =>
    (txnAddPartitions s t producerId producerEpoch partitions).1
  | .txnOffsetCommit t producerId producerEpoch group offsets =>
    (txnOffsetCommit s t producerId producerEpoch group offsets).1
  | .txnEnd t producerId producerEpoch committed =>
    match txnEnd s t producerId producerEpoch committed with
    | .ok s => s
    | .error _ => s

def step [SlateDb] (w : World) : Action → Option World
  | .createTopic id topic =>
    -- no UUID is given out twice
    if id < 2 ^ 128 ∧ id ∉ w.issued then
      some { state := match createTopic w.state id topic with
              | .ok s => s
              | .error _ => w.state
             issued := id :: w.issued }
    else none
  | .maintain batches watermarks =>
    if (batches.keys.all fun k => decide (k ∈ w.state.batches)) ∧
        watermarks.keys.all fun k => decide (k ∈ w.state.watermarks) then
      some { w with state := w.state.after (.maintain batches watermarks) }
    else none
  | a => some { w with state := w.state.after a }

def system [SlateDb] : System World Action := ⟨step⟩

end Tansu.Slate

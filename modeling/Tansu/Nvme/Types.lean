import Tansu.Lib.OrdMap

/-!
# Shared types of the storage engine

The types of `tansu-storage` and `tansu-sans-io` that the `nvme` engine reads:
topic partitions, error codes, batch attributes and the part of a deflated
batch that the engine looks at.  Offsets, ids, epochs and sequences are
integers, and times are milliseconds since the Unix epoch.  Sequences, epochs
and the disk usage wrap at their width as in the code; offsets do not, so that
the model is the code's as long as they stay below `2 ^ 63`.
-/

namespace Tansu.Nvme

open Std Tansu.Lib

abbrev Group := String
abbrev Topic := String

/-- `i16` arithmetic of a release build. -/
def wrapI16 (n : Int) : Int := n.bmod (2 ^ 16)

/-- `i32` arithmetic of a release build. -/
def wrapI32 (n : Int) : Int := n.bmod (2 ^ 32)

structure Topition where
  topic : Topic
  partition : Int
deriving DecidableEq

namespace Topition

/-- Topitions are ordered by topic, then by partition. -/
instance : Ord Topition := ⟨compareOn fun tp => (tp.topic, tp.partition)⟩

instance : TransOrd Topition :=
  inferInstanceAs (TransCmp (compareOn fun tp : Topition => (tp.topic, tp.partition)))

instance : LawfulEqOrd Topition :=
  lawfulEqCmp_compareOn (fun tp : Topition => (tp.topic, tp.partition)) fun a b h => by
    cases a; cases b; simpa using h

/-- The directory name `<topic>-<partition:0>10>` is one that recovery's pattern
`^(.+)-(\d{10})$` finds again among the entries of the topics directory. -/
def recognised (tp : Topition) : Bool :=
  decide (0 ≤ tp.partition) && !tp.topic.isEmpty &&
    tp.topic.toList.all fun c => c != '/' && c != '\n'

end Topition

inductive ErrorCode
  | none
  | unknownServerError
  | offsetOutOfRange
  | unknownTopicOrPartition
  | topicAlreadyExists
  | outOfOrderSequenceNumber
  | duplicateSequenceNumber
  | producerFenced
  | invalidTxnState
  | kafkaStorageError
  | unknownProducerId
  | groupIdNotFound
  | transactionalIdNotFound
deriving DecidableEq

/-- The errors of `tansu-storage` that the engine returns.  The text of a
`message` stops where the operating system's own text would start. -/
inductive Error
  | api (code : ErrorCode)
  | message (text : String)
  | unknownCompressionType (bits : Nat)
  | invalidOpType (op : Int)
  | outdated
deriving DecidableEq

/-! ## Batches -/

inductive Compression
  | none
  | gzip
  | snappy
  | lz4
  | zstd
deriving DecidableEq

inductive TimestampType
  | createTime
  | logAppendTime
deriving DecidableEq

structure BatchAttribute where
  compression : Compression
  timestamp : TimestampType
  transaction : Bool
  control : Bool
  deleteHorizon : Bool
deriving DecidableEq

def Compression.tryFrom (value : BitVec 16) : Except Error Compression :=
  match (value &&& 7#16).toNat with
  | 0 => .ok .none
  | 1 => .ok .gzip
  | 2 => .ok .snappy
  | 3 => .ok .lz4
  | 4 => .ok .zstd
  | otherwise => .error (.unknownCompressionType otherwise)

def BatchAttribute.tryFrom (value : BitVec 16) : Except Error BatchAttribute :=
  (Compression.tryFrom value).map fun compression =>
    { compression
      timestamp := if value &&& 8#16 = 8#16 then .logAppendTime else .createTime
      transaction := decide (value &&& 16#16 = 16#16)
      control := decide (value &&& 32#16 = 32#16)
      deleteHorizon := decide (value &&& 64#16 = 64#16) }

/-- The records of a batch.  The engine never looks inside a client's records,
so only their encoded length is kept. -/
inductive RecordData
  | client (len : Nat)
  | endTransactionMarker (committed : Bool)
deriving DecidableEq

/-- A deflated batch, as far as the engine reads it. -/
structure Batch where
  attributes : BitVec 16
  lastOffsetDelta : Int
  maxTimestamp : Int
  producerId : Int
  producerEpoch : Int
  baseSequence : Int
  recordData : RecordData
deriving DecidableEq

namespace Batch

def isIdempotent (b : Batch) : Bool := b.producerId != -1 && b.baseSequence != -1

/-- Length of the encoded batch: the 61 bytes of the header, then the records.
An end marker is a single record with a 4 byte key and a 6 byte value. -/
def size (b : Batch) : Nat :=
  61 + match b.recordData with
    | .client len => len
    | .endTransactionMarker _ => 17

/-- Length of the batch in a segment: the 12 bytes of the frame header and the
8 bytes of the base offset precede it. -/
def framedLen (b : Batch) : Nat := 12 + (8 + b.size)

end Batch

end Tansu.Nvme

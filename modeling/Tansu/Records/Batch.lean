import Tansu.Records.Codec

/-!
# Batches

An inflated batch holds records, a deflated one their bytes, compressed as the
attributes say.  The compression libraries and the checksum are given from
outside.
-/

namespace Tansu.Records

open Lib

/-- A compression library.  Its decoder reads as it goes: `inflate` fails when the decoder cannot
be built, and otherwise gives what can be read before the end or the first failure, both of
which the reader sees as an I/O error once it asks for more. -/
structure Compressor where
  deflate : Bytes → Except Error Bytes
  inflate : Bytes → Except Error Bytes

structure Libraries where
  crc32c : Bytes → UInt32
  gzip : Compressor
  lz4 : Compressor
  zstd : Compressor
  /-- `snap::raw::Decoder::decompress_vec` -/
  snappy : Bytes → Except Error Bytes

/-! ## Compression -/

inductive Compression
  | none
  | gzip
  | snappy
  | lz4
  | zstd
deriving DecidableEq

namespace Compression

/-- The low three bits of the attributes. -/
def tryFrom (value : Int16) : Except Error Compression :=
  let bits := value &&& 0b111
  if bits = 0 then .ok .none
  else if bits = 1 then .ok .gzip
  else if bits = 2 then .ok .snappy
  else if bits = 3 then .ok .lz4
  else if bits = 4 then .ok .zstd
  else .error (.unknownCompressionType bits)

/-- `b"\x82SNAPPY\0"` -/
def snappyMagic : Bytes := [0x82, 0x53, 0x4e, 0x41, 0x50, 0x50, 0x59, 0x00]

/-- `split_at`, for the part behind. -/
def splitAt (n : Nat) (bs : Bytes) : Except Fault Bytes :=
  if n ≤ bs.length then .ok (bs.drop n) else .error (.panic .splitAt)

/-- The frame of snappy-java is skipped: the magic and three integers. -/
def skipSnappyHeader (input : Bytes) : Except Fault Bytes :=
  if snappyMagic.isPrefixOf input then do
    let remainder ← splitAt 8 input
    let remainder ← splitAt 4 remainder
    let remainder ← splitAt 4 remainder
    let _ ← splitAt 4 remainder
    if 20 ≤ input.length then .ok (input.drop 20) else .error (.panic .slice)
  else
    .ok input

/-- What the reader that `inflator` returns yields. -/
def inflator (libs : Libraries) (deflated : Bytes) : Compression → Except Fault Bytes
  | .none => .ok deflated
  | .gzip => (libs.gzip.inflate deflated).mapError .error
  | .snappy => do
    let input ← skipSnappyHeader deflated
    (libs.snappy input).mapError .error
  | .lz4 => (libs.lz4.inflate deflated).mapError .error
  | .zstd => (libs.zstd.inflate deflated).mapError .error

end Compression

/-! ## The batches -/

/-- `inflated::Batch`; its length and checksum are recomputed when it is deflated. -/
structure Inflated.Batch where
  baseOffset : Int64
  batchLength : Int32
  partitionLeaderEpoch : Int32
  magic : Int8
  crc : UInt32
  attributes : Int16
  lastOffsetDelta : Int32
  baseTimestamp : Int64
  maxTimestamp : Int64
  producerId : Int64
  producerEpoch : Int16
  baseSequence : Int32
  records : List Record
deriving DecidableEq

namespace Deflated

structure Batch where
  baseOffset : Int64
  batchLength : Int32
  partitionLeaderEpoch : Int32
  magic : Int8
  crc : UInt32
  attributes : Int16
  lastOffsetDelta : Int32
  baseTimestamp : Int64
  maxTimestamp : Int64
  producerId : Int64
  producerEpoch : Int16
  baseSequence : Int32
  recordCount : UInt32
  recordData : Bytes
deriving DecidableEq

/-- The bytes behind the base offset and the batch length, apart from the record data. -/
def fixedBatchLength : Nat := 4 + 1 + 4 + 2 + 4 + 8 + 8 + 8 + 2 + 4 + 4

/-! ### Bytes -/

/-- The fields as they are written. -/
def Batch.wire (b : Batch) : Bytes :=
  put b.baseOffset ++ (put b.batchLength ++ (put b.partitionLeaderEpoch ++ (put b.magic ++
    (put b.crc ++ (put b.attributes ++ (put b.lastOffsetDelta ++ (put b.baseTimestamp ++
    (put b.maxTimestamp ++ (put b.producerId ++ (put b.producerEpoch ++ (put b.baseSequence ++
    (put b.recordCount ++ b.recordData))))))))))))

/-- `From<Batch> for Bytes`.  The buffer is sized by the batch length, cast to `usize`: a
negative one overflows the sum or the capacity. -/
def Batch.toBytes (b : Batch) : Except Fault Bytes :=
  let capacity := asUsize b.batchLength + 8
  if 2 ^ 64 ≤ capacity then .error (.panic .arithmetic)
  else if 2 ^ 63 ≤ capacity then .error (.panic .capacity)
  else .ok b.wire

/-- `usize::try_from(batch_length)`, less a number of bytes. -/
def remaining (batchLength : Int32) (less : Nat) : De Nat :=
  if batchLength < 0 then Decoder.fail (.error .tryFromInt)
  else if batchLength.toNatClampNeg < less then Decoder.fail (.error .overflow)
  else pure (batchLength.toNatClampNeg - less)

/-- The body of `TryFrom<Bytes>`: the batch, and the checksum it computes.  A checksum that
differs is logged and otherwise ignored. -/
def Batch.read (libs : Libraries) : De (Batch × UInt32) := do
  let baseOffset ← get (.error .tryGet)
  let batchLength ← get (.error .tryGet)
  let partitionLeaderEpoch ← get (.error .tryGet)
  let magic ← get (.error .tryGet)
  let crc ← get (.error .tryGet)
  let crcDataSize ← remaining batchLength (4 + 1 + 4)
  let crcData ← Decoder.peek (.error .overflow) crcDataSize
  let computed := libs.crc32c crcData
  let attributes ← get (.error .tryGet)
  let lastOffsetDelta ← get (.error .tryGet)
  let baseTimestamp ← get (.error .tryGet)
  let maxTimestamp ← get (.error .tryGet)
  let producerId ← get (.error .tryGet)
  let producerEpoch ← get (.error .tryGet)
  let baseSequence ← get (.error .tryGet)
  let recordCount ← get (.error .tryGet)
  let recordDataSize ← remaining batchLength fixedBatchLength
  let recordData ← Decoder.takeExact (.error .overflow) recordDataSize
  pure ({ baseOffset, batchLength, partitionLeaderEpoch, magic, crc, attributes, lastOffsetDelta,
          baseTimestamp, maxTimestamp, producerId, producerEpoch, baseSequence, recordCount,
          recordData }, computed)

/-- `TryFrom<Bytes> for Batch`. -/
def Batch.tryFrom (libs : Libraries) (encoded : Bytes) : Except Fault Batch :=
  (Batch.read libs encoded).map fun out => out.1.1

/-- The checksum that `TryFrom<Bytes>` computes. -/
def Batch.computedCrc (libs : Libraries) (encoded : Bytes) : Except Fault UInt32 :=
  (Batch.read libs encoded).map fun out => out.1.2

/-! ### Deflating -/

/-- `CrcData`: the part of a batch that the checksum is over. -/
structure CrcData where
  attributes : Int16
  lastOffsetDelta : Int32
  baseTimestamp : Int64
  maxTimestamp : Int64
  producerId : Int64
  producerEpoch : Int16
  baseSequence : Int32
  recordCount : UInt32
  recordData : Bytes

def CrcData.toBytes (c : CrcData) : Bytes :=
  put c.attributes ++ (put c.lastOffsetDelta ++ (put c.baseTimestamp ++ (put c.maxTimestamp ++
    (put c.producerId ++ (put c.producerEpoch ++ (put c.baseSequence ++ (put c.recordCount ++
    c.recordData)))))))

def CrcData.intoBatch (libs : Libraries) (c : CrcData) (baseOffset : Int64)
    (partitionLeaderEpoch : Int32) (magic : Int8) : Except Error Batch :=
  let crc := libs.crc32c c.toBytes
  if fixedBatchLength + c.recordData.length < 2 ^ 31 then
    .ok { baseOffset
          batchLength := Int32.ofNat (fixedBatchLength + c.recordData.length)
          partitionLeaderEpoch
          magic
          crc
          attributes := c.attributes
          lastOffsetDelta := c.lastOffsetDelta
          baseTimestamp := c.baseTimestamp
          maxTimestamp := c.maxTimestamp
          producerId := c.producerId
          producerEpoch := c.producerEpoch
          baseSequence := c.baseSequence
          recordCount := c.recordCount
          recordData := c.recordData }
  else
    .error .tryFromInt

/-- `into_record_data`: there is no compressor for snappy. -/
def intoRecordData (libs : Libraries) (records : List Record) (compression : Compression) :
    Except Error Bytes := do
  let _ ← records.mapM Record.sizeInBytes
  match compression with
  | .none => encodeRecords records
  | .gzip => do
    let uncompressed ← encodeRecords records
    libs.gzip.deflate uncompressed
  | .lz4 => do
    let uncompressed ← encodeRecords records
    libs.lz4.deflate uncompressed
  | .zstd => do
    let uncompressed ← encodeRecords records
    libs.zstd.deflate uncompressed
  | .snappy => .error (.unexpectedType "Snappy")

/-- `u32::try_from(records.len())`. -/
def recordCountOf (records : List Record) : Except Error UInt32 :=
  if records.length < 2 ^ 32 then .ok (UInt32.ofNat records.length) else .error .tryFromInt

/-- `TryFrom<inflated::Batch> for Batch`. -/
def Batch.tryFromInflated (libs : Libraries) (b : Inflated.Batch) : Except Error Batch := do
  let recordCount ← recordCountOf b.records
  let compression ← Compression.tryFrom b.attributes
  let recordData ← intoRecordData libs b.records compression
  CrcData.intoBatch libs
    { attributes := b.attributes
      lastOffsetDelta := b.lastOffsetDelta
      baseTimestamp := b.baseTimestamp
      maxTimestamp := b.maxTimestamp
      producerId := b.producerId
      producerEpoch := b.producerEpoch
      baseSequence := b.baseSequence
      recordCount
      recordData } b.baseOffset b.partitionLeaderEpoch b.magic

/-! ### Inflating -/

/-- Inflate the record data and read the records through serde. -/
def Batch.inflate (libs : Libraries) (b : Batch) : Except Fault (List Record) := do
  let compression ← (Compression.tryFrom b.attributes).mapError .error
  let inflated ← compression.inflator libs b.recordData
  (Decoder.many Record.deserialize b.recordCount.toNat inflated).map Prod.fst

/-- `TryFrom<&Batch> for Vec<Record>`. -/
def Batch.recordsByRef (libs : Libraries) (b : Batch) : Except Fault (List Record) :=
  b.inflate libs

/-- `TryFrom<Batch> for Vec<Record>`: without compression, through the `Decode` trait. -/
def Batch.records (libs : Libraries) (b : Batch) : Except Fault (List Record) :=
  if Compression.tryFrom b.attributes = .ok .none then
    (Decoder.many Record.decode b.recordCount.toNat b.recordData).map Prod.fst
  else
    b.inflate libs

end Deflated

/-! ## Attributes -/

inductive TimestampType
  | createTime
  | logAppendTime
deriving DecidableEq

structure BatchAttribute where
  compression : Compression
  timestamp : TimestampType
  transaction : Bool
  control : Bool
  deleteHorizon : Bool
deriving DecidableEq

/-- `i16::from(compression)`. -/
def Compression.toInt16 : Compression → Int16
  | .none => 0
  | .gzip => 1
  | .snappy => 2
  | .lz4 => 3
  | .zstd => 4

namespace TimestampType

def ofInt16 (value : Int16) : TimestampType :=
  if value &&& 8 = 8 then .logAppendTime else .createTime

def toInt16 : TimestampType → Int16
  | .createTime => 0
  | .logAppendTime => 8

end TimestampType

namespace BatchAttribute

/-- `TryFrom<i16> for BatchAttribute`. -/
def tryFrom (value : Int16) : Except Error BatchAttribute := do
  let compression ← Compression.tryFrom value
  pure
    { compression
      timestamp := .ofInt16 value
      transaction := value &&& 16 = 16
      control := value &&& 32 = 32
      deleteHorizon := value &&& 64 = 64 }

/-- `From<BatchAttribute> for i16`. -/
def toInt16 (a : BatchAttribute) : Int16 :=
  a.compression.toInt16 ||| a.timestamp.toInt16 ||| (if a.transaction then 16 else 0) |||
    (if a.control then 32 else 0) ||| (if a.deleteHorizon then 64 else 0)

end BatchAttribute

/-- `TryFrom<deflated::Batch> for inflated::Batch`: the compression is dropped from the attributes
and the rest of the header is kept. -/
def Inflated.Batch.tryFrom (libs : Libraries) (b : Deflated.Batch) :
    Except Fault Inflated.Batch := do
  let attributes ← (BatchAttribute.tryFrom b.attributes).mapError .error
  let records ← b.records libs
  pure
    { baseOffset := b.baseOffset
      batchLength := b.batchLength
      partitionLeaderEpoch := b.partitionLeaderEpoch
      magic := b.magic
      crc := b.crc
      attributes := { attributes with compression := .none }.toInt16
      lastOffsetDelta := b.lastOffsetDelta
      baseTimestamp := b.baseTimestamp
      maxTimestamp := b.maxTimestamp
      producerId := b.producerId
      producerEpoch := b.producerEpoch
      baseSequence := b.baseSequence
      records }

end Tansu.Records

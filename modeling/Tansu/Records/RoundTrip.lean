import Tansu.Records.Wire
import Tansu.Records.Batch

/-!
# A batch is read back as it was deflated

Deflating succeeds exactly when every length fits the integer it is written as.
The batch it then gives survives its own bytes, with the checksum that reading
them computes, and both ways of inflating it return the records.
-/

namespace Tansu.Records

open Lib

/-! ## The compression libraries -/

/-- Compressing never fails, and what was compressed inflates to itself. -/
def Compressor.Inverse (c : Compressor) : Prop :=
  ∀ bs, ∃ out, c.deflate bs = .ok out ∧ c.inflate out = .ok bs

structure Libraries.Inverse (libs : Libraries) : Prop where
  gzip : libs.gzip.Inverse
  lz4 : libs.lz4.Inverse
  zstd : libs.zstd.Inverse

namespace Deflated

variable {libs : Libraries} {compression : Compression} {records : List Record} {data : Bytes}

theorem intoRecordData_of_not_fits (h : ¬ ∀ r ∈ records, r.Fits) :
    intoRecordData libs records compression = .error .tryFromInt := by
  rw [intoRecordData.eq_def, mapM_sizeInBytes_eq, if_neg h]
  rfl

/-- Records that fit become some record data, which inflates to their bytes. -/
theorem exists_intoRecordData (hlibs : libs.Inverse) (hc : compression ≠ .snappy)
    (h : ∀ r ∈ records, r.Fits) :
    ∃ data, intoRecordData libs records compression = .ok data ∧
      compression.inflator libs data = .ok (records.flatMap Record.wire) := by
  have hencode : encodeRecords records = .ok (records.flatMap Record.wire) := by
    rw [encodeRecords_eq, if_pos h]
  rw [intoRecordData.eq_def, mapM_sizeInBytes_eq, if_pos h, hencode]
  -- the compressors differ only in the library that is asked
  have hlib : ∀ c : Compressor, c.Inverse →
      ∃ data, c.deflate (records.flatMap Record.wire) = .ok data ∧
        (c.inflate data).mapError Fault.error = .ok (records.flatMap Record.wire) := by
    intro c hinverse
    obtain ⟨out, hdeflate, hinflate⟩ := hinverse (records.flatMap Record.wire)
    exact ⟨out, hdeflate, by rw [hinflate]; rfl⟩
  cases compression with
  | none => exact ⟨_, rfl, rfl⟩
  | gzip => exact hlib _ hlibs.gzip
  | snappy => exact absurd rfl hc
  | lz4 => exact hlib _ hlibs.lz4
  | zstd => exact hlib _ hlibs.zstd

/-! ## Bytes -/

/-- The part of a batch behind its checksum. -/
def Batch.crcData (b : Batch) : CrcData :=
  { attributes := b.attributes
    lastOffsetDelta := b.lastOffsetDelta
    baseTimestamp := b.baseTimestamp
    maxTimestamp := b.maxTimestamp
    producerId := b.producerId
    producerEpoch := b.producerEpoch
    baseSequence := b.baseSequence
    recordCount := b.recordCount
    recordData := b.recordData }

theorem CrcData.length_toBytes (c : CrcData) : c.toBytes.length = 40 + c.recordData.length := by
  simp only [CrcData.toBytes, List.length_append, length_put, FixedWidth.size]
  omega

theorem Batch.length_wire (b : Batch) : b.wire.length = 61 + b.recordData.length := by
  simp only [Batch.wire, List.length_append, length_put, FixedWidth.size]
  omega

/-- What deflating makes sure of: the length and the checksum are those of the batch. -/
structure Batch.Sealed (libs : Libraries) (b : Batch) : Prop where
  fits : fixedBatchLength + b.recordData.length < 2 ^ 31
  batchLength : b.batchLength = Int32.ofNat (fixedBatchLength + b.recordData.length)
  crc : b.crc = libs.crc32c b.crcData.toBytes

variable {b : Batch}

theorem remaining_eq {n less : Nat} (hn : n < 2 ^ 31) (hless : less ≤ n) :
    remaining (Int32.ofNat n) less = pure (n - less) := by
  obtain ⟨-, hsign, -, hlength⟩ := length_facts hn
  rw [remaining, if_neg hsign, hlength, if_neg (by omega)]

theorem Batch.Sealed.toBytes_eq (h : b.Sealed libs) : b.toBytes = .ok b.wire := by
  have hfits := h.fits
  obtain ⟨-, -, husize, -⟩ := length_facts hfits
  rw [Batch.toBytes, h.batchLength, husize, if_neg (by omega), if_neg (by omega)]

/-- The bytes of a sealed batch are read back, and the checksum computed is the one in them. -/
theorem Batch.Sealed.reads (h : b.Sealed libs) :
    Decoder.Reads (Batch.read libs) b.wire (b, b.crc) := by
  have hcrcSize : remaining b.batchLength (4 + 1 + 4) = pure b.crcData.toBytes.length := by
    rw [h.batchLength, remaining_eq h.fits (by simp only [fixedBatchLength]; omega),
      CrcData.length_toBytes]
    congr 1
    simp only [fixedBatchLength, Batch.crcData]
    omega
  have hdataSize : remaining b.batchLength fixedBatchLength = pure b.recordData.length := by
    rw [h.batchLength, remaining_eq h.fits (by omega), Nat.add_sub_cancel_left]
  refine (reads_get _ _).bind <| (reads_get _ _).bind <| (reads_get _ _).bind <|
    (reads_get _ _).bind <| (reads_get _ _).bind ?_
  rw [hcrcSize, pure_bind]
  -- the checksum looks ahead at all that is left of the batch
  refine Decoder.Reads.peek _ rfl ?_
  refine (reads_get _ _).bind <| (reads_get _ _).bind <| (reads_get _ _).bind <|
    (reads_get _ _).bind <| (reads_get _ _).bind <| (reads_get _ _).bind <|
    (reads_get _ _).bind <| (reads_get _ _).bind ?_
  rw [hdataSize, pure_bind, h.crc]
  exact (Decoder.Reads.takeExact _ _).bind_nil (h.crc ▸ .pure _)

theorem Batch.Sealed.read_wire (h : b.Sealed libs) :
    Batch.read libs b.wire = .ok ((b, b.crc), []) := by
  simpa using h.reads []

/-! ## Deflating -/

/-- The sizes that deflating checks. -/
structure Fits (libs : Libraries) (compression : Compression) (records : List Record) : Prop where
  count : records.length < 2 ^ 32
  each : ∀ r ∈ records, r.Fits
  total : ∀ data, intoRecordData libs records compression = .ok data →
    fixedBatchLength + data.length < 2 ^ 31

variable {batch : Inflated.Batch}

/-- What the checksum of a batch deflated to `data` is over. -/
def crcDataOf (batch : Inflated.Batch) (data : Bytes) : CrcData :=
  { attributes := batch.attributes
    lastOffsetDelta := batch.lastOffsetDelta
    baseTimestamp := batch.baseTimestamp
    maxTimestamp := batch.maxTimestamp
    producerId := batch.producerId
    producerEpoch := batch.producerEpoch
    baseSequence := batch.baseSequence
    recordCount := UInt32.ofNat batch.records.length
    recordData := data }

theorem tryFromInflated_of_not_fits
    (hc : Compression.tryFrom batch.attributes = .ok compression)
    (h : ¬ ∀ r ∈ batch.records, r.Fits) :
    Batch.tryFromInflated libs batch = .error .tryFromInt := by
  rw [Batch.tryFromInflated, hc, recordCountOf]
  by_cases hcount : batch.records.length < 2 ^ 32
  · rw [if_pos hcount]
    change (intoRecordData libs batch.records compression >>= _) = _
    rw [intoRecordData_of_not_fits h]
    rfl
  · rw [if_neg hcount]
    rfl

variable {d : Batch} {c : CrcData} {baseOffset : Int64} {partitionLeaderEpoch : Int32}
  {magic : Int8}

/-- What a deflated batch is made of. -/
theorem tryFromInflated_eq_ok (hc : Compression.tryFrom batch.attributes = .ok compression) :
    Batch.tryFromInflated libs batch = .ok d ↔
      batch.records.length < 2 ^ 32 ∧
      ∃ data, intoRecordData libs batch.records compression = .ok data ∧
        (crcDataOf batch data).intoBatch libs batch.baseOffset batch.partitionLeaderEpoch
          batch.magic = .ok d := by
  rw [Batch.tryFromInflated, hc, recordCountOf]
  by_cases hcount : batch.records.length < 2 ^ 32
  · rw [if_pos hcount]
    change (intoRecordData libs batch.records compression >>= _) = _ ↔ _
    cases hdata : intoRecordData libs batch.records compression with
    | error e =>
      refine ⟨fun h => ?_, fun ⟨_, data, hok, _⟩ => by cases hok⟩
      change Except.error e = Except.ok d at h
      cases h
    | ok data =>
      refine ⟨fun h => ⟨hcount, data, rfl, h⟩, fun ⟨_, data', hok, h⟩ => ?_⟩
      cases hok
      exact h
  · rw [if_neg hcount]
    refine ⟨fun h => ?_, fun h => absurd h.1 hcount⟩
    change Except.error Error.tryFromInt = Except.ok d at h
    cases h

theorem CrcData.intoBatch_eq_ok
    (h : c.intoBatch libs baseOffset partitionLeaderEpoch magic = .ok d) :
    d.Sealed libs ∧ d.crcData = c := by
  rw [CrcData.intoBatch] at h
  by_cases hfits : fixedBatchLength + c.recordData.length < 2 ^ 31
  · rw [if_pos hfits] at h
    cases h
    exact ⟨⟨hfits, rfl, rfl⟩, rfl⟩
  · rw [if_neg hfits] at h
    cases h

theorem CrcData.exists_intoBatch (h : fixedBatchLength + c.recordData.length < 2 ^ 31) :
    ∃ d, c.intoBatch libs baseOffset partitionLeaderEpoch magic = .ok d := by
  rw [CrcData.intoBatch, if_pos h]
  exact ⟨_, rfl⟩

theorem exists_tryFromInflated_iff (hlibs : libs.Inverse)
    (hc : Compression.tryFrom batch.attributes = .ok compression)
    (hsnappy : compression ≠ .snappy) :
    (∃ d, Batch.tryFromInflated libs batch = .ok d) ↔ Fits libs compression batch.records := by
  constructor
  · rintro ⟨d, hd⟩
    obtain ⟨hcount, data, hdata, hbatch⟩ := (tryFromInflated_eq_ok hc).1 hd
    refine ⟨hcount, ?_, ?_⟩
    · by_contra hnot
      rw [intoRecordData_of_not_fits hnot] at hdata
      cases hdata
    · intro data' hdata'
      obtain rfl : data = data' := Except.ok.inj (hdata.symm.trans hdata')
      obtain ⟨hsealed, hcrcData⟩ := CrcData.intoBatch_eq_ok hbatch
      have hrecordData : d.recordData = data := congrArg CrcData.recordData hcrcData
      exact hrecordData ▸ hsealed.fits
  · intro hfits
    obtain ⟨data, hdata, -⟩ := exists_intoRecordData hlibs hsnappy hfits.each
    obtain ⟨d, hd⟩ := CrcData.exists_intoBatch (c := crcDataOf batch data)
      (hfits.total data hdata)
    exact ⟨d, (tryFromInflated_eq_ok hc).2 ⟨hfits.count, data, hdata, hd⟩⟩

/-! ## Inflating -/

/-- Both conversions return records whose bytes the record data inflates to. -/
theorem Batch.records_eq (hc : Compression.tryFrom d.attributes = .ok compression)
    (hcount : d.recordCount.toNat = records.length) (hfits : ∀ r ∈ records, r.Fits)
    (hinflate : compression.inflator libs d.recordData = .ok (records.flatMap Record.wire)) :
    d.records libs = .ok records ∧ d.recordsByRef libs = .ok records := by
  have hdeserialize : Decoder.many Record.deserialize records.length
      (records.flatMap Record.wire) = .ok (records, []) := by
    simpa using Decoder.Reads.many (fun r hr => Record.reads_deserialize r (hfits r hr)) []
  have hdecode : Decoder.many Record.decode records.length
      (records.flatMap Record.wire) = .ok (records, []) := by
    simpa using Decoder.Reads.many (fun r hr => Record.reads_decode r (hfits r hr)) []
  have hbyRef : d.inflate libs = .ok records := by
    rw [Batch.inflate, hc, hcount]
    change (compression.inflator libs d.recordData >>= _) = _
    rw [hinflate]
    change (Decoder.many Record.deserialize records.length _).map Prod.fst = _
    rw [hdeserialize]
    rfl
  refine ⟨?_, hbyRef⟩
  rw [Batch.records]
  by_cases hnone : Compression.tryFrom d.attributes = .ok .none
  · obtain rfl : compression = .none := Except.ok.inj (hc.symm.trans hnone)
    have hdata : d.recordData = records.flatMap Record.wire := Except.ok.inj hinflate
    rw [if_pos hnone, hcount, hdata, hdecode]
    rfl
  · rw [if_neg hnone, hbyRef]

/-- A deflated batch is sealed, keeps the header and gives its records back. -/
theorem records_of_tryFromInflated (hlibs : libs.Inverse)
    (hc : Compression.tryFrom batch.attributes = .ok compression) (hsnappy : compression ≠ .snappy)
    (hd : Batch.tryFromInflated libs batch = .ok d) :
    d.Sealed libs ∧ (∃ data, d.crcData = crcDataOf batch data) ∧
      d.recordCount.toNat = batch.records.length ∧
      d.records libs = .ok batch.records ∧ d.recordsByRef libs = .ok batch.records := by
  have hfits := (exists_tryFromInflated_iff hlibs hc hsnappy).1 ⟨d, hd⟩
  obtain ⟨-, data, hdata, hbatch⟩ := (tryFromInflated_eq_ok hc).1 hd
  obtain ⟨hsealed, hcrcData⟩ := CrcData.intoBatch_eq_ok hbatch
  have hrecordData : d.recordData = data := congrArg CrcData.recordData hcrcData
  have hattributes : d.attributes = batch.attributes := congrArg CrcData.attributes hcrcData
  have hcount : d.recordCount.toNat = batch.records.length := by
    rw [show d.recordCount = _ from congrArg CrcData.recordCount hcrcData]
    exact UInt32.toNat_ofNat_of_lt' hfits.count
  have hinflate : compression.inflator libs d.recordData =
      .ok (batch.records.flatMap Record.wire) := by
    obtain ⟨data', hdata', hinflate⟩ := exists_intoRecordData hlibs hsnappy hfits.each
    obtain rfl : data = data' := Except.ok.inj (hdata.symm.trans hdata')
    exact hrecordData ▸ hinflate
  exact ⟨hsealed, ⟨data, hcrcData⟩, hcount,
    Batch.records_eq (hattributes ▸ hc) hcount hfits.each hinflate⟩

/-! ## Inflating -/

theorem compression_none (timestamp : TimestampType) (transaction control deleteHorizon : Bool) :
    Compression.tryFrom
      (BatchAttribute.toInt16 ⟨.none, timestamp, transaction, control, deleteHorizon⟩) =
      .ok .none := by
  cases timestamp <;> cases transaction <;> cases control <;> cases deleteHorizon <;> decide

theorem inflated_eq_ok {sink : Inflated.Batch} (h : Inflated.Batch.tryFrom libs b = .ok sink) :
    b.records libs = .ok sink.records ∧ Compression.tryFrom sink.attributes = .ok .none ∧
      sink.producerId = b.producerId ∧ sink.producerEpoch = b.producerEpoch ∧
      sink.baseTimestamp = b.baseTimestamp ∧ sink.lastOffsetDelta = b.lastOffsetDelta := by
  unfold Inflated.Batch.tryFrom at h
  cases hattributes : BatchAttribute.tryFrom b.attributes with
  | error e =>
    rw [hattributes] at h
    cases h
  | ok a =>
    rw [hattributes] at h
    change (b.records libs >>= _) = _ at h
    cases hrecords : b.records libs with
    | error e =>
      rw [hrecords] at h
      cases h
    | ok records =>
      rw [hrecords] at h
      cases h
      exact ⟨rfl, compression_none _ _ _ _, rfl, rfl, rfl, rfl⟩

/-! ## The round trip -/

/-- What becomes of `records` deflated as `d`. -/
structure RoundTrip (libs : Libraries) (records : List Record) (d : Batch) : Prop where
  recordCount : d.recordCount.toNat = records.length
  bytes : ∃ bs, d.toBytes = .ok bs ∧ d.batchLength.toInt + 12 = bs.length ∧
    Batch.computedCrc libs bs = .ok d.crc ∧ Batch.tryFrom libs bs = .ok d
  byValue : d.records libs = .ok records
  byReference : d.recordsByRef libs = .ok records

/-- Deflating a batch succeeds exactly when its sizes fit, and what it gives round trips: each
field is read back from the bytes that were written for it, and so is their concatenation. -/
theorem record_batch_round_trip (libs : Libraries) (hlibs : libs.Inverse) (batch : Inflated.Batch)
    (compression : Compression) (hc : Compression.tryFrom batch.attributes = .ok compression)
    (hsnappy : compression ≠ .snappy) :
    ((∃ d, Batch.tryFromInflated libs batch = .ok d) ↔ Fits libs compression batch.records) ∧
      ∀ d, Batch.tryFromInflated libs batch = .ok d → RoundTrip libs batch.records d := by
  refine ⟨exists_tryFromInflated_iff hlibs hc hsnappy, fun d hd => ?_⟩
  obtain ⟨hsealed, -, hcount, hrecords⟩ := records_of_tryFromInflated hlibs hc hsnappy hd
  have hlength : d.batchLength.toInt + 12 = d.wire.length := by
    rw [hsealed.batchLength, Int32.toInt_ofNat_of_lt hsealed.fits, Batch.length_wire]
    simp only [fixedBatchLength]
    omega
  refine ⟨hcount, ⟨d.wire, hsealed.toBytes_eq, hlength, ?_, ?_⟩, hrecords.1, hrecords.2⟩
  · rw [Batch.computedCrc, hsealed.read_wire]
    rfl
  · rw [Batch.tryFrom, hsealed.read_wire]
    rfl

/-! ### A batch of one record, and one that does not fit -/

namespace Example

/-- The checksum, beside libraries that store what they are given. -/
def stored : Libraries :=
  { crc32c
    gzip := ⟨.ok, .ok⟩
    lz4 := ⟨.ok, .ok⟩
    zstd := ⟨.ok, .ok⟩
    snappy := .ok }

theorem stored_inverse : stored.Inverse :=
  ⟨fun bs => ⟨bs, rfl, rfl⟩, fun bs => ⟨bs, rfl, rfl⟩, fun bs => ⟨bs, rfl, rfl⟩⟩

/-- An uncompressed batch of one record. -/
def batchOf (record : Record) : Inflated.Batch :=
  { baseOffset := 0
    batchLength := 0
    partitionLeaderEpoch := -1
    magic := 2
    crc := 0
    attributes := 0
    lastOffsetDelta := 0
    baseTimestamp := 1707058170165
    maxTimestamp := 1707058170165
    producerId := -1
    producerEpoch := -1
    baseSequence := -1
    records := [record] }

def small : Record :=
  { length := 13
    attributes := 0
    timestampDelta := -70
    offsetDelta := 0
    key := some [0x61, 0x62]
    value := none
    headers := [{ key := some [0x68], value := some [] }] }

/-- A record whose key is one byte longer than an `i32` can say. -/
def huge : Record := { small with key := some (List.replicate (2 ^ 31) 0) }

end Example

open Example in
theorem small_batch_round_trips :
    ∃ d, Batch.tryFromInflated stored (batchOf small) = .ok d ∧ RoundTrip stored [small] d := by
  have h := record_batch_round_trip stored stored_inverse (batchOf small) .none
    (by decide) (by decide)
  have hfits : Fits stored .none [small] := by
    refine ⟨by decide, by decide, fun data hdata => ?_⟩
    have hwire : intoRecordData stored [small] .none = .ok small.wire := by decide +kernel
    obtain rfl : small.wire = data := Except.ok.inj (hwire.symm.trans hdata)
    decide +kernel
  obtain ⟨d, hd⟩ := h.1.2 hfits
  exact ⟨d, hd, h.2 d hd⟩

open Example in
/-- A key of `2 ^ 31` bytes is refused, with libraries that invert and no compression. -/
theorem huge_key_not_deflated :
    stored.Inverse ∧ Compression.tryFrom (batchOf huge).attributes = .ok .none ∧
      Batch.tryFromInflated stored (batchOf huge) = .error .tryFromInt := by
  refine ⟨stored_inverse, by decide, ?_⟩
  have hkey : ¬ Octets.Fits huge.key := by
    rw [huge, Octets.fits_some, List.length_replicate]
    exact Nat.lt_irrefl _
  have hnot : ¬ ∀ r ∈ [huge], r.Fits := fun h => hkey (h huge List.mem_cons_self).1
  exact tryFromInflated_of_not_fits (by decide : Compression.tryFrom _ = .ok .none) hnot

end Deflated

end Tansu.Records

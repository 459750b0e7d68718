import Tansu.Lib.Failures
import Tansu.Records.RoundTrip

/-!
# Where reading a batch panics

Taking a batch from its bytes is checked throughout.  Taking the records out of
it is not.  `Record.scan` says what is wrong with record data, at the first place
where it is malformed; the two ways to read a record each report some of these
defects and panic on the others.
-/

namespace Tansu.Records

open Lib

/-- The failure is an error and not a panic. -/
def Fault.IsError : Fault → Prop
  | .error _ => True
  | .panic _ => False

def Panics {α : Type} (r : Except Fault α) : Prop := ∃ p, r = .error (.panic p)

theorem not_panics_of_isError {α : Type} {r : Except Fault α}
    (h : ∀ e, r = .error e → e.IsError) : ¬ Panics r := by
  rintro ⟨p, hp⟩
  exact h _ hp

/-! ## Malformed record data -/

/-- What is wrong with record data. -/
inductive Defect
  /-- The data ends inside a varint. -/
  | varintEnds
  /-- A varint does not fit its integer. -/
  | varintOverflows
  /-- The data ends in front of the attributes of a record. -/
  | attributesMissing
  /-- The data ends inside a key or a value. -/
  | octetsMissing
  /-- The length of a key or a value is negative, and not minus one. -/
  | octetsNegative
  /-- The number of headers is negative. -/
  | headersNegative (length : Int32)
deriving DecidableEq

def VarInt.scan : Decoder Defect Int32 :=
  Int32.ofBitVec <$> readVarint 32 .varintEnds .varintOverflows

def LongVarInt.scan : Decoder Defect Int64 :=
  Int64.ofBitVec <$> readVarint 64 .varintEnds .varintOverflows

def Octets.scan : Decoder Defect (Option Bytes) := do
  let length ← VarInt.scan
  if length = -1 then
    pure none
  else if length < 0 then
    Decoder.fail .octetsNegative
  else
    let bytes ← Decoder.takeExact .octetsMissing length.toNatClampNeg
    pure (some bytes)

def VarIntSequence.scan {α : Type} (item : Decoder Defect α) : Decoder Defect (List α) := do
  let length ← VarInt.scan
  if length < 0 then
    Decoder.fail (.headersNegative length)
  else
    Decoder.many item length.toNatClampNeg

def Header.scan : Decoder Defect Header := do
  let key ← Octets.scan
  let value ← Octets.scan
  pure { key, value }

def Record.scan : Decoder Defect Record := do
  let length ← VarInt.scan
  let attributes ← get .attributesMissing
  let timestampDelta ← LongVarInt.scan
  let offsetDelta ← VarInt.scan
  let key ← Octets.scan
  let value ← Octets.scan
  let headers ← VarIntSequence.scan Header.scan
  pure { length, attributes, timestampDelta, offsetDelta, key, value, headers }

namespace Defect

/-- What the `Decode` trait makes of a defect. -/
def decode : Defect → Fault
  | varintEnds => .error .tryGet
  | varintOverflows => .error .overflow
  | attributesMissing => .panic .getU8
  | octetsMissing | octetsNegative => .panic .splitTo
  | headersNegative _ => .panic .capacity

/-- What serde makes of a defect. -/
def deserialize : Defect → Fault
  | varintEnds | attributesMissing | octetsMissing => .error .io
  | varintOverflows => .panic .arithmetic
  | octetsNegative => .error (.message "TryFromIntError(())")
  | headersNegative length => .error (.message s!"length: {length}, caused: TryFromIntError(())")

end Defect

theorem asUsize_of_nonneg {i : Int32} (h : ¬ i < 0) : asUsize i = i.toNatClampNeg := by
  have hle := i.toInt_lt
  rw [Int32.lt_iff_toInt_lt, Int32.toInt_zero] at h
  rw [asUsize, Int32.toNatClampNeg]
  omega

theorem asUsize_of_neg {i : Int32} (h : i < 0) : ¬ asUsize i < 2 ^ 63 := by
  have hle := i.le_toInt
  rw [Int32.lt_iff_toInt_lt, Int32.toInt_zero] at h
  rw [asUsize]
  omega

theorem many_deserializeU8 (n : Nat) : Decoder.many deserializeU8 n =
    Decoder.takeExact (.error .io) n := by
  funext bs
  induction n generalizing bs with
  | zero => rfl
  | succ n ih =>
    cases bs with
    | nil => rfl
    | cons b bs =>
      have hput : put b = [b] := by simp [put, be, FixedWidth.size, FixedWidth.toNat]
      have hread : deserializeU8 (b :: bs) = .ok (b, bs) := by
        have h := reads_get (Fault.error .io) b bs
        rwa [hput] at h
      rw [Decoder.many, Decoder.bind_run, hread]
      simp only [Decoder.bind_run, ih]
      unfold Decoder.takeExact
      by_cases hn : n ≤ bs.length <;> simp [hn, Decoder.pure_run]

/-! ### The two ways to read a record -/

theorem Octets.decode_renames : Decoder.Renames Defect.decode Octets.scan Octets.decode := by
  refine ((Decoder.Renames.readVarint 32).map _).bind fun length => ?_
  split
  · exact .pure none
  split
  · next h =>
    rw [splitTo, if_neg (asUsize_of_neg h)]
    exact .fail _
  · next h =>
    have hlt : length.toNatClampNeg < 2 ^ 63 := by
      have := length.toInt_lt
      rw [Int32.toNatClampNeg]
      omega
    rw [asUsize_of_nonneg h, splitTo, if_pos hlt]
    exact (Decoder.Renames.takeExact _).bind fun bytes => .pure (some bytes)

theorem Octets.deserialize_renames :
    Decoder.Renames Defect.deserialize Octets.scan Octets.deserialize := by
  refine ((Decoder.Renames.readVarint 32).map _).bind fun length => ?_
  split
  · exact .pure none
  split
  · exact .fail _
  · rw [many_deserializeU8]
    exact (Decoder.Renames.takeExact _).bind fun bytes => .pure (some bytes)

theorem Record.decode_renames : Decoder.Renames Defect.decode Record.scan Record.decode := by
  have hheader : Decoder.Renames Defect.decode Header.scan Header.decode :=
    Octets.decode_renames.bind fun _ => Octets.decode_renames.bind fun _ => .pure _
  have hheaders : Decoder.Renames Defect.decode (VarIntSequence.scan Header.scan)
      (VarIntSequence.decode Header.decode) := by
    refine ((Decoder.Renames.readVarint 32).map _).bind fun length => ?_
    split
    · exact .fail _
    · next h =>
      rw [asUsize_of_nonneg h]
      exact hheader.many _
  exact ((Decoder.Renames.readVarint 32).map _).bind fun _ => Decoder.Renames.get.bind fun _ =>
    ((Decoder.Renames.readVarint 64).map _).bind fun _ =>
      ((Decoder.Renames.readVarint 32).map _).bind fun _ => Octets.decode_renames.bind fun _ =>
        Octets.decode_renames.bind fun _ => hheaders.bind fun _ => .pure _

theorem Record.deserialize_renames :
    Decoder.Renames Defect.deserialize Record.scan Record.deserialize := by
  have hheader : Decoder.Renames Defect.deserialize Header.scan Header.deserialize :=
    Octets.deserialize_renames.bind fun _ => Octets.deserialize_renames.bind fun _ => .pure _
  have hheaders : Decoder.Renames Defect.deserialize (VarIntSequence.scan Header.scan)
      (VarIntSequence.deserialize Header.deserialize) := by
    refine ((Decoder.Renames.readVarint 32).map _).bind fun length => ?_
    split
    · exact .fail _
    · exact hheader.many _
  exact ((Decoder.Renames.readVarint 32).map _).bind fun _ => Decoder.Renames.get.bind fun _ =>
    ((Decoder.Renames.readVarint 64).map _).bind fun _ =>
      ((Decoder.Renames.readVarint 32).map _).bind fun _ =>
        Octets.deserialize_renames.bind fun _ => Octets.deserialize_renames.bind fun _ =>
          hheaders.bind fun _ => .pure _

namespace Deflated

/-! ## From bytes -/

theorem remaining_failsOnly (batchLength : Int32) (less : Nat) :
    Decoder.FailsOnly Fault.IsError (remaining batchLength less) := by
  unfold remaining
  split_ifs
  · exact .fail trivial
  · exact .fail trivial
  · exact .pure _

theorem Batch.read_failsOnly (libs : Libraries) :
    Decoder.FailsOnly Fault.IsError (Batch.read libs) := by
  have hget {α : Type} [FixedWidth α] :
      Decoder.FailsOnly Fault.IsError (get (.error .tryGet) : De α) := .get trivial
  unfold Batch.read
  -- the fields before the checksum, the bytes it is over, the fields behind it
  refine hget.bind fun _ => hget.bind fun _ => hget.bind fun _ => hget.bind fun _ =>
    hget.bind fun _ => ?_
  refine (remaining_failsOnly _ _).bind fun _ => ?_
  refine (Decoder.FailsOnly.peek trivial _).bind fun _ => ?_
  refine hget.bind fun _ => hget.bind fun _ => hget.bind fun _ => hget.bind fun _ =>
    hget.bind fun _ => hget.bind fun _ => hget.bind fun _ => hget.bind fun _ => ?_
  refine (remaining_failsOnly _ _).bind fun _ => ?_
  exact (Decoder.FailsOnly.takeExact trivial _).bind fun _ => .pure _

theorem Batch.tryFrom_not_panics (libs : Libraries) (encoded : Bytes) :
    ¬ Panics (Batch.tryFrom libs encoded) := by
  refine not_panics_of_isError fun e h => ?_
  unfold Batch.tryFrom at h
  cases hread : Batch.read libs encoded with
  | error e' =>
    rw [hread] at h
    cases h
    exact Batch.read_failsOnly libs encoded e hread
  | ok out =>
    rw [hread] at h
    cases h

/-! ## Into records -/

/-- The records of a batch in `bs`, or the first defect of them. -/
def Batch.scan (b : Batch) (bs : Bytes) : Except Defect (List Record) :=
  (Decoder.many Record.scan b.recordCount.toNat bs).map Prod.fst

/-- The record data is malformed in a way that the conversion by reference does not check: a
snappy header ends too early, or a varint of the inflated data overflows. -/
def Batch.UncheckedByRef (libs : Libraries) (b : Batch) : Prop :=
  ∃ compression, Compression.tryFrom b.attributes = .ok compression ∧
    ((compression = .snappy ∧ Compression.snappyMagic.isPrefixOf b.recordData = true ∧
        b.recordData.length < 20) ∨
      ∃ bs, compression.inflator libs b.recordData = .ok bs ∧ b.scan bs = .error .varintOverflows)

/-- The same for the conversion by value, which reads uncompressed data itself: there the
attributes, a key, a value or the number of headers is not checked. -/
def Batch.UncheckedByValue (libs : Libraries) (b : Batch) : Prop :=
  if Compression.tryFrom b.attributes = .ok .none then
    ∃ defect, b.scan b.recordData = .error defect ∧
      (defect = .attributesMissing ∨ defect = .octetsMissing ∨ defect = .octetsNegative ∨
        ∃ length, defect = .headersNegative length)
  else
    b.UncheckedByRef libs

variable {libs : Libraries} {b : Batch}

/-- Both conversions make of the records what they make of their first defect. -/
theorem Batch.map_many_eq {item : De Record} {f : Defect → Fault} (bs : Bytes)
    (h : Decoder.Renames f Record.scan item) :
    (Decoder.many item b.recordCount.toNat bs).map Prod.fst = (b.scan bs).mapError f := by
  rw [Batch.scan, h.many _ bs]
  cases Decoder.many Record.scan b.recordCount.toNat bs <;> rfl

theorem panics_mapError_iff {α : Type} {f : Defect → Fault} {r : Except Defect α} :
    Panics (r.mapError f) ↔ ∃ defect p, r = .error defect ∧ f defect = .panic p := by
  cases r with
  | ok a =>
    constructor
    · rintro ⟨p, hp⟩
      cases hp
    · rintro ⟨defect, p, h, -⟩
      cases h
  | error defect =>
    constructor
    · rintro ⟨p, hp⟩
      exact ⟨defect, p, rfl, Except.error.inj hp⟩
    · rintro ⟨defect', p, h, hp⟩
      cases h
      exact ⟨p, congrArg Except.error hp⟩

theorem splitAt_bind {α : Type} (n : Nat) (bs : Bytes) (f : Bytes → Except Fault α) :
    (Compression.splitAt n bs >>= f) =
      if n ≤ bs.length then f (bs.drop n) else .error (.panic .splitAt) := by
  unfold Compression.splitAt
  split <;> rfl

theorem skipSnappyHeader_panics_iff (input : Bytes) :
    Panics (Compression.skipSnappyHeader input) ↔
      Compression.snappyMagic.isPrefixOf input = true ∧ input.length < 20 := by
  unfold Compression.skipSnappyHeader
  split
  next hmagic =>
    have hlength : 8 ≤ input.length := (List.isPrefixOf_iff_prefix.1 hmagic).length_le
    simp only [splitAt_bind, List.length_drop]
    split_ifs
    · refine iff_of_false ?_ fun h => by omega
      rintro ⟨p, hp⟩
      cases hp
    all_goals exact iff_of_true ⟨_, rfl⟩ ⟨hmagic, by omega⟩
  next hmagic =>
    refine iff_of_false ?_ fun h => hmagic h.1
    rintro ⟨p, hp⟩
    cases hp

theorem inflator_panics_iff (libs : Libraries) {compression : Compression} (data : Bytes) :
    Panics (compression.inflator libs data) ↔ compression = .snappy ∧
      Compression.snappyMagic.isPrefixOf data = true ∧ data.length < 20 := by
  have hlib (r : Except Error Bytes) : ¬ Panics (r.mapError Fault.error) := by
    rintro ⟨p, hp⟩
    cases r <;> cases hp
  cases compression with
  | none =>
    refine iff_of_false ?_ fun h => by cases h.1
    rintro ⟨p, hp⟩
    cases hp
  | gzip => exact iff_of_false (hlib _) fun h => by cases h.1
  | lz4 => exact iff_of_false (hlib _) fun h => by cases h.1
  | zstd => exact iff_of_false (hlib _) fun h => by cases h.1
  | snappy =>
    rw [← skipSnappyHeader_panics_iff, Compression.inflator]
    cases hskip : Compression.skipSnappyHeader data with
    | error e => simp [Panics, bind, Except.bind]
    | ok input =>
      refine iff_of_false (hlib _) ?_
      rintro ⟨-, p, hp⟩
      cases hp

theorem Batch.inflate_eq {compression : Compression}
    (hc : Compression.tryFrom b.attributes = .ok compression) :
    b.inflate libs = compression.inflator libs b.recordData >>= fun bs =>
      (Decoder.many Record.deserialize b.recordCount.toNat bs).map Prod.fst := by
  rw [Batch.inflate, hc]
  rfl

theorem Batch.recordsByRef_panics_iff (libs : Libraries) (b : Batch) :
    Panics (b.recordsByRef libs) ↔ b.UncheckedByRef libs := by
  unfold Batch.recordsByRef Batch.UncheckedByRef
  cases hc : Compression.tryFrom b.attributes with
  | error e =>
    refine iff_of_false ?_ fun h => by simp at h
    rintro ⟨p, hp⟩
    rw [Batch.inflate, hc] at hp
    cases hp
  | ok compression =>
    rw [Batch.inflate_eq hc]
    simp only [Except.ok.injEq, exists_eq_left', ← inflator_panics_iff libs]
    cases hdata : compression.inflator libs b.recordData with
    | error e =>
      constructor
      · rintro ⟨p, hp⟩
        cases hp
        exact .inl ⟨p, rfl⟩
      · rintro (⟨p, hp⟩ | ⟨bs, hbs, -⟩)
        · cases hp
          exact ⟨p, rfl⟩
        · cases hbs
    | ok bs =>
      change Panics ((Decoder.many Record.deserialize b.recordCount.toNat bs).map Prod.fst) ↔ _
      rw [Batch.map_many_eq bs Record.deserialize_renames, panics_mapError_iff]
      constructor
      · rintro ⟨defect, p, hdefect, hp⟩
        refine .inr ⟨bs, rfl, ?_⟩
        cases defect <;> first | exact hdefect | cases hp
      · rintro (⟨p, hp⟩ | ⟨bs', hbs, hdefect⟩)
        · cases hp
        · cases hbs
          exact ⟨_, _, hdefect, rfl⟩

theorem Batch.records_panics_iff (libs : Libraries) (b : Batch) :
    Panics (b.records libs) ↔ b.UncheckedByValue libs := by
  unfold Batch.records Batch.UncheckedByValue
  split
  · rw [Batch.map_many_eq _ Record.decode_renames, panics_mapError_iff]
    constructor
    · rintro ⟨defect, p, hdefect, hp⟩
      refine ⟨defect, hdefect, ?_⟩
      cases defect with
      | varintEnds => cases hp
      | varintOverflows => cases hp
      | headersNegative length => exact .inr (.inr (.inr ⟨length, rfl⟩))
      | _ => simp
    · rintro ⟨defect, hdefect, rfl | rfl | rfl | ⟨length, rfl⟩⟩
      all_goals exact ⟨_, _, hdefect, rfl⟩
  · exact Batch.recordsByRef_panics_iff libs b

end Deflated

end Tansu.Records

import Tansu.Lib.Varint

/-!
# Records on the wire

A record is read in two ways: through the `Decode` trait, straight from a byte
buffer, and through serde, from a reader that may inflate.  They take the same
bytes and differ in what they do with malformed ones.  The trait reports a
varint that overflows and panics on an attribute byte or on octets that are not
there; serde reports the missing bytes and panics on the varint.
-/

namespace Tansu.Records

open Lib

/-! ## Failures -/

inductive Error
  | io
  | tryGet
  | tryFromInt
  | overflow
  | message (text : String)
  | unexpectedType (text : String)
  | unknownCompressionType (value : Int16)
  | snap
deriving DecidableEq

/-- Where the code panics. -/
inductive Panic
  | arithmetic
  | getU8
  | splitTo
  | splitAt
  | slice
  | capacity
deriving DecidableEq

/-- A decoder returns an error or panics. -/
inductive Fault
  | error (e : Error)
  | panic (p : Panic)
deriving DecidableEq

abbrev De := Decoder Fault

/-! ## The values -/

structure Header where
  key : Option Bytes
  value : Option Bytes
deriving DecidableEq

structure Record where
  length : Int32
  attributes : UInt8
  timestampDelta : Int64
  offsetDelta : Int32
  key : Option Bytes
  value : Option Bytes
  headers : List Header
deriving DecidableEq

/-! ## Varints -/

def VarInt.encode (i : Int32) : Bytes := varint i.toBitVec

def VarInt.sizeInBytes (i : Int32) : Nat := varintSize i.toBitVec

/-- `VarInt::try_from(usize)`. -/
def VarInt.tryFrom (n : Nat) : Except Error Int32 :=
  if n < 2 ^ 31 then .ok (Int32.ofNat n) else .error .tryFromInt

def LongVarInt.encode (i : Int64) : Bytes := varint i.toBitVec

def LongVarInt.sizeInBytes (i : Int64) : Nat := varintSize i.toBitVec

/-- `Decode for VarInt`: checked arithmetic. -/
def VarInt.decode : De Int32 :=
  Int32.ofBitVec <$> readVarint 32 (.error .tryGet) (.error .overflow)

def LongVarInt.decode : De Int64 :=
  Int64.ofBitVec <$> readVarint 64 (.error .tryGet) (.error .overflow)

/-- `VarInt::deserialize`: plain arithmetic, which panics where the checked one fails. -/
def VarInt.deserialize : De Int32 :=
  Int32.ofBitVec <$> readVarint 32 (.error .io) (.panic .arithmetic)

def LongVarInt.deserialize : De Int64 :=
  Int64.ofBitVec <$> readVarint 64 (.error .io) (.panic .arithmetic)

/-! ## Encoding -/

def Octets.sizeInBytes : Option Bytes → Except Error Nat
  | none => .ok (VarInt.sizeInBytes (-1))
  | some bytes => do
    let v ← VarInt.tryFrom bytes.length
    pure (VarInt.sizeInBytes v + bytes.length)

def Octets.encode : Option Bytes → Except Error Bytes
  | none => .ok (VarInt.encode (-1))
  | some data => do
    let _ ← Octets.sizeInBytes (some data)
    let length ← VarInt.tryFrom data.length
    pure (VarInt.encode length ++ data)

/-- `try_fold` over the sizes of the elements, behind the size of their number. -/
def VarIntSequence.sizeInBytes {α : Type} (size : α → Except Error Nat) (as : List α) :
    Except Error Nat := do
  let v ← VarInt.tryFrom as.length
  as.foldlM (fun acc a => (size a).map (acc + ·)) (VarInt.sizeInBytes v)

def VarIntSequence.encode {α : Type} (size : α → Except Error Nat) (enc : α → Except Error Bytes)
    (as : List α) : Except Error Bytes := do
  let _ ← VarIntSequence.sizeInBytes size as
  let length ← VarInt.tryFrom as.length
  cat (.ok (VarInt.encode length)) (catMany enc as)

namespace Header

def sizeInBytes (h : Header) : Except Error Nat := do
  let key ← Octets.sizeInBytes h.key
  let value ← Octets.sizeInBytes h.value
  pure (key + value)

def encode (h : Header) : Except Error Bytes := do
  let _ ← h.sizeInBytes
  cat (Octets.encode h.key) (Octets.encode h.value)

end Header

namespace Record

def sizeInBytes (r : Record) : Except Error Nat := do
  let key ← Octets.sizeInBytes r.key
  let value ← Octets.sizeInBytes r.value
  let headers ← VarIntSequence.sizeInBytes Header.sizeInBytes r.headers
  pure (VarInt.sizeInBytes r.length + 1 + LongVarInt.sizeInBytes r.timestampDelta +
    VarInt.sizeInBytes r.offsetDelta + key + value + headers)

def encode (r : Record) : Except Error Bytes := do
  let _ ← r.sizeInBytes
  cat (.ok (VarInt.encode r.length)) <|
    cat (.ok (put r.attributes)) <|
    cat (.ok (LongVarInt.encode r.timestampDelta)) <|
    cat (.ok (VarInt.encode r.offsetDelta)) <|
    cat (Octets.encode r.key) <|
    cat (Octets.encode r.value) <|
    VarIntSequence.encode Header.sizeInBytes Header.encode r.headers

end Record

/-- `Encode for &[Record]`. -/
def encodeRecords (records : List Record) : Except Error Bytes := do
  let _ ← records.mapM Record.sizeInBytes
  catMany Record.encode records

/-! ## Decoding through the trait -/

/-- `as usize` of a negative length is a huge one. -/
def asUsize (i : Int32) : Nat := (i.toInt % 2 ^ 64).toNat

/-- `split_to`: panics when fewer bytes are left.  No buffer has `isize::MAX` of them. -/
def splitTo (n : Nat) : De Bytes :=
  if n < 2 ^ 63 then Decoder.takeExact (.panic .splitTo) n else Decoder.fail (.panic .splitTo)

def Octets.decode : De (Option Bytes) := do
  let length ← VarInt.decode
  if length = -1 then
    pure none
  else
    let bytes ← splitTo (asUsize length)
    pure (some bytes)

/-- `Vec::with_capacity` of a negative length cast to `usize` overflows whatever the size of an
element, and of any other `i32` never does. -/
def VarIntSequence.decode {α : Type} (item : De α) : De (List α) := do
  let length ← VarInt.decode
  if length < 0 then
    Decoder.fail (.panic .capacity)
  else
    Decoder.many item (asUsize length)

def Header.decode : De Header := do
  let key ← Octets.decode
  let value ← Octets.decode
  pure { key, value }

def Record.decode : De Record := do
  let length ← VarInt.decode
  let attributes ← get (.panic .getU8)
  let timestampDelta ← LongVarInt.decode
  let offsetDelta ← VarInt.decode
  let key ← Octets.decode
  let value ← Octets.decode
  let headers ← VarIntSequence.decode Header.decode
  pure { length, attributes, timestampDelta, offsetDelta, key, value, headers }

/-! ## Decoding through serde -/

/-- `deserialize_u8`. -/
def deserializeU8 : De UInt8 := get (.error .io)

def Octets.deserialize : De (Option Bytes) := do
  let length ← VarInt.deserialize
  if length = -1 then
    pure none
  else if length < 0 then
    Decoder.fail (.error (.message "TryFromIntError(())"))
  else
    let bytes ← Decoder.many deserializeU8 length.toNatClampNeg
    pure (some bytes)

def VarIntSequence.deserialize {α : Type} (item : De α) : De (List α) := do
  let length ← VarInt.deserialize
  if length < 0 then
    Decoder.fail (.error (.message s!"length: {length}, caused: TryFromIntError(())"))
  else
    Decoder.many item length.toNatClampNeg

def Header.deserialize : De Header := do
  let key ← Octets.deserialize
  let value ← Octets.deserialize
  pure { key, value }

def Record.deserialize : De Record := do
  let length ← VarInt.deserialize
  let attributes ← deserializeU8
  let timestampDelta ← LongVarInt.deserialize
  let offsetDelta ← VarInt.deserialize
  let key ← Octets.deserialize
  let value ← Octets.deserialize
  let headers ← VarIntSequence.deserialize Header.deserialize
  pure { length, attributes, timestampDelta, offsetDelta, key, value, headers }

end Tansu.Records

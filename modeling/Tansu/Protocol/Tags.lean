import Tansu.Protocol.Types
import Tansu.Consumer.Codec

/-!
# Tagged fields

A field with a tag is encoded by itself, with a codec that has no metadata, and
kept as bytes in the tag buffer of its structure.  That codec is not symmetric:
its decoder reads a length before every optional value and its encoder writes
one only for strings and sequences.  A field that fails to encode is left out of
the buffer, and one that fails to decode is absent from the message.
-/

namespace Tansu.Protocol

open Lib Records

open Consumer (utf8 fromUtf8)

/-! ## Failures -/

/-- `unexpectedType` names a Rust type, which is left out; `batch` is the message that carries
the text of an error of a record batch. -/
inductive Error
  | io
  | tryFromInt
  | tryGet
  | overflow
  | messageMaxSizeExceeded (size : Nat)
  | stringWithoutLength
  | fromUtf8
  | unknownContainer
  | unexpectedType
  | responseFrame
  | message (text : String)
  | batch (e : Records.Error)
deriving DecidableEq

def messageMaxSize : Nat := 1024 * 1024 * 1024

def maximumTaggedFields : Nat := 128

/-! ## Writing -/

/-- `(len + 1).try_into().and_then(|len| self.unsigned_varint(len))` -/
def compactLength (n : Nat) : Except Error Bytes :=
  if n + 1 < 2 ^ 32 then .ok (uvarint (n + 1)) else .error .tryFromInt

/-- `UnsignedVarInt::try_from(len)`, in the buffer and in its fields. -/
def tagLength (n : Nat) : Except Error Bytes :=
  if n < 2 ^ 32 then .ok (uvarint n)
  else .error (.message "length too big: TryFromInt(TryFromIntError(()))")

def TagField.serialize (f : TagField) : Except Error Bytes :=
  cat (.ok (uvarint f.tag.toNat)) (cat (tagLength f.data.length) (.ok f.data))

def TagBuffer.serialize (tags : TagBuffer) : Except Error Bytes :=
  cat (tagLength tags.length) (catMany TagField.serialize tags)

/-- A batch as the structure it is; nothing reads it back. -/
def tagSerializeBatch (b : Deflated.Batch) : Except Error Bytes :=
  cat (.ok (put b.baseOffset ++ put b.batchLength ++ put b.partitionLeaderEpoch ++ put b.magic ++
    put b.crc ++ put b.attributes ++ put b.lastOffsetDelta ++ put b.baseTimestamp ++
    put b.maxTimestamp ++ put b.producerId ++ put b.producerEpoch ++ put b.baseSequence ++
    put b.recordCount)) (cat (compactLength b.recordData.length) (.ok b.recordData))

def Primitive.tagSerialize : (p : Primitive) → p.El → Except Error Bytes
  | .bool, v => .ok [if v then 1 else 0]
  | .bytes, v => cat (compactLength v.length) (.ok v)
  | .float64, v => .ok (put v)
  | .int16, v => .ok (put v)
  | .int32, v => .ok (put v)
  | .int64, v => .ok (put v)
  | .int8, v => .ok (put v)
  | .records, v => cat (compactLength v.length) (catMany tagSerializeBatch v)
  | .string, v => cat (compactLength (utf8 v).length) (.ok (utf8 v))
  | .uint16, v => .ok (put v)
  | .uuid, v => .ok v.val

mutual

/-- `ser::Encoder` of the tags. -/
def Ty.tagSerialize : (t : Ty) → t.Mezz → Except Error Bytes
  | .prim p, v => p.tagSerialize v
  | .option t, v =>
    match v with
    | none => .ok (uvarint 0)
    | some v => t.tagSerialize v
  | .vec t, v => cat (compactLength v.length) (catMany t.tagSerialize v)
  | .struct _ fields, v =>
    cat (fields.tagSerialize v.1) <|
      match v.2 with
      | none => .ok (uvarint 0)
      | some tags => TagBuffer.serialize tags

def Tys.tagSerialize : (fields : Tys) → fields.Mezz → Except Error Bytes
  | .nil, _ => .ok []
  | .cons _ t rest, v => cat (t.tagSerialize v.1) (rest.tagSerialize v.2)
  | .tagged _ _ _ rest, v => rest.tagSerialize v

end

/-! ## Reading -/

/-- The decoder of the tags keeps the length that an optional value began with. -/
abbrev TagM := StateT (Option Nat) (Decoder Error)

/-- `unsigned_varint`. -/
def tagVarint : Decoder Error Nat := fun bs => uvarintLoop 32 .io .overflow bs 0 0

/-- `unsigned_varint` and `checked_sub(1)`. -/
def tagLengthPrefix : Decoder Error Nat := do
  let length ← tagVarint
  if length = 0 then Decoder.fail .overflow else pure (length - 1)

def tagString : TagM String := fun saved => do
  let length ← match saved with
    | some length => pure length
    | none => tagLengthPrefix
  if messageMaxSize < length then
    Decoder.fail (.messageMaxSizeExceeded length)
  else
    let bytes ← Decoder.takeExact .io length
    match fromUtf8 bytes with
    | some s => pure (s, none)
    | none => Decoder.fail .fromUtf8

/-- What has no method in this decoder. -/
def tagUnexpected {α : Type} : TagM α := StateT.lift (Decoder.fail .unexpectedType)

def tagInt {α : Type} [FixedWidth α] : TagM α := StateT.lift (get .io)

/-- An element of a sequence, `n` times. -/
def tagMany {α : Type} (item : TagM α) : Nat → TagM (List α)
  | 0 => pure []
  | n + 1 => do
    let a ← item
    let as ← tagMany item n
    pure (a :: as)

def tagSeq {α : Type} (item : TagM α) : TagM (List α) := do
  let length ← StateT.lift tagLengthPrefix
  tagMany item length

def Primitive.tagDeserialize : (p : Primitive) → TagM p.El
  | .bool => do
    let v : UInt8 ← tagInt
    pure (v != 0)
  | .bytes => tagUnexpected
  | .float64 => tagInt
  | .int16 => tagInt
  | .int32 => tagInt
  | .int64 => tagInt
  | .int8 => tagInt
  | .records => tagSeq tagUnexpected
  | .string => tagString
  | .uint16 => tagInt
  | .uuid => tagUnexpected

/-- An unsigned varint read as a sequence of bytes behind a length. -/
def limitedVarint : Decoder Error Nat := do
  let limit ← tagLengthPrefix
  fun bs =>
    let eof := if limit ≤ bs.length then .message "byte" else .io
    (uvarintLoop 32 eof (.message "overflow") (bs.take limit) 0 0).map fun out =>
      (out.1, out.2 ++ bs.drop limit)

def limitedTagField : Decoder Error TagField := do
  let limit ← tagLengthPrefix
  if limit = 0 then Decoder.fail (.message "tag") else
  let tag ← limitedVarint
  if limit = 1 then Decoder.fail (.message "length") else
  let length ← limitedVarint
  if maximumTaggedFields < length then
    Decoder.fail (.message s!"maximum tagged fields exceeded {length}")
  else if length ≤ limit - 2 then
    let data ← Decoder.takeExact .io length
    pure ⟨UInt32.ofNat tag, data⟩
  else
    let _ ← Decoder.takeExact .io (limit - 2)
    Decoder.fail (.message "byte")

/-- The tag buffer of a structure that is itself tagged. -/
def limitedTagBuffer : Decoder Error TagBuffer := do
  let limit ← tagLengthPrefix
  if limit = 0 then Decoder.fail (.message "tag") else
  let count ← limitedVarint
  if maximumTaggedFields < count then
    Decoder.fail (.message s!"maximum tagged fields exceeded {count}")
  else if count ≤ limit - 1 then
    Decoder.many limitedTagField count
  else
    let _ ← Decoder.many limitedTagField (limit - 1)
    Decoder.fail (.message "tagged field")

/-- `deserialize_option`: the length stays behind for whoever takes it. -/
def tagOption {α : Type} (item : TagM α) : TagM (Option α) := do
  let length ← StateT.lift tagVarint
  if length = 0 then
    pure none
  else
    set (some (length - 1))
    let a ← item
    pure (some a)

mutual

/-- `de::Decoder` of the tags. -/
def Ty.tagDeserialize : (t : Ty) → TagM t.Mezz
  | .prim p => p.tagDeserialize
  | .option t => tagOption t.tagDeserialize
  | .vec t => tagSeq t.tagDeserialize
  | .struct _ fields => do
    let values ← fields.tagDeserialize
    let tags ← tagOption (StateT.lift limitedTagBuffer)
    pure (values, tags)

def Tys.tagDeserialize : (fields : Tys) → TagM fields.Mezz
  | .nil => pure ()
  | .cons _ t rest => do
    let v ← t.tagDeserialize
    let vs ← rest.tagDeserialize
    pure (v, vs)
  | .tagged _ _ _ rest => rest.tagDeserialize

end

/-- `TagBuffer::decode`, with its errors dropped: the first field with the tag. -/
def TagBuffer.decode (t : Ty) (tags : TagBuffer) (tag : UInt32) : Option t.Mezz :=
  (tags.find? fun f => f.tag = tag).bind fun f =>
    match t.tagDeserialize none f.data with
    | .ok ((v, _), _) => some v
    | .error _ => none

/-! ## Between the public type and the mezzanine -/

mutual

def Ty.toMezz : (t : Ty) → t.El → t.Mezz
  | .prim _, v => v
  | .option t, v => v.map t.toMezz
  | .vec t, v => v.map t.toMezz
  | .struct _ fields, v => (fields.toMezz v, some (fields.tagBuffer v))

def Tys.toMezz : (fields : Tys) → fields.El → fields.Mezz
  | .nil, _ => ()
  | .cons _ t rest, v => (t.toMezz v.1, rest.toMezz v.2)
  | .tagged _ _ _ rest, v => rest.toMezz v.2

/-- The tagged fields that are present and that encode. -/
def Tys.tagBuffer : (fields : Tys) → fields.El → TagBuffer
  | .nil, _ => []
  | .cons _ _ rest, v => rest.tagBuffer v.2
  | .tagged _ tag t rest, v =>
    (match v.1 with
      | none => []
      | some x =>
        match t.tagSerialize (t.toMezz x) with
        | .ok data => [⟨tag, data⟩]
        | .error _ => []) ++ rest.tagBuffer v.2

end

mutual

def Ty.ofMezz : (t : Ty) → t.Mezz → t.El
  | .prim _, v => v
  | .option t, v => v.map t.ofMezz
  | .vec t, v => v.map t.ofMezz
  | .struct _ fields, v => fields.ofMezz v.2 v.1

def Tys.ofMezz : (fields : Tys) → Option TagBuffer → fields.Mezz → fields.El
  | .nil, _, _ => ()
  | .cons _ t rest, tags, v => (t.ofMezz v.1, rest.ofMezz tags v.2)
  | .tagged _ tag t rest, tags, v =>
    ((tags.bind fun tags => TagBuffer.decode t tags tag).map t.ofMezz, rest.ofMezz tags v)

end

end Tansu.Protocol

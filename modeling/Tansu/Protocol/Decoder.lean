import Tansu.Protocol.Tags

/-!
# Decoding frames

serde walks the Rust type and calls the decoder, which keeps track of where it
is: the field, the metadata it found for it by name, the lookups of the
structures around it, and a length that was read ahead of a value.  Whether a
length, a null marker or nothing at all stands before a value depends on that
metadata and on the API version.
-/

namespace Tansu.Protocol

open Lib Records

open Consumer (utf8 fromUtf8)

/-- A decoder returns an error, panics, or goes on for ever. -/
inductive Fault
  | error (e : Error)
  | panic (p : Panic)
  | diverges
deriving DecidableEq

/-- `de::Error::custom(err.to_string())` for an error of a batch. -/
def Fault.ofBatch : Records.Fault → Fault
  | .error e => .error (.batch e)
  | .panic p => .panic p

/-! ## The state -/

inductive MessageKind
  | request
  | response
deriving DecidableEq

inductive Container
  | struct (name : String)
  | enum (name : String)
deriving DecidableEq

def Container.name : Container → String
  | .struct name => name
  | .enum name => name

/-- `Decoder`, with `meta` flattened; `metaField` is `meta.field`. -/
structure Dec where
  kind : MessageKind
  apiKey : Option Int16
  apiVersion : Option Int16
  message : Option MessageMeta
  structures : List (String × FieldMeta)
  field : Option String
  metaField : Option FieldMeta
  parse : List Fields
  length : Option Nat
  inSeqOfPrimitive : Bool
  inRecords : Bool
  containers : List Container

namespace Dec

/-- `Decoder::request`. -/
def request : Dec :=
  { kind := .request
    apiKey := none
    apiVersion := none
    message := none
    structures := []
    field := none
    metaField := none
    parse := []
    length := none
    inSeqOfPrimitive := false
    inRecords := false
    containers := [] }

/-- `Decoder::response`. -/
def response (messages : RootMessageMeta) (apiKey apiVersion : Int16) : Dec :=
  { request with
    kind := .response
    apiKey := some apiKey
    apiVersion := some apiVersion
    message := messages.responses apiKey
    structures := ((messages.responses apiKey).map MessageMeta.structures).getD []
    parse := ((messages.responses apiKey).map fun m => [m.fields]).getD [] }

def inHeader (s : Dec) : Bool := s.containers.head?.any fun c => c.name == "HeaderMezzanine"

def isFlexible (s : Dec) : Bool :=
  if s.inHeader && ((s.kind == .request && s.field == some "client_id") ||
      (s.kind == .response && s.apiKey == some 18)) then
    false
  else
    s.message.any fun m => s.apiVersion.any fun version => m.isFlexible version

def isValid (s : Dec) : Bool :=
  s.apiVersion.all fun version => s.metaField.all fun fm => fm.version.within version

def isNullable (s : Dec) : Bool :=
  s.apiVersion.any fun version => s.metaField.any fun fm => fm.isNullable version

def isSequence (s : Dec) : Bool := s.metaField.any fun fm => fm.kind.isSequence

def isStructure (s : Dec) : Bool := s.metaField.any fun fm => fm.isStructure

def isRecords (s : Dec) : Bool := s.metaField.any fun fm => fm.kind.isRecords

def isString (s : Dec) : Bool :=
  (s.inHeader && s.field == some "client_id") || s.metaField.any fun fm => fm.kind.isString

/-- Whether the field is a sequence whose elements satisfy `p`. -/
def isSequenceOf (s : Dec) (p : KindMeta → Bool) : Bool :=
  s.metaField.any fun fm => fm.kind.kindOfSequence.any p

end Dec

abbrev DecM := StateT Dec (Decoder Fault)

/-! ## Integers and lengths -/

def failWith {α : Type} (e : Error) : DecM α := StateT.lift (Decoder.fail (.error e))

/-- `read_exact` of an integer. -/
def readInt {α : Type} [FixedWidth α] : DecM α := StateT.lift (Lib.get (.error .io))

/-- `read_exact` of a buffer. -/
def readExact (n : Nat) : DecM Bytes := StateT.lift (Decoder.takeExact (.error .io) n)

def unsignedVarint : DecM Nat :=
  StateT.lift fun bs => uvarintLoop 32 (.error .io) (.error .overflow) bs 0 0

def setLength (length : Option Nat) : DecM Unit := modify fun s => { s with length }

/-- `unsigned_varint` and `checked_sub(1)`. -/
def compactLengthPrefix : DecM Nat := do
  let length ← unsignedVarint
  if length = 0 then failWith .overflow else pure (length - 1)

/-- `length.try_into()` from a signed integer. -/
def toUsize (length : Int) : DecM Nat :=
  if length < 0 then failWith .tryFromInt else pure length.toNat

def readMandatoryNonNullableLength : DecM Unit := do
  let s ← getThe Dec
  if s.inHeader || s.isNullable || !s.isValid then
    pure ()
  else if s.isFlexible then
    let length ← compactLengthPrefix
    setLength (some length)
  else if s.isString || (s.inSeqOfPrimitive && s.isSequenceOf KindMeta.isString) then
    let length : Int16 ← readInt
    let length ← toUsize length.toInt
    setLength (some length)
  else
    let length : Int32 ← readInt
    let length ← toUsize length.toInt
    setLength (some length)

/-- Buffers are bounded before they are allocated. -/
def readBounded (length : Nat) : DecM Bytes :=
  if messageMaxSize < length then failWith (.messageMaxSizeExceeded length) else readExact length

/-! ## Primitives -/

/-- The key and the version in a request's header decide what follows. -/
def deserializeI16 (messages : RootMessageMeta) : DecM Int16 := do
  let v : Int16 ← readInt
  let s ← getThe Dec
  if s.containers.head? = some (.struct "HeaderMezzanine") then
    if s.field = some "api_key" then
      match messages.requests v with
      | some m => set { s with
          apiKey := some v
          message := some m
          structures := m.structures
          parse := m.fields :: s.parse }
      | none => set { s with apiKey := some v }
    else if s.field = some "api_version" then
      set { s with apiVersion := some v }
  pure v

def deserializeString : DecM String := do
  if (← getThe Dec).length.isNone then readMandatoryNonNullableLength
  match (← getThe Dec).length with
  | none => failWith .stringWithoutLength
  | some length =>
    setLength none
    let bytes ← readBounded length
    match fromUtf8 bytes with
    | some s => pure s
    | none => failWith .fromUtf8

def deserializeByteBuf : DecM Bytes := do
  let length ←
    if (← getThe Dec).isFlexible then compactLengthPrefix
    else do
      let length : UInt32 ← readInt
      pure length.toNat
  readBounded length

/-- Sixteen elements of a tuple. -/
def deserializeUuid : DecM Uuid := StateT.lift fun bs =>
  if h : 16 ≤ bs.length then .ok (⟨bs.take 16, by simp [h]⟩, bs.drop 16) else .error (.error .io)

/-! ## Options -/

def deserializeOption {α : Type} (item : DecM α) : DecM (Option α) := do
  let s ← getThe Dec
  if s.isValid then
    if s.field = some "tag_buffer" then
      if s.isFlexible then
        setLength none
        some <$> item
      else
        pure none
    else if s.isRecords then
      let length ←
        if s.isFlexible then compactLengthPrefix
        else do
          let length : UInt32 ← readInt
          pure length.toNat
      if length = 0 then
        pure none
      else
        modify fun s => { s with length := some length, inRecords := true }
        some <$> item
    else if s.isSequence then
      if s.isFlexible then
        let length ← unsignedVarint
        if length = 0 then
          setLength none
          pure none
        else
          setLength (some (length - 1))
          some <$> item
      else
        let length : Int32 ← readInt
        if length = -1 then
          setLength none
          pure none
        else
          let length ← toUsize length.toInt
          setLength (some length)
          some <$> item
    else if s.isString then
      if s.isFlexible then
        let length ← unsignedVarint
        if length = 0 then
          setLength none
          pure none
        else
          setLength (some (length - 1))
          some <$> item
      else
        let length : Int16 ← readInt
        if length = -1 then
          setLength none
          pure none
        else
          let length ← toUsize length.toInt
          setLength (some length)
          some <$> item
    else if s.isNullable && s.isStructure then
      let marker : Int8 ← readInt
      if marker < 0 then
        pure none
      else
        setLength none
        some <$> item
    else
      setLength none
      some <$> item
  else
    setLength none
    pure none

/-! ## Sequences -/

/-- What becomes of a batch of negative length: room for a batch is reserved before its length
is compared with what is left. -/
def reserved : Fault := .panic .capacity

section

variable (negative : Fault)

/-- The start of `Batch::next_element_seed`.  What becomes of a negative length is a parameter
here and up to the frame, where it is `reserved`. -/
def nextBatch : Decoder Fault Bytes := do
  let baseOffset : Int64 ← Lib.get (.error .tryGet)
  let batchLength : Int32 ← Lib.get (.error .tryGet)
  if batchLength < 0 then
    Decoder.fail negative
  else
    let batch ← Decoder.takeExact (.error .overflow) batchLength.toNatClampNeg
    pure (put baseOffset ++ put batchLength ++ batch)

/-- The elements of a record set, until nothing is left of it. -/
def batches {α : Type} (ofBatch : Bytes → Except Fault α) : Nat → Bytes → Except Fault (List α)
  | 0, _ => .ok []
  | fuel + 1, bs =>
    if bs = [] then .ok [] else do
      let (batch, rest) ← nextBatch negative bs
      let a ← ofBatch batch
      let as ← batches ofBatch fuel rest
      pure (a :: as)

/-- Every batch takes twelve bytes at least. -/
def recordSet {α : Type} (ofBatch : Bytes → Except Fault α) (bs : Bytes) : Except Fault (List α) :=
  batches negative ofBatch bs.length bs

end

def times {α : Type} (item : DecM α) : Nat → DecM (List α)
  | 0 => pure []
  | n + 1 => do
    let a ← item
    let as ← times item n
    pure (a :: as)

/-- A sequence without a length ends with an error, or never if its elements take no bytes. -/
def forever {α : Type} (item : DecM α) : Nat → DecM (List α)
  | 0 => StateT.lift (Decoder.fail .diverges)
  | fuel + 1 => do
    let a ← item
    let as ← forever item fuel
    pure (a :: as)

/-- From the second element on the decoder is always in the same state, so that one element for
every byte and two more decide whether the sequence ends. -/
def unbounded {α : Type} (item : DecM α) : DecM (List α) := fun s bs =>
  forever item (bs.length + 2) s bs

def deserializeSeq {α : Type} (negative : Fault) (item : DecM α)
    (ofBatch : Bytes → Except Fault α) : DecM (List α) := do
  modify fun s => { s with inSeqOfPrimitive := s.isSequenceOf KindMeta.isPrimitive }
  let s ← getThe Dec
  setLength none
  match s.length with
  | some size =>
    if s.inRecords then
      let bytes ← readBounded size
      let as ← StateT.lift fun rest => (recordSet negative ofBatch bytes).map (·, rest)
      modify fun s => { s with inSeqOfPrimitive := false, inRecords := false }
      pure as
    else
      let as ← times item size
      modify fun s => { s with inSeqOfPrimitive := false }
      pure as
  | none =>
    let as ← unbounded item
    modify fun s => { s with inSeqOfPrimitive := false }
    pure as

/-! ## Structures -/

/-- The lookup of a structure's fields, and the field around it, while `body` runs. -/
def within {α : Type} (fields : Fields) (body : DecM α) : DecM α := do
  modify fun s => { s with parse := fields :: s.parse }
  let a ← body
  modify fun s => { s with parse := s.parse.tail }
  pure a

def endsWith (name suffix : String) : Bool := suffix.toList.isSuffixOf name.toList

def deserializeStruct {α : Type} (name : String) (body : DecM α) : DecM α := do
  modify fun s => { s with containers := .struct name :: s.containers }
  let s ← getThe Dec
  let a ← match s.message with
    | some mm =>
      match s.structures.find? fun found => found.1 == name with
      | some (_, fm) => do
        modify fun s => { s with metaField := some fm }
        let a ← within fm.fields body
        modify fun s => { s with metaField := none }
        pure a
      | none =>
        if endsWith name "Request" || endsWith name "Response" then
          within mm.fields body
        else do
          modify fun s => { s with metaField := none }
          within .nil body
    | none => body
  modify fun s => { s with containers := s.containers.tail }
  pure a

/-- `Struct::next_element_seed`. -/
def nextElement {α : Type} (field : String) (item : DecM α) : DecM α := do
  modify fun s => { s with
    field := some field
    metaField := match s.parse.head? with
      | some lookup => lookup.field field
      | none => s.metaField }
  item

def deserializeEnum {α : Type} (name : String) (body : DecM α) : DecM α := do
  modify fun s => { s with containers := .enum name :: s.containers }
  let a ← body
  modify fun s => { s with containers := s.containers.tail }
  pure a

/-! ## Tag buffers -/

def tagBufferVarint : Decoder Fault Nat :=
  fun bs => uvarintLoop 32 (.error .io) (.error (.message "overflow")) bs 0 0

def TagField.deserialize : Decoder Fault TagField := do
  let tag ← tagBufferVarint
  let length ← tagBufferVarint
  if maximumTaggedFields < length then
    Decoder.fail (.error (.message s!"maximum tagged fields exceeded {length}"))
  else
    let data ← Decoder.takeExact (.error .io) length
    pure ⟨UInt32.ofNat tag, data⟩

def TagBuffer.deserialize : Decoder Fault TagBuffer := do
  let count ← tagBufferVarint
  if maximumTaggedFields < count then
    Decoder.fail (.error (.message s!"maximum tagged fields exceeded {count}"))
  else
    Decoder.many TagField.deserialize count

/-- The sequences in a tag buffer have no length of their own. -/
def deserializeTagBuffer : DecM (Option TagBuffer) :=
  nextElement "tag_buffer" <| deserializeOption do
    let tags ← StateT.lift TagBuffer.deserialize
    modify fun s => { s with inSeqOfPrimitive := false }
    pure tags

/-! ## Types -/

/-- `Batch::deserialize` of a batch found in a record set. -/
def batchOfBytes (libs : Libraries) (bs : Bytes) : Except Fault Deflated.Batch :=
  (Deflated.Batch.tryFrom libs bs).mapError Fault.ofBatch

/-- `BatchDecoder` has the method for bytes only. -/
def Ty.ofBatch : (t : Ty) → Bytes → Except Fault t.Mezz
  | .prim .bytes, bs => .ok bs
  | _, _ => .error (.error .unexpectedType)

/-- A batch that is not in a record set is a byte buffer. -/
def deserializeBatch (libs : Libraries) : DecM Deflated.Batch := do
  let bytes ← deserializeByteBuf
  StateT.lift fun rest => (batchOfBytes libs bytes).map (·, rest)

section

variable (libs : Libraries) (messages : RootMessageMeta) (negative : Fault)

def Primitive.deserialize : (p : Primitive) → DecM p.El
  | .bool => do
    let v : UInt8 ← readInt
    pure (v != 0)
  | .bytes => deserializeByteBuf
  | .float64 => readInt
  | .int16 => deserializeI16 messages
  | .int32 => readInt
  | .int64 => readInt
  | .int8 => readInt
  | .records => deserializeStruct "Frame" <|
      nextElement "batches" (deserializeSeq negative (deserializeBatch libs) (batchOfBytes libs))
  | .string => deserializeString
  | .uint16 => readInt
  | .uuid => deserializeUuid

mutual

def Ty.deserialize : (t : Ty) → DecM t.Mezz
  | .prim p => p.deserialize libs messages negative
  | .option t => deserializeOption t.deserialize
  | .vec t => deserializeSeq negative t.deserialize t.ofBatch
  | .struct name fields => deserializeStruct name do
    let values ← fields.deserialize
    let tags ← deserializeTagBuffer
    pure (values, tags)

def Tys.deserialize : (fields : Tys) → DecM fields.Mezz
  | .nil => pure ()
  | .cons name t rest => do
    let v ← nextElement name t.deserialize
    let vs ← rest.deserialize
    pure (v, vs)
  | .tagged _ _ _ rest => rest.deserialize

end

/-! ## Frames -/

inductive Header
  | request (apiKey apiVersion : Int16) (correlationId : Int32) (clientId : Option String)
  | response (correlationId : Int32)
deriving DecidableEq

/-- The variant of `Body` that a message names. -/
structure Body where
  message : MessageMeta
  value : message.ty.El

structure Frame where
  size : Int32
  header : Header
  body : Body

/-- `HeaderMezzanine`. -/
def deserializeHeader : DecM Header := deserializeEnum "HeaderMezzanine" do
  match (← getThe Dec).kind with
  | .request => deserializeStruct "HeaderMezzanine" do
    let apiKey ← nextElement "api_key" (deserializeI16 messages)
    let apiVersion ← nextElement "api_version" (deserializeI16 messages)
    let correlationId ← nextElement "correlation_id" readInt
    let clientId ← nextElement "client_id" (deserializeOption deserializeString)
    let _ ← deserializeTagBuffer
    pure (.request apiKey apiVersion correlationId clientId)
  | .response => deserializeStruct "HeaderMezzanine" do
    let correlationId ← nextElement "correlation_id" readInt
    let _ ← deserializeTagBuffer
    pure (.response correlationId)

/-- `mezzanine::Body`, and the conversion to `Body`. -/
def deserializeBody : DecM Body := deserializeEnum "Body" do
  match (← getThe Dec).message with
  | none => failWith .unknownContainer
  | some m =>
    let v ← m.ty.deserialize libs messages negative
    pure ⟨m, m.ty.ofMezz v⟩

def Frame.deserialize : DecM Frame := deserializeStruct "Frame" do
  let size ← nextElement "size" readInt
  let header ← nextElement "header" (deserializeHeader messages)
  let body ← nextElement "body" (deserializeBody libs messages negative)
  pure { size, header, body }

/-- What reads a frame; bytes behind it are left over. -/
def Frame.reader (s : Dec) : Decoder Fault Frame := do
  let out ← Frame.deserialize libs messages negative s
  pure out.1

/-- `Frame::request_from_bytes`. -/
def Frame.requestFromBytes (encoded : Bytes) : Except Fault Frame :=
  (Frame.reader libs messages reserved .request encoded).map Prod.fst

/-- `Frame::response_from_bytes`. -/
def Frame.responseFromBytes (encoded : Bytes) (apiKey apiVersion : Int16) : Except Fault Frame :=
  (Frame.reader libs messages reserved (.response messages apiKey apiVersion) encoded).map Prod.fst

end

end Tansu.Protocol

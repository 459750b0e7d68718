import Mathlib.Data.List.Basic

/-!
# Message schemas

The metadata that steers the codec: which fields a message has, the versions
each is valid and nullable in, and the structures among them, which the decoder
looks up by name.  The fields of a structure are a list of their own type, so
that functions over a schema are structural.
-/

namespace Tansu.Protocol

/-! ## Versions -/

structure VersionRange where
  start : Int16
  stop : Int16
deriving DecidableEq

namespace VersionRange

def within (r : VersionRange) (version : Int16) : Bool :=
  decide (r.start ≤ version) && decide (version ≤ r.stop)

/-- Whether a field is in every version of the structure around it. -/
def isMandatory (r : VersionRange) : Option VersionRange → Bool
  | none => r.start == 0 && r.stop == Int16.maxValue
  | some parent =>
    if r.start < parent.start then r.stop == parent.stop
    else r.start == parent.start && r.stop == parent.stop

end VersionRange

/-! ## Kinds -/

/-- `PRIMITIVE`. -/
inductive Primitive
  | bool
  | bytes
  | float64
  | int16
  | int32
  | int64
  | int8
  | records
  | string
  | uint16
  | uuid
deriving DecidableEq

def Primitive.name : Primitive → String
  | .bool => "bool"
  | .bytes => "bytes"
  | .float64 => "float64"
  | .int16 => "int16"
  | .int32 => "int32"
  | .int64 => "int64"
  | .int8 => "int8"
  | .records => "records"
  | .string => "string"
  | .uint16 => "uint16"
  | .uuid => "uuid"

inductive Element
  | primitive (p : Primitive)
  | named (name : String)
deriving DecidableEq

/-- `KindMeta`: the name of an element, behind `[]` for a sequence of them. -/
structure KindMeta where
  sequence : Bool
  element : Element
deriving DecidableEq

namespace KindMeta

def isSequence (k : KindMeta) : Bool := k.sequence

def isPrimitive (k : KindMeta) : Bool :=
  match k with
  | ⟨false, .primitive _⟩ => true
  | _ => false

def isString (k : KindMeta) : Bool := k == ⟨false, .primitive .string⟩

def isRecords (k : KindMeta) : Bool := k == ⟨false, .primitive .records⟩

def kindOfSequence (k : KindMeta) : Option KindMeta :=
  if k.sequence then some ⟨false, k.element⟩ else none

def name (k : KindMeta) : String :=
  let element := match k.element with
    | .primitive p => p.name
    | .named n => n
  if k.sequence then "[]" ++ element else element

end KindMeta

/-! ## Fields -/

mutual

/-- `FieldMeta`.  `common` says that the structure is one of the message's common ones, whose
Rust type is generated once and without a parent. -/
inductive FieldMeta
  | mk (version : VersionRange) (nullable : Option VersionRange) (kind : KindMeta)
      (tag : Option UInt32) (common : Bool) (fields : Fields)

inductive Fields
  | nil
  | cons (name : String) (fm : FieldMeta) (rest : Fields)

end

namespace FieldMeta

def version : FieldMeta → VersionRange
  | mk version _ _ _ _ _ => version

def nullable : FieldMeta → Option VersionRange
  | mk _ nullable _ _ _ _ => nullable

def kind : FieldMeta → KindMeta
  | mk _ _ kind _ _ _ => kind

def fields : FieldMeta → Fields
  | mk _ _ _ _ _ fields => fields

end FieldMeta

namespace Fields

def isEmpty : Fields → Bool
  | nil => true
  | cons _ _ _ => false

/-- `FieldLookup::field`: the first field of that name. -/
def field (name : String) : Fields → Option FieldMeta
  | nil => none
  | cons found fm rest => if name = found then some fm else rest.field name

end Fields

namespace FieldMeta

def isNullable (fm : FieldMeta) (version : Int16) : Bool :=
  fm.nullable.any fun range => range.within version

def isStructure (fm : FieldMeta) : Bool :=
  (fm.kind.kindOfSequence.any fun sk => !sk.isPrimitive) || !fm.fields.isEmpty

end FieldMeta

mutual

/-- `FieldMeta::structures`: those inside a field.  A structure that is not in a sequence is
searched for others and not listed itself. -/
def FieldMeta.structures : FieldMeta → List (String × FieldMeta)
  | .mk _ _ _ _ _ fields => fields.structures

def Fields.structures : Fields → List (String × FieldMeta)
  | .nil => []
  | .cons _ fm rest =>
    (if fm.isStructure then
      fm.structures ++
        match fm.kind.kindOfSequence with
        | some kind => if kind.isPrimitive then [] else [(kind.name, fm)]
        | none => []
    else []) ++ rest.structures

end

/-! ## Messages -/

structure MessageMeta where
  name : String
  apiKey : Int16
  flexible : VersionRange
  fields : Fields

namespace MessageMeta

def isFlexible (m : MessageMeta) (version : Int16) : Bool := m.flexible.within version

/-- The structures of the fields of a message; here those outside a sequence are listed too. -/
def structuresOf : Fields → List (String × FieldMeta)
  | .nil => []
  | .cons _ fm rest =>
    (if fm.isStructure then
      fm.structures ++
        match fm.kind.kindOfSequence with
        | some kind => if kind.isPrimitive then [] else [(kind.name, fm)]
        | none => [(fm.kind.name, fm)]
    else []) ++ structuresOf rest

/-- `MessageMeta::structures`. -/
def structures (m : MessageMeta) : List (String × FieldMeta) := structuresOf m.fields

end MessageMeta

/-- `RootMessageMeta`: the messages by API key. -/
structure RootMessageMeta where
  requests : Int16 → Option MessageMeta
  responses : Int16 → Option MessageMeta

end Tansu.Protocol

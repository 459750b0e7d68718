import Tansu.Protocol.Schema
import Tansu.Records.Batch

/-!
# The types of messages

The generator makes two Rust types of every structure.  The public one has all
the fields; the mezzanine, which is what serde reads and writes, has the fields
without a tag and a buffer for the others.
-/

namespace Tansu.Protocol

open Lib Records

/-! ## Types -/

mutual

/-- The Rust types that occur in messages. -/
inductive Ty
  | prim (p : Primitive)
  | option (t : Ty)
  | vec (t : Ty)
  | struct (name : String) (fields : Tys)

/-- A tagged field is optional, and `t` is the type inside the option. -/
inductive Tys
  | nil
  | cons (name : String) (t : Ty) (rest : Tys)
  | tagged (name : String) (tag : UInt32) (t : Ty) (rest : Tys)

end

/-! ## Generating them -/

/-- `kind`, for a field without a tag: it is optional if it is a sequence, nullable or not in
every version. -/
def isOptional (parent : Option VersionRange) (fm : FieldMeta) : Bool :=
  fm.kind.isSequence || !(fm.nullable.isNone && fm.version.isMandatory parent)

def FieldMeta.tag : FieldMeta → Option UInt32
  | .mk _ _ _ tag _ _ => tag

mutual

/-- The type of a field that is present. -/
def FieldMeta.ty : FieldMeta → Ty
  | .mk version _ kind _ common fields =>
    let element := match kind.element with
      | .primitive p => Ty.prim p
      | .named name => .struct name (fields.tys (if common then none else some version))
    if kind.isSequence then .vec element else element

/-- `message_struct`. -/
def Fields.tys (parent : Option VersionRange) : Fields → Tys
  | .nil => .nil
  | .cons name fm rest =>
    match fm.tag with
    | some tag => .tagged name tag fm.ty (rest.tys parent)
    | none => .cons name (if isOptional parent fm then .option fm.ty else fm.ty) (rest.tys parent)

end

def MessageMeta.ty (m : MessageMeta) : Ty := .struct m.name (m.fields.tys none)

/-! ## Values -/

/-- `[u8; 16]` -/
abbrev Uuid := { bs : Bytes // bs.length = 16 }

/-- Floats are their bits. -/
abbrev Primitive.El : Primitive → Type
  | .bool => Bool
  | .bytes => Bytes
  | .float64 => UInt64
  | .int16 => Int16
  | .int32 => Int32
  | .int64 => Int64
  | .int8 => Int8
  | .records => List Deflated.Batch
  | .string => String
  | .uint16 => UInt16
  | .uuid => Uuid

/-- `TagField`. -/
structure TagField where
  tag : UInt32
  data : Bytes
deriving DecidableEq

abbrev TagBuffer := List TagField

mutual

/-- The public type. -/
def Ty.El : Ty → Type
  | .prim p => p.El
  | .option t => Option t.El
  | .vec t => List t.El
  | .struct _ fields => fields.El

def Tys.El : Tys → Type
  | .nil => Unit
  | .cons _ t rest => t.El × rest.El
  | .tagged _ _ t rest => Option t.El × rest.El

end

mutual

/-- The mezzanine. -/
def Ty.Mezz : Ty → Type
  | .prim p => p.El
  | .option t => Option t.Mezz
  | .vec t => List t.Mezz
  | .struct _ fields => fields.Mezz × Option TagBuffer

def Tys.Mezz : Tys → Type
  | .nil => Unit
  | .cons _ t rest => t.Mezz × rest.Mezz
  | .tagged _ _ _ rest => rest.Mezz

end

end Tansu.Protocol

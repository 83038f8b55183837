import ContractCalls.Json.Reader
import ContractCalls.Json.Record
import ContractCalls.Json.Shape
import ContractCalls.Ty.Basic

/-!
# Types in JSON

A resolved type is a record tagged by its kind. Inside another type the kind may also be given by
its place among the kinds.
-/

namespace ContractCalls

/-- The name of a primitive type in a record. -/
def Primitive.tag : Primitive → String
  | .int ⟨false, .one⟩ => "U8"
  | .int ⟨false, .two⟩ => "U16"
  | .int ⟨false, .four⟩ => "U32"
  | .int ⟨false, .eight⟩ => "U64"
  | .int ⟨true, .one⟩ => "I8"
  | .int ⟨true, .two⟩ => "I16"
  | .int ⟨true, .four⟩ => "I32"
  | .int ⟨true, .eight⟩ => "I64"
  | .bigUint => "BigUint"
  | .bigInt => "BigInt"
  | .bool => "Bool"
  | .address => "Address"
  | .bytes => "Bytes"
  | .text => "Utf8String"
  | .token => "TokenIdentifier"
  | .hash => "H256"

/-- The primitive type with a name in records. -/
def Primitive.ofTag? : String → Option Primitive
  | "U8" => some .u8
  | "U16" => some .u16
  | "U32" => some .u32
  | "U64" => some .u64
  | "I8" => some .i8
  | "I16" => some .i16
  | "I32" => some .i32
  | "I64" => some .i64
  | "BigUint" => some .bigUint
  | "BigInt" => some .bigInt
  | "Bool" => some .bool
  | "Address" => some .address
  | "Bytes" => some .bytes
  | "Utf8String" => some .text
  | "TokenIdentifier" => some .token
  | "H256" => some .hash
  | _ => none

/-- The name of a generic constructor in a record. -/
def Generic.tag : Generic → String
  | .option => "Option"
  | .list => "List"
  | .tuple => "Tuple"
  | .optional => "Optional"
  | .variadic => "Variadic"

/-- The generic constructor with a name in records. -/
def Generic.ofTag? : String → Option Generic
  | "Option" => some .option
  | "List" => some .list
  | "Tuple" => some .tuple
  | "Optional" => some .optional
  | "Variadic" => some .variadic
  | _ => none

/-- A primitive type is found by its name in records. -/
theorem Primitive.ofTag?_tag (p : Primitive) : Primitive.ofTag? p.tag = some p := by
  rcases p with ⟨⟨_ | _⟩, _ | _ | _ | _⟩ | _ | _ | _ | _ | _ | _ | _ | _ <;> rfl

/-- A generic constructor is found by its name in records. -/
theorem Generic.ofTag?_tag (g : Generic) : Generic.ofTag? g.tag = some g := by
  cases g <;> rfl

namespace Ty

mutual

/-- The record of a type, with its kind. -/
def toJson : Ty → Json
  | .primitive p => .object [("kind", .string "primitive"), ("name", .string p.tag)]
  | .generic g params =>
    .object [("kind", .string "generic"), ("name", .string g.tag),
      ("type_parameters", .array (toJsonAll params))]
  | .array length element =>
    .object [("kind", .string "array"), ("length", .ofNat length.toNat),
      ("element", element.toJson)]
  | .struct name fields =>
    .object [("kind", .string "struct"), ("name", .string name),
      ("fields", .array (toJsonFields fields))]
  | .enum name variants =>
    .object [("kind", .string "enum"), ("name", .string name),
      ("variants", .array (toJsonVariants variants))]

/-- The records of several types. -/
def toJsonAll : List Ty → List Json
  | [] => []
  | t :: ts => t.toJson :: toJsonAll ts

/-- The records of fields. -/
def toJsonFields : List (Field Ty) → List Json
  | [] => []
  | ⟨name, t⟩ :: fields =>
    .object [("name", .string name), ("type", t.toJson)] :: toJsonFields fields

/-- The records of variants. No fields are written for a variant without any. -/
def toJsonVariants : List (Variant Ty) → List Json
  | [] => []
  | ⟨discriminant, name, fields⟩ :: variants =>
    .object (("discriminant", .ofNat discriminant.toNat) :: ("name", .string name) ::
      (if fields.isEmpty then [] else [("fields", .array (toJsonFields fields))])) ::
      toJsonVariants variants

end

/-- The kinds of types, as they are tagged. -/
def kinds : List String := ["primitive", "generic", "array", "struct", "enum"]

/-- What is asked for in the record of a field. -/
def fieldShape : Json.Shape :=
  .record [("name", .any), ("type", .any)]

/-- Reads the record of a field, given how types are read. -/
def readField? (read : Json → Option Ty) (record : Json) : Option (Field Ty) := do
  let parts ← record.record? fieldShape.names
  return ⟨← parts.required "name" Json.toText?, ← parts.required "type" read⟩

/-- Reads the record of a variant, given how types are read. -/
def readVariant? (read : Json → Option Ty) (record : Json) : Option (Variant Ty) := do
  let parts ← record.record? ["discriminant", "name", "fields"]
  return ⟨← parts.required "discriminant" Json.toByte?, ← parts.required "name" Json.toText?,
    ← parts.withDefault "fields" (Json.toList? (readField? read)) []⟩

/-- Reads the record of a type without its tag, given the kind and how inner types are read. -/
def readKind? (read : Json → Option Ty) (kind : Nat) (body : Json) : Option Ty :=
  match kind with
  | 0 => do
    let parts ← body.record? ["name"]
    let name ← parts.required "name" (Json.caseName? true)
    return .primitive (← Primitive.ofTag? name)
  | 1 => do
    let parts ← body.record? ["name", "type_parameters"]
    let name ← parts.required "name" (Json.caseName? true)
    return .generic (← Generic.ofTag? name)
      (← parts.required "type_parameters" (Json.toList? read))
  | 2 => do
    let parts ← body.record? ["length", "element"]
    return .array (← parts.required "length" Json.toWord64?) (← parts.required "element" read)
  | 3 => do
    let parts ← body.record? ["name", "fields"]
    return .struct (← parts.required "name" Json.toText?)
      (← parts.required "fields" (Json.toList? (readField? read)))
  | 4 => do
    let parts ← body.record? ["name", "variants"]
    return .enum (← parts.required "name" Json.toText?)
      (← parts.required "variants" (Json.toList? (readVariant? read)))
  | _ => none

/-- Reads the record of a type of at most the given depth. -/
def readRecord? (byIndex : Bool) : (depth : Nat) → Json → Option Ty
  | 0, _ => none
  | depth + 1, record => do
    let (tag, body) ← record.tagged? "kind"
    let kind ← Json.tagIndex? kinds byIndex tag
    readKind? (readRecord? true depth) kind body

/-- The type that a JSON value is the record of. -/
def ofJson? (record : Json) : Option Ty :=
  readRecord? false record.depth record

/-- The type whose record a text holds. Everything is asked of the text, because the kind may stand
behind the other parts. -/
def parseRecord? (text : String) : Option Ty :=
  (Json.parse? text).bind ofJson?

end Ty

end ContractCalls

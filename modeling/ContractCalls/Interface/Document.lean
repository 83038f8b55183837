import ContractCalls.Json.Record
import ContractCalls.Json.Reader
import ContractCalls.Ty.Basic

/-!
# Interface documents

An interface document describes one contract or a list of contracts: constructor, endpoints, and
definitions of custom types by name. Types are spelled, not resolved. A document is read from JSON
records and written back with every part that has no default.
-/

namespace ContractCalls

namespace Document

/-- An input or output. `multiArg` and `multiResult` mark, for inputs and outputs, that the type
stands for any number of arguments. -/
structure Parameter where
  name : String
  type : String
  multiArg : Option Bool
  multiResult : Option Bool
  deriving DecidableEq, Repr

/-- The function that sets a contract up. -/
structure Constructor where
  docs : List String
  payableIn : List String
  inputs : List Parameter
  outputs : List Parameter
  deriving DecidableEq, Repr

/-- A function of a contract. -/
structure Endpoint where
  name : String
  docs : List String
  mutability : Option String
  payableIn : List String
  inputs : List Parameter
  outputs : List Parameter
  deriving DecidableEq, Repr

/-- The definition of a custom type, with the spellings of the types of its fields. -/
inductive Definition where
  | struct (fields : List (Field String))
  | enum (variants : List (Variant String))
  deriving DecidableEq, Repr

/-- A contract. Its definitions are sorted by name. -/
structure Contract where
  name : String
  docs : List String
  constructor : Option Constructor
  endpoints : List Endpoint
  types : List (String × Definition)
  deriving DecidableEq, Repr

end Document

/-- A document: one contract, or a list of contracts. -/
inductive Document where
  | single (contract : Document.Contract)
  | many (contracts : List Document.Contract)
  deriving DecidableEq, Repr

namespace Document

/-- The contracts of a document. -/
def contracts : Document → List Contract
  | single contract => [contract]
  | many contracts => contracts

/-! ## Reading -/

/-- A list of texts that may be missing. -/
def readTexts? (parts : Json.Record) (name : String) : Option (List String) :=
  parts.withDefault name (Json.toList? Json.toText?) []

/-- What is asked for in the record of an input or output. -/
def Parameter.shape : Json.Shape :=
  .record [("name", .any), ("type", .any), ("multi_arg", .any), ("multi_result", .any)]

/-- The input or output that a JSON value is the record of. -/
def Parameter.ofJson? (record : Json) : Option Parameter := do
  let parts ← record.record? shape.names
  return {
    name := ← parts.withDefault "name" Json.toText? ""
    type := ← parts.required "type" Json.toText?
    multiArg := ← parts.optional "multi_arg" Json.toBool?
    multiResult := ← parts.optional "multi_result" Json.toBool? }

/-- A list of inputs or outputs that may be missing. -/
def readParameters? (parts : Json.Record) (name : String) : Option (List Parameter) :=
  parts.withDefault name (Json.toList? Parameter.ofJson?) []

/-- What is asked for in the record of a constructor. -/
def Constructor.shape : Json.Shape :=
  .record [("docs", .any), ("payableInTokens", .any), ("inputs", .list Parameter.shape),
    ("outputs", .list Parameter.shape)]

/-- The constructor that a JSON value is the record of. -/
def Constructor.ofJson? (record : Json) : Option Constructor := do
  let parts ← record.record? shape.names
  return {
    docs := ← readTexts? parts "docs"
    payableIn := ← readTexts? parts "payableInTokens"
    inputs := ← readParameters? parts "inputs"
    outputs := ← readParameters? parts "outputs" }

/-- What is asked for in the record of an endpoint. -/
def Endpoint.shape : Json.Shape :=
  .record [("name", .any), ("docs", .any), ("mutability", .any), ("payableInTokens", .any),
    ("inputs", .list Parameter.shape), ("outputs", .list Parameter.shape)]

/-- The endpoint that a JSON value is the record of. -/
def Endpoint.ofJson? (record : Json) : Option Endpoint := do
  let parts ← record.record? shape.names
  return {
    name := ← parts.required "name" Json.toText?
    docs := ← readTexts? parts "docs"
    mutability := ← parts.optional "mutability" Json.toText?
    payableIn := ← readTexts? parts "payableInTokens"
    inputs := ← readParameters? parts "inputs"
    outputs := ← readParameters? parts "outputs" }

/-- The field that a JSON value is the record of. -/
def readField? (record : Json) : Option (Field String) := do
  let parts ← record.record? ["name", "type"]
  return ⟨← parts.required "name" Json.toText?, ← parts.required "type" Json.toText?⟩

/-- The variant that a JSON value is the record of. Its fields may be missing. -/
def readVariant? (record : Json) : Option (Variant String) := do
  let parts ← record.record? ["name", "discriminant", "fields"]
  return {
    name := ← parts.required "name" Json.toText?
    discriminant := ← parts.required "discriminant" Json.toByte?
    fields := ← parts.withDefault "fields" (Json.toList? readField?) [] }

/-- Reads the definition of a custom type. Where `byIndex` holds, its tag may be given by its
place. -/
def Definition.ofJson? (byIndex : Bool) (record : Json) : Option Definition := do
  let (tag, body) ← record.tagged? "type"
  match ← Json.tagIndex? ["struct", "enum"] byIndex tag with
  | 0 => do
    let parts ← body.record? ["fields"]
    return .struct (← parts.withDefault "fields" (Json.toList? readField?) [])
  | _ => do
    let parts ← body.record? ["variants"]
    return .enum (← parts.withDefault "variants" (Json.toList? readVariant?) [])

/-- Reads the definition of a member. -/
def readDefinition? (byIndex : Bool) (member : String × Json) : Option (String × Definition) :=
  (Definition.ofJson? byIndex member.2).map (member.1, ·)

/-- Reads definitions by name; of definitions of one name the last counts. -/
def readDefinitions? (byIndex : Bool) : Json → Option (List (String × Definition))
  | .object members => (members.mapM (readDefinition? byIndex)).map Sorted.ofList
  | _ => none

/-- The parts of the record of a contract. Everything is asked of a definition, because its tag may
stand behind its other parts. -/
def Contract.shape : Json.Shape :=
  .record [("name", .any), ("docs", .any), ("constructor", Constructor.shape),
    ("endpoints", .list Endpoint.shape), ("types", .any)]

/-- Reads a contract. Inside a document the tags of definitions may be given by their places. -/
def Contract.ofJson? (inDocument : Bool) (record : Json) : Option Contract := do
  let parts ← record.record? shape.names
  return {
    name := ← parts.required "name" Json.toText?
    docs := ← readTexts? parts "docs"
    constructor := ← parts.optional "constructor" Constructor.ofJson?
    endpoints := ← parts.withDefault "endpoints" (Json.toList? Endpoint.ofJson?) []
    types := ← parts.withDefault "types" (readDefinitions? inDocument) [] }

/-- Reads a document: a list of contracts if it can be one, otherwise a contract. -/
def ofJson? (value : Json) : Option Document :=
  match value.toList? (Contract.ofJson? true) with
  | some contracts => some (many contracts)
  | none => (Contract.ofJson? true value).map single

/-- The document that a text holds. Everything is asked of the text, because only its value shows
whether it is a contract or a list of contracts. -/
def parse? (text : String) : Option Document :=
  (Json.parse? text).bind ofJson?

/-- The contract that a text is the record of. -/
def Contract.parse? (text : String) : Option Contract :=
  (Json.parseFor? Contract.shape text).bind (Contract.ofJson? false)

/-! ## Writing -/

/-- A list of texts. -/
def writeTexts (texts : List String) : Json :=
  .array (texts.map .string)

/-- A member for a list of texts, left out if the list is empty. -/
def textsMember (name : String) (texts : List String) : List (String × Json) :=
  if texts.isEmpty then [] else [(name, writeTexts texts)]

/-- A member for a part that may be missing. -/
def optionalMember {α : Type} (name : String) (write : α → Json) :
    Option α → List (String × Json)
  | none => []
  | some a => [(name, write a)]

/-- The record of an input or output. -/
def Parameter.toJson (p : Parameter) : Json :=
  .object ([("name", .string p.name), ("type", .string p.type)] ++
    optionalMember "multi_arg" .bool p.multiArg ++
    optionalMember "multi_result" .bool p.multiResult)

/-- The members for inputs and outputs. -/
def parametersMembers (inputs outputs : List Parameter) : List (String × Json) :=
  [("inputs", .array (inputs.map Parameter.toJson)),
    ("outputs", .array (outputs.map Parameter.toJson))]

/-- The record of a constructor. -/
def Constructor.toJson (c : Constructor) : Json :=
  .object (textsMember "docs" c.docs ++ textsMember "payableInTokens" c.payableIn ++
    parametersMembers c.inputs c.outputs)

/-- The record of an endpoint. -/
def Endpoint.toJson (e : Endpoint) : Json :=
  .object ([("name", .string e.name)] ++ textsMember "docs" e.docs ++
    optionalMember "mutability" .string e.mutability ++
    textsMember "payableInTokens" e.payableIn ++ parametersMembers e.inputs e.outputs)

/-- The record of a field. -/
def writeField (field : Field String) : Json :=
  .object [("name", .string field.name), ("type", .string field.type)]

/-- The record of a variant. -/
def writeVariant (variant : Variant String) : Json :=
  .object [("name", .string variant.name), ("discriminant", .ofNat variant.discriminant.toNat),
    ("fields", .array (variant.fields.map writeField))]

/-- The record of a definition, with its tag. -/
def Definition.toJson : Definition → Json
  | struct fields =>
    .object [("type", .string "struct"), ("fields", .array (fields.map writeField))]
  | enum variants =>
    .object [("type", .string "enum"), ("variants", .array (variants.map writeVariant))]

/-- The record of a contract. -/
def Contract.toJson (c : Contract) : Json :=
  .object ([("name", .string c.name)] ++ textsMember "docs" c.docs ++
    optionalMember "constructor" Constructor.toJson c.constructor ++
    [("endpoints", .array (c.endpoints.map Endpoint.toJson)),
      ("types", .object (c.types.map fun (name, definition) => (name, definition.toJson)))])

/-- The record of a contract, or the list of those of several. -/
def toJson : Document → Json
  | single contract => contract.toJson
  | many contracts => .array (contracts.map Contract.toJson)

end Document

end ContractCalls

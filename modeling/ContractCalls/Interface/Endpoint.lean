import ContractCalls.Codec.Decode
import ContractCalls.Json.Reader
import ContractCalls.Json.Record
import ContractCalls.Ty.Json

/-!
# Endpoints

The signature of a function of a contract: its inputs and outputs, whether it changes state, and
which assets it accepts. A list of accepted assets may hold the native asset, token identifiers,
`*` for any asset, and exclusions marked by `!`.
-/

namespace ContractCalls

/-- Whether a call may change the state of a contract. -/
inductive Mutability where
  | readonly
  | mutable
  deriving DecidableEq, Repr

namespace Mutability

/-- The spelling of a mutability. -/
def name : Mutability → String
  | readonly => "readonly"
  | mutable => "mutable"

/-- The mutability with a spelling. -/
def ofName? : String → Option Mutability
  | "readonly" => some readonly
  | "mutable" => some mutable
  | _ => none

/-- The mutability that a document gives; what is not spelled `readonly` is mutable. -/
def ofDocument : Option String → Mutability
  | some "readonly" => readonly
  | _ => mutable

end Mutability

/-- The name of the native asset. -/
def nativeToken : String := "EGLD"

/-- The mark of any asset. -/
def anyToken : String := "*"

/-- The mark that excludes an asset. -/
def exclusion (token : String) : String := "!" ++ token

/-- A function of a contract. The native asset is never among the accepted tokens. -/
structure Endpoint where
  name : String
  docs : List String
  inputs : List (Field Ty)
  outputs : List (Field Ty)
  mutability : Mutability
  payableInNative : Bool
  payableInTokens : List String
  deriving DecidableEq, Repr

namespace Endpoint

/-- An endpoint whose accepted assets are given as a document lists them. -/
def make (name : String) (docs : List String) (inputs outputs : List (Field Ty))
    (mutability : Mutability) (payableIn : List String) : Endpoint where
  name
  docs
  inputs
  outputs
  mutability
  payableInNative := payableIn.any fun t =>
    t = nativeToken || (t = anyToken && !payableIn.contains (exclusion nativeToken))
  payableInTokens := payableIn.filter fun t => t ≠ nativeToken && t ≠ exclusion nativeToken

/-- The types of the inputs. -/
def inputTypes (e : Endpoint) : List Ty :=
  e.inputs.map (·.type)

/-- The types of the outputs. -/
def outputTypes (e : Endpoint) : List Ty :=
  e.outputs.map (·.type)

/-- Whether a call changes nothing. -/
def isReadonly (e : Endpoint) : Bool :=
  e.mutability = .readonly

/-- Whether a transfer of a token is accepted: a listed token is, otherwise an excluded one is not,
otherwise any token is if the mark of any asset is listed. -/
def isPayableInToken (e : Endpoint) (token : String) : Bool :=
  if token = nativeToken then e.payableInNative
  else if e.payableInTokens.contains token then true
  else if e.payableInTokens.contains (exclusion token) then false
  else e.payableInTokens.contains anyToken

/-- Whether an endpoint lists any asset. -/
def isPayable (e : Endpoint) : Bool :=
  e.payableInNative || !e.payableInTokens.isEmpty

/-- The values of the outputs that returned data make. -/
def decodeOutputs (e : Endpoint) (data : List Bytes) : Except CodecError (List Value) :=
  Value.decodeArguments e.outputTypes data

/-! ## Records -/

/-- The record of an endpoint. No documentation is written for one without any. -/
def toJson (e : Endpoint) : Json :=
  .object ([("name", .string e.name)] ++
    (if e.docs.isEmpty then [] else [("docs", .array (e.docs.map .string))]) ++
    [("inputs", .array (Ty.toJsonFields e.inputs)), ("outputs", .array (Ty.toJsonFields e.outputs)),
      ("mutability", .string e.mutability.name), ("payable_in_egld", .bool e.payableInNative),
      ("payable_in_tokens", .array (e.payableInTokens.map .string))])

/-- Reads the mutability of an endpoint. -/
def readMutability? (value : Json) : Option Mutability :=
  (value.caseName? false).bind Mutability.ofName?

/-- What is asked for in the record of an endpoint. -/
def shape : Json.Shape :=
  .record [("name", .any), ("docs", .any), ("inputs", .list Ty.fieldShape),
    ("outputs", .list Ty.fieldShape), ("mutability", .any), ("payable_in_egld", .any),
    ("payable_in_tokens", .any)]

/-- The endpoint that a JSON value is the record of. -/
def ofJson? (record : Json) : Option Endpoint := do
  let parts ← record.record? shape.names
  let parameters := Json.toList? (Ty.readField? Ty.ofJson?)
  return {
    name := ← parts.required "name" Json.toText?
    docs := ← parts.withDefault "docs" (Json.toList? Json.toText?) []
    inputs := ← parts.required "inputs" parameters
    outputs := ← parts.required "outputs" parameters
    mutability := ← parts.required "mutability" readMutability?
    payableInNative := ← parts.required "payable_in_egld" Json.toBool?
    payableInTokens := ← parts.required "payable_in_tokens" (Json.toList? Json.toText?) }

/-- The endpoint that a text is the record of. -/
def parse? (text : String) : Option Endpoint :=
  (Json.parseFor? shape text).bind ofJson?

end Endpoint

end ContractCalls

import ContractCalls.Interface.Endpoint
import ContractCalls.Json.Printer

/-!
# Listings of endpoints

A listing gives the signature of each endpoint, as lines for people or as JSON.
-/

namespace ContractCalls.Command

/-- The assets that an endpoint accepts, the native one first. -/
def acceptedAssets (e : Endpoint) : List String :=
  (if e.payableInNative then [nativeToken] else []) ++ e.payableInTokens

/-- The end of the first line of an endpoint, which tells what it accepts. -/
def payableNote (e : Endpoint) : String :=
  match acceptedAssets e with
  | [] => ""
  | assets => " payable in " ++ Text.joinStrings ", " assets

/-- The lines of an endpoint. -/
def endpointLines (e : Endpoint) : String :=
  e.name ++ " [" ++ e.mutability.name ++ "]" ++ payableNote e ++ "\n" ++
    String.join (e.inputs.map fun input =>
      "  → " ++ input.name ++ ": " ++ input.type.display ++ "\n") ++
    String.join (e.outputs.map fun output => "  ← " ++ output.type.display ++ "\n")

/-- A listing for people. -/
def listingText (endpoints : List Endpoint) : String :=
  String.join (endpoints.map endpointLines) ++
    "\nTotal: " ++ toString endpoints.length ++ " endpoints\n"

/-- Inputs or outputs in a listing. -/
def parametersJson (parameters : List (Field Ty)) : Json :=
  .array (parameters.map fun p =>
    Json.ofMembers [("name", .string p.name), ("type", .string p.type.display)])

/-- A list of texts. -/
def textsJson (texts : List String) : Json :=
  .array (texts.map .string)

/-- An endpoint in a listing. -/
def endpointJson (e : Endpoint) : Json :=
  Json.ofMembers [("name", .string e.name), ("mutability", .string e.mutability.name),
    ("payable_in_egld", .bool e.payableInNative),
    ("payable_in_tokens", textsJson e.payableInTokens), ("inputs", parametersJson e.inputs),
    ("outputs", parametersJson e.outputs), ("docs", textsJson e.docs)]

/-- A listing for programs. -/
def listingJson (endpoints : List Endpoint) : Json :=
  .array (endpoints.map endpointJson)

end ContractCalls.Command

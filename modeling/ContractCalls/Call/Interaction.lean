import ContractCalls.Call.Check
import ContractCalls.Call.Payload
import ContractCalls.Codec.Encode
import ContractCalls.Interface.Registry

/-!
# Interactions

A prepared call: the function, its arguments, what is transferred, and the gas it may use. It is
checked against an interface and then rendered as call data.
-/

namespace ContractCalls

/-- A prepared call. Each transfer of a token adds a surcharge to `baseGasLimit`. -/
structure Interaction where
  function : String
  arguments : List Value
  value : Nat
  tokens : List TokenTransfer
  baseGasLimit : UInt64
  gasPrice : UInt64
  receiver : Option Key

namespace Interaction

/-- The gas price of a new interaction. -/
def minGasPrice : UInt64 := 1000000000

/-- The surcharge for the transfer of a token. -/
def transferGasLimit : Nat := 500000

/-- The greatest gas limit. -/
def maxGasLimit : Nat := 0xffffffffffffffff

/-- A call that transfers nothing. -/
def make (function : String) (arguments : List Value) : Interaction :=
  { function, arguments, value := 0, tokens := [], baseGasLimit := 0, gasPrice := minGasPrice
    receiver := none }

/-- The gas limit with the surcharges; neither they nor the sum exceed the greatest. -/
def gasLimit (i : Interaction) : Nat :=
  min maxGasLimit (i.baseGasLimit.toNat + min maxGasLimit (transferGasLimit * i.tokens.length))

/-- All that the call transfers. -/
def transferred (i : Interaction) : Transferred :=
  ⟨i.value, i.tokens⟩

/-- Finds the endpoint and checks the call against it. -/
def check (i : Interaction) (view : View) : Except CallError Endpoint := do
  let e ← (view.endpoint i.function).mapError .interface
  e.check i.arguments i.transferred
  return e

/-- The contract that the transfers name. -/
def receiverKey (i : Interaction) : Except CallError Key :=
  match i.receiver with
  | some key => .ok key
  | none => .error (.missingReceiver i.tokens.length)

/-- Wraps a call in the transfer of the tokens it carries. -/
def wrap (i : Interaction) (call : Payload) : Except CallError Payload :=
  match i.tokens with
  | [] => .ok call
  | [t] =>
    if t.isFungible then .ok (call.transferFungible t)
    else return call.transferSingle t (← i.receiverKey)
  | ts => return call.transferSeveral ts (← i.receiverKey)

/-- Checks the call and renders it as call data. -/
def build (i : Interaction) (view : View) : Except CallError Payload := do
  let _ ← i.check view
  let arguments ← (Value.encodeArguments i.arguments).mapError .codec
  i.wrap ⟨i.function, arguments⟩

end Interaction

end ContractCalls

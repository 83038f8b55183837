import ContractCalls.Bytes.Address
import ContractCalls.Call.Transfer
import ContractCalls.Text.Split

/-!
# Call data

A call is rendered as the name of the function and its arguments in hexadecimal form, with `@`
between them. A call that carries tokens is wrapped in a call of a transfer function, whose
arguments tell the tokens and then the call.
-/

namespace ContractCalls

/-- A function name and arguments. -/
structure Payload where
  function : String
  arguments : List Bytes
  deriving DecidableEq, Repr

/-- Why a text is no call data. -/
inductive PayloadError where
  /-- Nothing stands before the first separator. -/
  | missingFunction
  /-- An argument is no hexadecimal form. -/
  | invalidHex (index : Nat) (fault : Hex.Fault)
  deriving DecidableEq, Repr

/-- The message of call data that is not read. -/
def PayloadError.message : PayloadError → String
  | .missingFunction => "call data has no function name"
  | .invalidHex index fault =>
    "argument " ++ toString index ++ " is not valid hex: " ++ fault.message

namespace Payload

/-- The character between the parts of call data. -/
def separator : Char := '@'

/-! ## Rendering and reading -/

/-- The call data as a text. -/
def render (p : Payload) : String :=
  String.ofList (p.function.toList ++
    p.arguments.flatMap fun argument => separator :: (Hex.encode argument).toList)

/-- The call data as bytes. -/
def toBytes (p : Payload) : Bytes :=
  Bytes.ofText p.render

/-- The arguments whose hexadecimal forms the parts are, where `index` of them stand before. -/
def readArguments (index : Nat) : List (List Char) → Except PayloadError (List Bytes)
  | [] => .ok []
  | part :: parts => do
    let argument ← (Hex.decode (String.ofList part)).mapError (.invalidHex index)
    return argument :: (← readArguments (index + 1) parts)

/-- The call that a text renders. -/
def parse (data : String) : Except PayloadError Payload :=
  match Text.splitAt separator data.toList with
  | [] => .error .missingFunction
  | [] :: _ => .error .missingFunction
  | name :: parts => return ⟨String.ofList name, ← readArguments 0 parts⟩

/-! ## Transfers -/

/-- The call as the last arguments of a transfer. -/
def asArguments (call : Payload) : List Bytes :=
  Bytes.ofText call.function :: call.arguments

/-- A call with one fungible token, sent to the contract. -/
def transferFungible (t : TokenTransfer) (call : Payload) : Payload where
  function := "ESDTTransfer"
  arguments := [Bytes.ofText t.token, Bytes.ofNat t.amount] ++ call.asArguments

/-- A call with one token that has a nonce, sent to the account of the caller. -/
def transferSingle (t : TokenTransfer) (receiver : Key) (call : Payload) : Payload where
  function := "ESDTNFTTransfer"
  arguments := [Bytes.ofText t.token, Bytes.ofNat t.nonce.toNat, Bytes.ofNat t.amount,
    receiver.bytes] ++ call.asArguments

/-- The arguments that tell a token of several. -/
def transferArguments (t : TokenTransfer) : List Bytes :=
  [Bytes.ofText t.token, Bytes.ofNat t.nonce.toNat, Bytes.ofNat t.amount]

/-- A call with several tokens, sent to the account of the caller. -/
def transferSeveral (ts : List TokenTransfer) (receiver : Key) (call : Payload) : Payload where
  function := "MultiESDTNFTTransfer"
  arguments := [receiver.bytes, Bytes.ofNat ts.length] ++ ts.flatMap transferArguments ++
    call.asArguments

end Payload

end ContractCalls

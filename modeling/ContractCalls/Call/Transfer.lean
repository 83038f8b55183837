import ContractCalls.Json.Reader
import ContractCalls.Json.Record

/-!
# Transfers

What a call sends to a contract: an amount of the native asset and transfers of tokens.
-/

namespace ContractCalls

/-- A transfer of a token. The nonce of a fungible token is zero. -/
structure TokenTransfer where
  token : String
  nonce : UInt64
  amount : Nat
  deriving DecidableEq, Repr

namespace TokenTransfer

/-- Whether the token is fungible. -/
def isFungible (t : TokenTransfer) : Bool :=
  t.nonce = 0

/-- The record of a transfer of a token. -/
def toJson (t : TokenTransfer) : Json :=
  .object [("token_identifier", .string t.token), ("nonce", .ofNat t.nonce.toNat),
    ("amount", .ofBigNat t.amount)]

/-- What is asked for in the record of a transfer of a token. -/
def shape : Json.Shape :=
  .record [("token_identifier", .any), ("nonce", .any), ("amount", .any)]

/-- The transfer of a token that a JSON value is the record of. -/
def ofJson? (record : Json) : Option TokenTransfer := do
  let parts ← record.record? shape.names
  return {
    token := ← parts.required "token_identifier" Json.toText?
    nonce := ← parts.required "nonce" Json.toWord64?
    amount := ← parts.required "amount" Json.toBigNat? }

/-- The transfer of a token that a text is the record of. -/
def parse? (text : String) : Option TokenTransfer :=
  (Json.parseFor? shape text).bind ofJson?

end TokenTransfer

/-- All that a call transfers. -/
structure Transferred where
  native : Nat
  tokens : List TokenTransfer
  deriving DecidableEq, Repr

namespace Transferred

/-- Whether nothing is transferred. A transfer of no amount counts. -/
def isNothing (t : Transferred) : Bool :=
  t.native = 0 && t.tokens.isEmpty

/-- The record of all that is transferred. -/
def toJson (t : Transferred) : Json :=
  .object [("egld", .ofBigNat t.native), ("tokens", .array (t.tokens.map TokenTransfer.toJson))]

/-- What is asked for in the record of all that is transferred. -/
def shape : Json.Shape :=
  .record [("egld", .any), ("tokens", .list TokenTransfer.shape)]

/-- All that is transferred by the record that a JSON value is. -/
def ofJson? (record : Json) : Option Transferred := do
  let parts ← record.record? shape.names
  return {
    native := ← parts.required "egld" Json.toBigNat?
    tokens := ← parts.withDefault "tokens" (Json.toList? TokenTransfer.ofJson?) [] }

/-- All that is transferred by the record that a text holds. -/
def parse? (text : String) : Option Transferred :=
  (Json.parseFor? shape text).bind ofJson?

end Transferred

end ContractCalls

import ContractCalls.Call.Interaction
import ContractCalls.Command.Options
import ContractCalls.Command.Report
import ContractCalls.Text.Split
import ContractCalls.Value.Literal

/-!
# Spelled calls

How options spell a call: an argument is a type and a literal with an equals sign between them, a
transfer of a token is its identifier, its nonce and its amount with colons between them.
-/

namespace ContractCalls.Command

/-- A refused literal with the refusals it comes from. -/
def literalReport (e : LiteralError) : Report :=
  ⟨e.message, e.causes.map LiteralError.message⟩

/-- The result, or the failure that tells the refusal. -/
def orReport {ε α : Type} (tell : ε → Report) (result : Except ε α) : Except Report α :=
  result.mapError tell

/-- The result, or a failure with the given message. -/
def orMessage {α : Type} (message : String) : Option α → Except Report α
  | some a => .ok a
  | none => .error (.ofMessage message)

/-- The type and the literal of an argument. No type is spelled with an equals sign. -/
def splitArgument (spelled : String) : Except Report (String × Json) :=
  match Text.splitFirst '=' spelled.toList with
  | some (type, literal) =>
    .ok (String.ofList (Text.trim type), .ofLiteral (String.ofList (Text.trim literal)))
  | none => .error (.ofMessage ("Argument '" ++ spelled ++ "' is not of the form TYPE=JSON"))

/-- The value of an argument, where `index` arguments stand before it. -/
def readArgument (table : Ty.Table) (index : Nat) (spelled : String) : Except Report Value := do
  let (type, literal) ← splitArgument spelled
  let type ← orReport (fun e => .ofMessage e.message) (Ty.parse type table)
  orReport (fun e => .around ("Invalid argument " ++ toString index) (literalReport e))
    (Value.ofJson type literal)

/-- The values of arguments, where `index` arguments stand before them. -/
def readArguments (table : Ty.Table) (index : Nat) : List String → Except Report (List Value)
  | [] => .ok []
  | spelled :: rest => do
    let v ← readArgument table index spelled
    return v :: (← readArguments table (index + 1) rest)

/-- The amount of a transfer. -/
def readAmount (spelled : String) (amount : List Char) : Except Report Nat :=
  orMessage ("Invalid token amount '" ++ String.ofList amount ++ "' in '" ++ spelled ++ "'")
    (Numeral.unboundedNatural? amount)

/-- The transfer of a token. Without a nonce the token is fungible. -/
def readTransfer (spelled : String) : Except Report TokenTransfer :=
  match Text.splitAt ':' spelled.toList with
  | [token, amount] => return ⟨String.ofList token, 0, ← readAmount spelled amount⟩
  | [token, nonce, amount] => do
    let nonce := String.ofList nonce
    let n ← orMessage ("Invalid nonce '" ++ nonce ++ "' in '" ++ spelled ++ "'")
      (Numeral.word64? nonce)
    return ⟨String.ofList token, n, ← readAmount spelled amount⟩
  | _ =>
    .error (.ofMessage ("Token transfer '" ++ spelled ++ "' is not of the form ID[:NONCE]:AMOUNT"))

/-- The amount of the native asset. -/
def readNative (spelled : String) : Except Report Nat :=
  orMessage ("Invalid EGLD value '" ++ spelled ++ "'")
    (Numeral.unboundedNatural? spelled.toList)

/-- The address of a contract. -/
def readReceiver (spelled : String) : Except Report Key :=
  orMessage ("Receiver '" ++ spelled ++ "' is not a 32-byte hex address") (Key.ofHex? spelled)

/-- The call that options spell. -/
def CallSpelling.interaction (call : CallSpelling) (table : Ty.Table) :
    Except Report Interaction := do
  let arguments ← readArguments table 0 call.arguments
  let native ← call.value.mapM readNative
  let tokens ← call.tokens.mapM readTransfer
  let receiver ← call.receiver.mapM readReceiver
  return { Interaction.make call.endpoint arguments with
    value := native.getD 0
    tokens
    receiver
    baseGasLimit := call.gasLimit }

end ContractCalls.Command

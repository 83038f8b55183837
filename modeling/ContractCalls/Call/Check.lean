import ContractCalls.Call.Error
import ContractCalls.Call.Transfer
import ContractCalls.Interface.Endpoint
import ContractCalls.Value.Conforms

/-!
# Checking calls

A proposed call is checked against its endpoint: first the assets it sends, then the number of its
arguments, then each argument. The first failure is reported.
-/

namespace ContractCalls.Endpoint

/-- The first asset that the endpoint refuses, the native one before the tokens. -/
def refusedAsset? (e : Endpoint) (transferred : Transferred) : Option Asset :=
  if transferred.native ≠ 0 ∧ ¬e.payableInNative then some .native
  else (transferred.tokens.find? fun t => !e.isPayableInToken t.token).map (Asset.token ·.token)

/-- Checks the assets that a call sends. -/
def checkPayable (e : Endpoint) (transferred : Transferred) : Except CallError Unit :=
  match e.refusedAsset? transferred with
  | some asset => .error (.notPayable asset)
  | none => .ok ()

/-- Checks the number of arguments. -/
def checkArity (e : Endpoint) (arguments : List Value) : Except CallError Unit :=
  if arguments.length = e.inputs.length then .ok ()
  else .error (.arityMismatch e.inputs.length arguments.length)

/-- Checks arguments against inputs one by one, where `index` of them stand before. -/
def checkArgumentsFrom (index : Nat) : List (Field Ty) → List Value → Except CallError Unit
  | input :: inputs, v :: vs =>
    if Value.isCompatible input.type v then checkArgumentsFrom (index + 1) inputs vs
    else .error (.typeMismatch index input.type v.type)
  | _, _ => .ok ()

/-- Checks a call of the endpoint. -/
def check (e : Endpoint) (arguments : List Value) (transferred : Transferred) :
    Except CallError Unit := do
  e.checkPayable transferred
  e.checkArity arguments
  checkArgumentsFrom 0 e.inputs arguments

end ContractCalls.Endpoint

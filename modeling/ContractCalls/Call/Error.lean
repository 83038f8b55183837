import ContractCalls.Codec.Error
import ContractCalls.Interface.Error

/-!
# Refused calls
-/

namespace ContractCalls

/-- An asset that an endpoint does not accept. -/
inductive Asset where
  | native
  | token (id : String)
  deriving DecidableEq, Repr

/-- How an asset is called in messages. -/
def Asset.display : Asset → String
  | .native => "EGLD value"
  | .token id => "token " ++ id

/-- Why a call is refused. -/
inductive CallError where
  /-- The endpoint does not accept an asset. -/
  | notPayable (asset : Asset)
  /-- The number of arguments is not that of the inputs. -/
  | arityMismatch (expected actual : Nat)
  /-- An argument may not be passed for its input. -/
  | typeMismatch (index : Nat) (expected actual : Ty)
  /-- The transfers have to name the contract, which is not known. -/
  | missingReceiver (transfers : Nat)
  /-- The endpoint is not found. -/
  | interface (e : InterfaceError)
  /-- An argument has no bytes. -/
  | codec (e : CodecError)
  deriving DecidableEq, Repr

/-- How the type of a refused argument is told: a type spelled like the expected one belongs to an
argument whose contents do not conform to it. -/
def describeActual (expected actual : Ty) : String :=
  if actual.display = expected.display then actual.display ++ " with non-conforming contents"
  else actual.display

/-- The message of a refused call. -/
def CallError.message : CallError → String
  | .notPayable asset => "cannot send " ++ asset.display ++ " to non-payable"
  | .arityMismatch expected actual =>
    "bad arguments, expected: " ++ toString expected ++ ", got: " ++ toString actual
  | .typeMismatch index expected actual =>
    "type mismatch at index " ++ toString index ++ ", expected: " ++ expected.display ++
      ", got: " ++ describeActual expected actual
  | .missingReceiver transfers =>
    toString transfers ++ " token transfer(s) require an explicit receiver address"
  | .interface e => e.message
  | .codec e => e.message

end ContractCalls

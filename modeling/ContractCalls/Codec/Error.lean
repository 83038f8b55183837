import ContractCalls.Ty.Basic

/-!
# Refused encodings
-/

namespace ContractCalls

/-- Why bytes are no value of a type, or a value has no bytes. -/
inductive CodecError where
  /-- Fewer bytes are left than are needed. -/
  | underflow (type : Ty) (needed available : Nat)
  /-- A marking byte stands for no variant. -/
  | invalidDiscriminant (type : Ty) (discriminant : UInt8)
  /-- Bytes are left behind a value. -/
  | trailingBytes (count : Nat) (type : Ty)
  /-- A number does not fit the bytes it is written with. -/
  | overflow (type : Ty) (width : Nat)
  /-- A value of several arguments stands inside another value. -/
  | notNestable (type : Ty)
  /-- Bytes are no UTF-8 text. -/
  | invalidUtf8 (type : Ty)
  /-- A value of several arguments stands where one argument is expected. -/
  | multiArgument (type : Ty)
  /-- There is no argument for a type. -/
  | missingArgument (index : Nat) (type : Ty)
  /-- More items without bytes are claimed than are allowed. -/
  | tooManyItems (type : Ty) (count limit : Nat)
  /-- Arguments are left behind the last type. -/
  | tooManyArguments (count : Nat)
  deriving DecidableEq, Repr

/-- The message of a value that is not encoded or decoded. -/
def CodecError.message : CodecError → String
  | underflow type needed available =>
    "cannot decode " ++ type.display ++ ": needed " ++ toString needed ++ " more byte(s), " ++
      toString available ++ " available"
  | invalidDiscriminant type discriminant =>
    "invalid discriminant " ++ toString discriminant.toNat ++ " for " ++ type.display
  | trailingBytes count type =>
    toString count ++ " trailing byte(s) after decoding " ++ type.display
  | overflow type width =>
    "value of " ++ type.display ++ " does not fit in " ++ toString width ++ " byte(s)"
  | notNestable type => type.display ++ " is a multi-value type and cannot be nested"
  | invalidUtf8 type => "invalid UTF-8 in " ++ type.display
  | multiArgument type =>
    type.display ++ " spans several arguments; encode it as part of an argument list"
  | missingArgument index type =>
    "missing argument " ++ toString index ++ " of type " ++ type.display
  | tooManyItems type count limit =>
    type.display ++ " declares " ++ toString count ++
      " zero-width items, more than the limit of " ++ toString limit
  | tooManyArguments count =>
    "too many arguments: " ++ toString count ++ " unexpected trailing argument(s)"

end ContractCalls

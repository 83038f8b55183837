import ContractCalls.Text.Join

/-!
# Malformed types

Why the spelling of a type, or the definition of a custom type, is refused.
-/

namespace ContractCalls

/-- What is wrong with a type. -/
inductive TypeFault where
  /-- A name is missing; the offset counts the bytes before it. -/
  | missingName (offset : Nat)
  /-- Parameters stand in one another beyond the limit. -/
  | tooDeep (limit : Nat)
  /-- The parameters of a name are followed by neither a comma nor a closing bracket. -/
  | unclosed (name : String)
  /-- Text stands behind the type. -/
  | trailing (rest : String)
  /-- A primitive type has parameters. -/
  | primitiveParameters (name : String)
  /-- A generic has a wrong number of parameters. -/
  | parameterCount (name : String) (count : Nat)
  /-- A fixed-size array has not exactly one parameter. -/
  | arrayParameters (name : String)
  /-- A struct or enum has parameters. -/
  | customParameters (name : String)
  /-- No type has the name. -/
  | unknown (name : String)
  /-- A definition needs itself, through the definitions before it. -/
  | recursive (chain : List String) (name : String)
  /-- Two variants of an enum have one discriminant. -/
  | repeatedDiscriminant (discriminant : UInt8)
  deriving DecidableEq, Repr

/-- The message of a fault in a type. -/
def TypeFault.message : TypeFault → String
  | .missingName offset => "expected a type name at offset " ++ toString offset
  | .tooDeep limit => "type parameters nested deeper than " ++ toString limit ++ " levels"
  | .unclosed name => "expected ',' or '>' after '" ++ name ++ "'"
  | .trailing rest => "unexpected trailing input '" ++ rest ++ "'"
  | .primitiveParameters name => "'" ++ name ++ "' does not take type parameters"
  | .parameterCount name count =>
    "'" ++ name ++ "' given " ++ toString count ++ " type parameter(s)"
  | .arrayParameters name => "'" ++ name ++ "' takes exactly one type parameter"
  | .customParameters name => "custom type '" ++ name ++ "' does not take type parameters"
  | .unknown name => "unknown type '" ++ name ++ "'"
  | .recursive chain name =>
    "recursive type definition (" ++ Text.joinStrings " -> " chain ++ " -> " ++ name ++ ")"
  | .repeatedDiscriminant discriminant =>
    "duplicate discriminant " ++ toString discriminant.toNat

/-- A refused type: its spelling, or the name of its definition, and what is wrong with it. -/
structure MalformedType where
  source : String
  fault : TypeFault
  deriving DecidableEq, Repr

/-- The message of a malformed type, with its source. -/
def MalformedType.message (e : MalformedType) : String :=
  "malformed type '" ++ e.source ++ "': " ++ e.fault.message

end ContractCalls

import ContractCalls.Ty.Basic

/-!
# Refused literals
-/

namespace ContractCalls

/-- Why a JSON literal is no value of a type. -/
inductive LiteralError where
  /-- The literal is not of the expected form. -/
  | invalid (expected found : String)
  /-- There are more or fewer items than the type has. -/
  | lengthMismatch (type : Ty) (expected actual : Nat)
  /-- The type has no field or variant of the name. -/
  | unknownMember (type : Ty) (name : String)
  /-- A part of the literal is refused. -/
  | within (context : String) (cause : LiteralError)
  deriving Repr

namespace LiteralError

/-- The message of a literal that is not read. -/
def message : LiteralError → String
  | invalid expected found => "expected " ++ expected ++ ", got " ++ found
  | lengthMismatch type expected actual =>
    type.display ++ " expects " ++ toString expected ++ " item(s), got " ++ toString actual
  | unknownMember type name =>
    type.display ++ " has no variant or field named '" ++ name ++ "'"
  | within context cause => context ++ ": " ++ cause.message

/-- The refusals of the parts that a refusal comes from, each inside the one before. -/
def causes : LiteralError → List LiteralError
  | within _ cause => cause :: cause.causes
  | _ => []

end LiteralError

end ContractCalls

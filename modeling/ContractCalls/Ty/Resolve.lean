import ContractCalls.Text.Numeral
import ContractCalls.Ty.Basic
import ContractCalls.Ty.Expression

/-!
# Resolving type expressions

A name is a primitive type, a generic, a fixed-size array or a custom type, tried in this order.
Only custom types depend on where the name stands, so they are looked up by a function of the
caller.
-/

namespace ContractCalls.Ty

/-- The length in the name of a fixed-size array, such as 32 in `array32`. It must fit 64 bits. -/
def arrayLength? (name : String) : Option UInt64 :=
  match name.toList with
  | 'a' :: 'r' :: 'r' :: 'a' :: 'y' :: digits =>
    ((Numeral.digits? digits).filter (· < Numeral.word64Bound)).map UInt64.ofNat
  | _ => none

/-- How custom types are found by name: the search may keep a state, and may fail with a refusal of
its own. -/
abbrev Lookup (m : Type → Type) := String → m (Option Ty)

section

variable {m : Type → Type} [Monad m] [MonadExcept MalformedType m]

/-- The type of a custom name without parameters. -/
def resolveCustom (lookup : Lookup m) (source name : String) (parameterless : Bool) : m Ty := do
  match ← lookup name with
  | some t => if parameterless then return t else throw ⟨source, .customParameters name⟩
  | none => throw ⟨source, .unknown name⟩

mutual

/-- The type that an expression denotes; refusals name the spelling `source`. -/
def resolve (lookup : Lookup m) (source : String) : Expression → m Ty
  | .mk name arguments =>
    match Primitive.ofName? name with
    | some p =>
      if arguments.isEmpty then return .primitive p
      else throw ⟨source, .primitiveParameters name⟩
    | none =>
      match Generic.ofName? name with
      | some g =>
        if g.admits arguments.length then
          return .generic g (← resolveAll lookup source arguments)
        else throw ⟨source, .parameterCount name arguments.length⟩
      | none =>
        match arrayLength? name with
        | some length =>
          match arguments with
          | [argument] => return .array length (← resolve lookup source argument)
          | _ => throw ⟨source, .arrayParameters name⟩
        | none => resolveCustom lookup source name arguments.isEmpty

/-- The types that several expressions denote. -/
def resolveAll (lookup : Lookup m) (source : String) : List Expression → m (List Ty)
  | [] => return []
  | e :: es => return (← resolve lookup source e) :: (← resolveAll lookup source es)

end

/-- The type that a spelling denotes, where custom types are looked up by a function. -/
def parseWith (lookup : Lookup m) (source : String) : m Ty := do
  resolve lookup source (← MonadExcept.ofExcept (Expression.parse source))

end

/-- Custom types by name. Of entries with one name the first counts. -/
abbrev Table := List (String × Ty)

/-- Finds custom types in a table. -/
def Table.find (customTypes : Table) : Lookup (Except MalformedType) :=
  fun name => .ok (customTypes.lookup name)

/-- The type that a spelling denotes, with the custom types of a table. -/
def parse (source : String) (customTypes : Table) : Except MalformedType Ty :=
  parseWith customTypes.find source

end ContractCalls.Ty

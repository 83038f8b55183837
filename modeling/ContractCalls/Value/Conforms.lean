import ContractCalls.Value.Basic

/-!
# Values that conform to a type

A value conforms to a type if it is built as the type says, at every depth, and every type it
carries is the one the type asks for. At the boundary of a call `Option` and `optional` are
transparent: an absent value, a value of the inner type and a value wrapped in either are accepted.
-/

namespace ContractCalls.Value

mutual

/-- Whether a value is well formed as a value of a type. -/
def conforms : Ty → Value → Bool
  | .primitive p, v => v.type = .primitive p
  | .generic g params, v =>
    match g, params, v with
    | .option, [p], .option inner value => p = inner && value.all fun v => conforms p v
    | .optional, [p], .optional inner value => p = inner && value.all fun v => conforms p v
    | .list, [p], .list element items => p = element && items.all fun v => conforms p v
    | .variadic, [p], .variadic element items => p = element && items.all fun v => conforms p v
    | .tuple, params, .tuple items => conformsAll params items
    | _, _, _ => false
  | .array length t, v =>
    match v with
    | .array element items =>
      items.length = length.toNat && t = element && items.all fun v => conforms t v
    | _ => false
  | .struct name fields, v =>
    match v with
    | .struct t values => t = .struct name fields && conformsFields fields values
    | _ => false
  | .enum name variants, v =>
    match v with
    | .enum t discriminant values =>
      t = .enum name variants && conformsVariant discriminant values variants
    | _ => false

/-- Whether values are well formed one by one as values of types. -/
def conformsAll : List Ty → List Value → Bool
  | [], [] => true
  | t :: ts, v :: vs => conforms t v && conformsAll ts vs
  | _, _ => false

/-- Whether values are well formed one by one as values of fields. -/
def conformsFields : List (Field Ty) → List Value → Bool
  | [], [] => true
  | ⟨_, t⟩ :: fs, v :: vs => conforms t v && conformsFields fs vs
  | _, _ => false

/-- Whether values are well formed as the fields of the first variant with a discriminant. -/
def conformsVariant (discriminant : UInt8) (values : List Value) : List (Variant Ty) → Bool
  | [] => false
  | ⟨d, _, fields⟩ :: variants =>
    if d = discriminant then conformsFields fields values
    else conformsVariant discriminant values variants

end

/-- The type inside a type that is transparent at the boundary of a call. -/
def transparentInner? (declared : Ty) : Option Ty :=
  declared.firstParameter? .option <|> declared.firstParameter? .optional

/-- Whether a value may be passed where `declared` is expected. -/
def isCompatible (declared : Ty) (argument : Value) : Bool :=
  conforms declared argument ||
    match transparentInner? declared with
    | none => false
    | some inner =>
      match argument with
      | .option _ none => true
      | .optional _ none => true
      | .option claimed (some v) => claimed = inner && conforms inner v
      | .optional claimed (some v) => claimed = inner && conforms inner v
      | v => conforms inner v

end ContractCalls.Value

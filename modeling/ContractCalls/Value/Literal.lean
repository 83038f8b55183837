import ContractCalls.Json.Printer
import ContractCalls.Json.Reader
import ContractCalls.Text.Blank
import ContractCalls.Value.Basic
import ContractCalls.Value.LiteralError

/-!
# Values as JSON literals

The declared type drives how a literal is read, so the literal `5` is an integer of whatever type is
expected. Integers may be numbers or decimal strings, byte strings are hexadecimal, fields come by
name or by position, a variant is its name alone or its name and its fields. Printing gives 64-bit
integers as numbers and wider ones as strings.
-/

namespace ContractCalls

/-- The literal that a text denotes: the JSON value, or the text itself as a string. -/
def Json.ofLiteral (text : String) : Json :=
  match Json.parse? text with
  | some value => value.canonical
  | none => .string text

namespace Value

open LiteralError

/-! ## Printing -/

mutual

/-- The literal of a value. -/
def toJson : Value → Json
  | .int _ n => .number (.integer n.val)
  | .bigUint n => .string (toString n)
  | .bigInt i => .string (toString i)
  | .bool b => .bool b
  | .address key => .string key.toHex
  | .bytes bs => .string (Hex.encode bs)
  | .text s => .string s
  | .token s => .string s
  | .hash key => .string key.toHex
  | .option _ none => .null
  | .optional _ none => .null
  | .option _ (some v) => v.toJson
  | .optional _ (some v) => v.toJson
  | .list _ items => .array (toJsonAll items)
  | .variadic _ items => .array (toJsonAll items)
  | .array _ items => .array (toJsonAll items)
  | .tuple items => .array (toJsonAll items)
  | .struct (.struct _ fields) values => Json.ofMembers ((fields.map (·.name)).zip (toJsonAll values))
  | .struct _ values => .array (toJsonAll values)
  | .enum (.enum _ variants) discriminant values =>
    match variants.find? (·.discriminant = discriminant) with
    | some variant =>
      if values.isEmpty then .string variant.name
      else Json.ofMembers [("name", .string variant.name),
        ("fields", Json.ofMembers ((variant.fields.map (·.name)).zip (toJsonAll values)))]
    | none => Json.ofMembers [("discriminant", .ofNat discriminant.toNat)]
  | .enum _ discriminant _ => Json.ofMembers [("discriminant", .ofNat discriminant.toNat)]

/-- The literals of several values. -/
def toJsonAll : List Value → List Json
  | [] => []
  | v :: vs => v.toJson :: toJsonAll vs

end

/-! ## Reading leaves -/

/-- The refusal of a literal that is not of the expected form. -/
def refuse {α : Type} (expected : String) (literal : Json) : Except LiteralError α :=
  .error (.invalid expected literal.text)

/-- The result of reading a literal, refused if there is none. -/
def require {α : Type} (expected : String) (literal : Json) : Option α → Except LiteralError α
  | some a => .ok a
  | none => refuse expected literal

/-- The digits of an integer, given as a number or as a string with blank ends. -/
def integerText? : Json → Option (List Char)
  | .number n => some n.print
  | .string s => some (Text.trim s.toList)
  | _ => none

/-- An integer of a fixed-width type. Only signed types have a minus sign. -/
def fixed? (t : IntType) (digits : List Char) : Option (Fixed t) :=
  if t.signed then (Numeral.integer? digits).bind (Fixed.ofInt? t)
  else (Numeral.natural? digits).bind fun n => Fixed.ofInt? t n

/-- The text behind one hexadecimal mark. -/
def dropMark : List Char → List Char
  | '0' :: 'x' :: rest => rest
  | '0' :: 'X' :: rest => rest
  | cs => cs

/-- The bytes of a hexadecimal string, with or without a mark. -/
def readHex (expected : String) (literal : Json) : Except LiteralError Bytes :=
  match literal with
  | .string s =>
    match Hex.decode (String.ofList (dropMark s.toList)) with
    | .ok bs => .ok bs
    | .error _ => refuse expected literal
  | _ => refuse expected literal

/-- The key of a hexadecimal string, with or without a mark. -/
def readKey (expected : String) (literal : Json) : Except LiteralError Key := do
  let bs ← readHex expected literal
  require (expected ++ " (32 bytes as hex)") literal (Key.ofBytes? bs)

/-- The text of a string. -/
def readText (expected : String) (literal : Json) : Except LiteralError String :=
  match literal with
  | .string s => .ok s
  | _ => refuse expected literal

/-- Whether a text may identify a token: it is not empty and holds ASCII characters alone. -/
def isTokenIdentifier (s : String) : Bool :=
  !s.isEmpty && s.toList.all fun c => c.toNat < 128

/-- A value of a primitive type. -/
def ofJsonPrimitive (p : Primitive) (literal : Json) : Except LiteralError Value :=
  match p with
  | .int t =>
    (require p.name literal ((integerText? literal).bind (fixed? t))).map (Value.int t)
  | .bigUint =>
    (require p.name literal ((integerText? literal).bind Numeral.unboundedNatural?)).map .bigUint
  | .bigInt =>
    (require p.name literal ((integerText? literal).bind Numeral.unboundedInteger?)).map .bigInt
  | .bool =>
    match literal with
    | .bool b => .ok (.bool b)
    | _ => refuse p.name literal
  | .address => (readKey p.name literal).map .address
  | .hash => (readKey p.name literal).map .hash
  | .bytes => (readHex (p.name ++ " (hex)") literal).map .bytes
  | .text => (readText p.name literal).map .text
  | .token => do
    let s ← readText p.name literal
    if isTokenIdentifier s then .ok (.token s) else refuse p.name literal

/-! ## Reading composites -/

/-- Marks a refusal as that of a part. -/
def inContext {α : Type} (context : String) : Except LiteralError α → Except LiteralError α :=
  Except.mapError (.within context)

/-- The items of an array, each read in the same way; refusals tell the index, counted from
`index`. -/
def readItems (read : Json → Except LiteralError Value) (container : Ty) (index : Nat) :
    List Json → Except LiteralError (List Value)
  | [] => .ok []
  | item :: items => do
    let v ← inContext (container.display ++ " element " ++ toString index) (read item)
    return v :: (← readItems read container (index + 1) items)

/-- The items of a literal that has to be an array. -/
def arrayItems (container : Ty) : Json → Except LiteralError (List Json)
  | .array items => .ok items
  | literal => refuse (container.display ++ " (JSON array)") literal

/-- The items of a literal that has to be an array, each read in the same way. -/
def readArray (read : Json → Except LiteralError Value) (container : Ty) (literal : Json) :
    Except LiteralError (List Value) := do
  readItems read container 0 (← arrayItems container literal)

/-- Refuses a wrong number of items. -/
def checkLength (type : Ty) (expected actual : Nat) : Except LiteralError Unit :=
  if actual = expected then .ok () else .error (.lengthMismatch type expected actual)

/-- Where fields are taken from. -/
inductive FieldSource where
  | byName (members : List (String × Json))
  | byPosition (items : List Json)

/-- The source of the given fields. Every member has to name a field, and the items have to be as
many as the fields. -/
def fieldSource (owner : Ty) (fields : List (Field Ty)) :
    Json → Except LiteralError FieldSource
  | .object members =>
    match members.find? fun (key, _) => !fields.any (·.name = key) with
    | some (key, _) => .error (.unknownMember owner key)
    | none => .ok (.byName members)
  | .array items => do
    checkLength owner fields.length items.length
    return .byPosition items
  | literal => refuse (owner.display ++ " (JSON object or array)") literal

/-- The literal of the next field, and the source of those behind it. -/
def FieldSource.next (owner : Ty) (name : String) :
    FieldSource → Except LiteralError (Json × FieldSource)
  | byName members =>
    match Json.find? name members with
    | some literal => .ok (literal, byName members)
    | none => .error (.invalid ("field '" ++ name ++ "' of " ++ owner.display) "nothing")
  | byPosition (literal :: items) => .ok (literal, byPosition items)
  | byPosition [] =>
    .error (.invalid ("field '" ++ name ++ "' of " ++ owner.display) "nothing")

/-- The name of a variant, and its fields if they are given. -/
def readVariantName (owner : Ty) (literal : Json) : Except LiteralError (String × Option Json) :=
  match literal with
  | .string name => .ok (name, none)
  | .object members =>
    match Json.find? "name" members with
    | some (.string name) => .ok (name, Json.find? "fields" members)
    | _ => refuse (owner.display ++ " variant name") literal
  | _ => refuse (owner.display ++ " variant") literal

/-- The source of the fields of a variant. They may be left out if there are none. -/
def variantSource (owner : Ty) (name : String) (fields : List (Field Ty)) :
    Option Json → Except LiteralError FieldSource
  | some literal => fieldSource owner fields literal
  | none =>
    if fields.isEmpty then .ok (.byPosition [])
    else .error (.invalid ("fields for " ++ owner.display ++ "::" ++ name) "nothing")

mutual

/-- The value of a type that a literal denotes. -/
def ofJson : Ty → Json → Except LiteralError Value
  | .primitive p, literal => ofJsonPrimitive p literal
  | .generic g params, literal =>
    match g, params with
    | .tuple, params => do
      let items ← arrayItems (.tuple params) literal
      checkLength (.tuple params) params.length items.length
      return .tuple (← ofJsonAll (.tuple params) 0 params items)
    | g, [] => .error (.invalid "a type parameter" (Ty.generic g []).display)
    | .option, p :: _ =>
      match literal with
      | .null => .ok (.option p none)
      | literal => return .option p (some (← ofJson p literal))
    | .optional, p :: _ =>
      match literal with
      | .null => .ok (.optional p none)
      | literal => return .optional p (some (← ofJson p literal))
    | .list, p :: ps =>
      return .list p (← readArray (fun item => ofJson p item) (.generic .list (p :: ps)) literal)
    | .variadic, p :: ps =>
      return .variadic p
        (← readArray (fun item => ofJson p item) (.generic .variadic (p :: ps)) literal)
  | .array length t, literal => do
    let items ← readArray (fun item => ofJson t item) (.array length t) literal
    checkLength (.array length t) length.toNat items.length
    return .array t items
  | .struct name fields, literal => do
    let source ← fieldSource (.struct name fields) fields literal
    return .struct (.struct name fields) (← ofJsonFields (.struct name fields) source fields)
  | .enum name variants, literal => do
    let (variant, given) ← readVariantName (.enum name variants) literal
    ofJsonVariant (.enum name variants) variant given variants

/-- The items of a tuple, each of its own type; refusals tell the index, counted from `index`. -/
def ofJsonAll (owner : Ty) (index : Nat) : List Ty → List Json → Except LiteralError (List Value)
  | t :: ts, item :: items => do
    let v ← inContext (owner.display ++ " item " ++ toString index) (ofJson t item)
    return v :: (← ofJsonAll owner (index + 1) ts items)
  | _, _ => .ok []

/-- The values of fields, in their order. -/
def ofJsonFields (owner : Ty) (source : FieldSource) :
    List (Field Ty) → Except LiteralError (List Value)
  | [] => .ok []
  | ⟨name, t⟩ :: fields => do
    let (literal, source) ← source.next owner name
    let v ← inContext (owner.display ++ "." ++ name) (ofJson t literal)
    return v :: (← ofJsonFields owner source fields)

/-- The value of the first variant with a name. -/
def ofJsonVariant (owner : Ty) (name : String) (given : Option Json) :
    List (Variant Ty) → Except LiteralError Value
  | [] => .error (.unknownMember owner name)
  | ⟨discriminant, n, fields⟩ :: variants =>
    if n = name then do
      let source ← variantSource owner name fields given
      return .enum owner discriminant (← ofJsonFields owner source fields)
    else ofJsonVariant owner name given variants

end

end Value

end ContractCalls

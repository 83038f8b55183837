import ContractCalls.Json.Basic

/-!
# Records in JSON

A record is an object, whose keys that name no part are ignored and whose other keys occur once, or
an array of its parts in their order, from whose end parts may be missing. A tagged record has one
more part that says which record it is; in an array it comes first.
-/

namespace ContractCalls.Json

/-- The parts that a record gives, by name. -/
abbrev Record := List (String × Json)

/-- The parts of a record with the given part names. -/
def record? (names : List String) : Json → Option Record
  | .object members =>
    let parts := members.filter fun (key, _) => names.contains key
    if (parts.map Prod.fst).Nodup then some parts else none
  | .array items => if items.length ≤ names.length then some (names.zip items) else none
  | _ => none

/-- The tag of a tagged record and the record without it. -/
def tagged? (tag : String) : Json → Option (Json × Json)
  | .object members =>
    match members.filter fun (key, _) => key = tag with
    | [(_, value)] => some (value, .object (members.filter fun (key, _) => key ≠ tag))
    | _ => none
  | .array (value :: items) => some (value, .array items)
  | _ => none

/-- The place of a tag among the possible ones. Where `byIndex` holds, a tag may also be given as
its place. -/
def tagIndex? (tags : List String) (byIndex : Bool) : Json → Option Nat
  | .string s => tags.idxOf? s
  | .number (.integer i) => if byIndex ∧ 0 ≤ i ∧ i < tags.length then some i.toNat else none
  | _ => none

namespace Record

variable {α : Type}

/-- A part that has to be given. -/
def required (parts : Record) (name : String) (read : Json → Option α) : Option α :=
  (find? name parts).bind read

/-- A part in whose place a default stands if it is not given. -/
def withDefault (parts : Record) (name : String) (read : Json → Option α) (default : α) :
    Option α :=
  match find? name parts with
  | some value => read value
  | none => some default

/-- A part that may be missing or null. -/
def optional (parts : Record) (name : String) (read : Json → Option α) : Option (Option α) :=
  match find? name parts with
  | none => some none
  | some .null => some none
  | some value => (read value).map some

end Record

/-- The text of a string. -/
def toText? : Json → Option String
  | .string s => some s
  | _ => none

/-- The truth value of a Boolean. -/
def toBool? : Json → Option Bool
  | .bool b => some b
  | _ => none

/-- A natural number below a bound. -/
def toNatBelow? (bound : Nat) : Json → Option Nat
  | .number (.integer i) => if 0 ≤ i ∧ i < bound then some i.toNat else none
  | _ => none

/-- A number of 64 bits. -/
def toWord64? (value : Json) : Option UInt64 :=
  (value.toNatBelow? Numeral.word64Bound).map UInt64.ofNat

/-- A number of eight bits. -/
def toByte? (value : Json) : Option UInt8 :=
  (value.toNatBelow? 256).map UInt8.ofNat

/-- The items of an array, each read in the same way. -/
def toList? {α : Type} (read : Json → Option α) : Json → Option (List α)
  | .array items => items.mapM read
  | _ => none

/-- The name of a case without parts: a string, or an object with that key alone and an empty value.
An empty object counts as an empty value where `buffered` holds. -/
def caseName? (buffered : Bool) : Json → Option String
  | .string s => some s
  | .object [(key, .null)] => some key
  | .object [(key, .object [])] => if buffered then some key else none
  | _ => none

/-- The base of the digits in which numbers of any size are written, `2 ^ 32`. -/
def digitBase : Nat := 0x100000000

/-- The digits of a number to that base, the lowest first. -/
def wordDigits : (count : Nat) → Nat → List Nat
  | 0, _ => []
  | count + 1, n => n % digitBase :: wordDigits count (n / digitBase)

/-- A natural number of any size as the array of its digits, the lowest first and the highest not
zero. -/
def ofBigNat (n : Nat) : Json :=
  let bits := if n = 0 then 0 else n.log2 + 1
  .array ((wordDigits ((bits + 31) / 32) n).map ofNat)

/-- The number with the given digits, the lowest first. -/
def toBigNat? (value : Json) : Option Nat :=
  (value.toList? (toNatBelow? digitBase)).map fun digits =>
    digits.foldr (fun digit n => n * digitBase + digit) 0

end ContractCalls.Json

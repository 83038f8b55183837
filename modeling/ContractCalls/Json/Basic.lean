import ContractCalls.Json.Number
import ContractCalls.Text.Sorted

/-!
# JSON values

A JSON value as it is written: an object is the list of its members, in order and with repetitions.
The canonical form of a value has the members of each object sorted by key, and of members with one
key only the last.
-/

namespace ContractCalls

/-- A JSON value. -/
inductive Json where
  | null
  | bool (b : Bool)
  | number (n : Json.Number)
  | string (s : String)
  | array (items : List Json)
  | object (members : List (String × Json))
  deriving Repr

namespace Json

/-- A natural number as a JSON value. -/
def ofNat (n : Nat) : Json :=
  .number (.integer n)

/-- The object with the given members, sorted by key, of members with one key only the last. -/
def ofMembers (members : List (String × Json)) : Json :=
  .object (Sorted.ofList members)

mutual

/-- The canonical form of a value. -/
def canonical : Json → Json
  | .null => .null
  | .bool b => .bool b
  | .number n => .number n
  | .string s => .string s
  | .array items => .array (canonicalItems items)
  | .object members => ofMembers (canonicalMembers members)

/-- The canonical forms of the items of an array. -/
def canonicalItems : List Json → List Json
  | [] => []
  | item :: items => item.canonical :: canonicalItems items

/-- The members of an object with their values in canonical form. -/
def canonicalMembers : List (String × Json) → List (String × Json)
  | [] => []
  | (key, value) :: members => (key, value.canonical) :: canonicalMembers members

end

/-- The value of the first member with a key. -/
def find? (key : String) (members : List (String × Json)) : Option Json :=
  members.lookup key

mutual

/-- The greatest number of arrays and objects around one another. -/
def depth : Json → Nat
  | .array items => depthItems items + 1
  | .object members => depthMembers members + 1
  | _ => 0

/-- The greatest depth of the items of an array. -/
def depthItems : List Json → Nat
  | [] => 0
  | item :: items => max item.depth (depthItems items)

/-- The greatest depth of the values of members. -/
def depthMembers : List (String × Json) → Nat
  | [] => 0
  | (_, value) :: members => max value.depth (depthMembers members)

end

end Json

end ContractCalls

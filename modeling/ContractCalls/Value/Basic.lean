import ContractCalls.Bytes.Address
import ContractCalls.Ty.Basic
import ContractCalls.Value.Fixed

/-!
# Values

A value of a contract interface carries the types it was made for: that of an absent inner value,
of the elements of a list, of a struct or enum. Nothing forces its contents to agree with them;
`Value.conforms` says when they do.
-/

namespace ContractCalls

/-- A value of a contract interface. -/
inductive Value where
  | int (t : IntType) (n : Fixed t)
  | bigUint (n : Nat)
  | bigInt (i : Int)
  | bool (b : Bool)
  | address (key : Key)
  | bytes (bs : Bytes)
  | text (s : String)
  | token (s : String)
  | hash (key : Key)
  | option (inner : Ty) (value : Option Value)
  | optional (inner : Ty) (value : Option Value)
  | list (element : Ty) (items : List Value)
  | variadic (element : Ty) (items : List Value)
  | tuple (items : List Value)
  | array (element : Ty) (items : List Value)
  | struct (type : Ty) (fields : List Value)
  | enum (type : Ty) (discriminant : UInt8) (fields : List Value)

namespace Value

mutual

/-- The type that a value was made for. -/
def type : Value → Ty
  | .int t _ => .primitive (.int t)
  | .bigUint _ => .primitive .bigUint
  | .bigInt _ => .primitive .bigInt
  | .bool _ => .primitive .bool
  | .address _ => .primitive .address
  | .bytes _ => .primitive .bytes
  | .text _ => .primitive .text
  | .token _ => .primitive .token
  | .hash _ => .primitive .hash
  | .option inner _ => .option inner
  | .optional inner _ => .optional inner
  | .list element _ => .list element
  | .variadic element _ => .variadic element
  | .tuple items => .tuple (types items)
  | .array element items => .array (UInt64.ofNat items.length) element
  | .struct t _ => t
  | .enum t _ _ => t

/-- The types that several values were made for. -/
def types : List Value → List Ty
  | [] => []
  | v :: vs => v.type :: types vs

end

/-- A present `Option`, typed by its content. -/
def present (v : Value) : Value := .option v.type (some v)

/-- An absent `Option`. -/
def absent (inner : Ty) : Value := .option inner none

/-- A present `optional`, typed by its content. -/
def presentOptional (v : Value) : Value := .optional v.type (some v)

/-- An absent `optional`. -/
def absentOptional (inner : Ty) : Value := .optional inner none

/-- Whether a value is an absent `Option` or `optional`. -/
def isAbsent : Value → Bool
  | .option _ none => true
  | .optional _ none => true
  | _ => false

/-- The number of items of a container, as it is shown. -/
def displayCount (items : List Value) : String :=
  "...(" ++ toString items.length ++ " items)"

/-- The text of a value for people; containers only tell their size. -/
def display : Value → String
  | .int _ n => toString n.val
  | .bigUint n => toString n
  | .bigInt i => toString i
  | .bool b => toString b
  | .address key => key.toHex
  | .bytes bs => "0x" ++ Hex.encode bs
  | .text s => "\"" ++ s ++ "\""
  | .token s => s
  | .hash key => "0x" ++ key.toHex
  | .option _ none => "None"
  | .optional _ none => "None"
  | .option _ (some v) => "Some(" ++ v.display ++ ")"
  | .optional _ (some v) => "Some(" ++ v.display ++ ")"
  | .list _ items => "[" ++ displayCount items ++ "]"
  | .variadic _ items => "[" ++ displayCount items ++ "]"
  | .array _ items => "[" ++ displayCount items ++ "]"
  | .tuple items => "(" ++ displayCount items ++ ")"
  | .struct t _ => t.display ++ " \x7b...\x7d"
  | .enum t discriminant _ => t.display ++ "#" ++ toString discriminant.toNat

end Value

end ContractCalls

/-!
# Primitive and generic type names

The leaves of types, the generic constructors, and their spellings in interface documents. Main
statement: a spelling that is printed is read as the same name.
-/

namespace ContractCalls

/-- The size of a fixed-width integer. -/
inductive Width where
  | one
  | two
  | four
  | eight
  deriving DecidableEq, Repr

/-- The number of bytes of an integer of this size. -/
def Width.bytes : Width → Nat
  | .one => 1
  | .two => 2
  | .four => 4
  | .eight => 8

/-- The type of the integers of a size, with or without negative ones. -/
structure IntType where
  signed : Bool
  width : Width
  deriving DecidableEq, Repr

namespace IntType

/-- The number of bytes of an integer of this type. -/
def bytes (t : IntType) : Nat :=
  t.width.bytes

/-- The number of integers of a type. -/
def count (t : IntType) : Nat :=
  Nat.pow 256 t.bytes

/-- The least integer of a type. -/
def least (t : IntType) : Int :=
  if t.signed then -(t.count / 2 : Nat) else 0

/-- The greatest integer of a type. -/
def greatest (t : IntType) : Int :=
  (if t.signed then t.count / 2 else t.count : Nat) - 1

end IntType

/-- A leaf type. -/
inductive Primitive where
  | int (t : IntType)
  | bigUint
  | bigInt
  | bool
  | address
  | bytes
  | text
  | token
  | hash
  deriving DecidableEq, Repr

namespace Primitive

/-- Unsigned integers of eight bits. -/
abbrev u8 : Primitive := .int ⟨false, .one⟩
/-- Unsigned integers of 16 bits. -/
abbrev u16 : Primitive := .int ⟨false, .two⟩
/-- Unsigned integers of 32 bits. -/
abbrev u32 : Primitive := .int ⟨false, .four⟩
/-- Unsigned integers of 64 bits. -/
abbrev u64 : Primitive := .int ⟨false, .eight⟩
/-- Signed integers of eight bits. -/
abbrev i8 : Primitive := .int ⟨true, .one⟩
/-- Signed integers of 16 bits. -/
abbrev i16 : Primitive := .int ⟨true, .two⟩
/-- Signed integers of 32 bits. -/
abbrev i32 : Primitive := .int ⟨true, .four⟩
/-- Signed integers of 64 bits. -/
abbrev i64 : Primitive := .int ⟨true, .eight⟩

/-- The spelling of a primitive type. -/
def name : Primitive → String
  | .int ⟨false, .one⟩ => "u8"
  | .int ⟨false, .two⟩ => "u16"
  | .int ⟨false, .four⟩ => "u32"
  | .int ⟨false, .eight⟩ => "u64"
  | .int ⟨true, .one⟩ => "i8"
  | .int ⟨true, .two⟩ => "i16"
  | .int ⟨true, .four⟩ => "i32"
  | .int ⟨true, .eight⟩ => "i64"
  | .bigUint => "BigUint"
  | .bigInt => "BigInt"
  | .bool => "bool"
  | .address => "Address"
  | .bytes => "bytes"
  | .text => "utf-8 string"
  | .token => "TokenIdentifier"
  | .hash => "H256"

/-- The primitive type with a spelling. The sizes of a machine word are 32 bits. -/
def ofName? : String → Option Primitive
  | "u8" => some .u8
  | "u16" => some .u16
  | "u32" => some .u32
  | "usize" => some .u32
  | "u64" => some .u64
  | "i8" => some .i8
  | "i16" => some .i16
  | "i32" => some .i32
  | "isize" => some .i32
  | "i64" => some .i64
  | "BigUint" => some .bigUint
  | "BigInt" => some .bigInt
  | "bool" => some .bool
  | "Address" => some .address
  | "bytes" => some .bytes
  | "utf-8 string" => some .text
  | "TokenIdentifier" => some .token
  | "H256" => some .hash
  | _ => none

/-- The number of bytes of a value, for the types that fix it. -/
def fixedWidth? : Primitive → Option Nat
  | .int t => some t.bytes
  | .bool => some 1
  | .address => some 32
  | .hash => some 32
  | _ => none

/-- Whether a type has negative numbers. -/
def isSigned : Primitive → Bool
  | .int t => t.signed
  | .bigInt => true
  | _ => false

/-- A primitive type is found by its name. -/
theorem ofName?_name (p : Primitive) : ofName? p.name = some p := by
  rcases p with ⟨⟨_ | _⟩, _ | _ | _ | _⟩ | _ | _ | _ | _ | _ | _ | _ | _ <;> rfl

end Primitive

/-- A type constructor with parameters. `optional` and `variadic` stand for none or one, and for
any number, of the arguments of a call. -/
inductive Generic where
  | option
  | list
  | tuple
  | optional
  | variadic
  deriving DecidableEq, Repr

namespace Generic

/-- The spelling of a generic constructor. -/
def name : Generic → String
  | .option => "Option"
  | .list => "List"
  | .tuple => "tuple"
  | .optional => "optional"
  | .variadic => "variadic"

/-- The generic constructor with a spelling. -/
def ofName? : String → Option Generic
  | "Option" => some .option
  | "List" => some .list
  | "vec" => some .list
  | "tuple" => some .tuple
  | "optional" => some .optional
  | "variadic" => some .variadic
  | _ => none

/-- The number of parameters; none if any positive number will do. -/
def arity? : Generic → Option Nat
  | .tuple => none
  | _ => some 1

/-- Whether a constructor takes so many parameters. -/
def admits (g : Generic) (count : Nat) : Bool :=
  match g.arity? with
  | some n => count = n
  | none => 0 < count

/-- Whether values of a type may span several arguments of a call, or none. -/
def isMultiValue : Generic → Bool
  | .optional => true
  | .variadic => true
  | _ => false

/-- A generic constructor is found by its name. -/
theorem ofName?_name (g : Generic) : ofName? g.name = some g := by
  cases g <;> rfl

end Generic

end ContractCalls

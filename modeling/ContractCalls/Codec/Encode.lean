import ContractCalls.Codec.Error
import ContractCalls.Value.Basic

/-!
# Encoding values

There are two encodings. The nested one is for values inside others: whatever has no fixed size is
written behind its length in four bytes. The top-level one is for a value that is an argument of its
own, whose end is known: its outermost length is left out. A list of arguments drops absent values
and gives each item of a `variadic` an argument of its own.
-/

namespace ContractCalls.Value

/-- The bound below which lengths can be written. -/
def lengthBound : Nat := 0x100000000

/-- A length in four bytes, written for a value of a type. -/
def encodeLength (type : Ty) (n : Nat) : Except CodecError Bytes :=
  if n < lengthBound then .ok (Bytes.ofNatFixed 4 n) else .error (.overflow type 4)

/-- Bytes behind their length. -/
def encodePrefixed (type : Ty) (bs : Bytes) : Except CodecError Bytes := do
  return (← encodeLength type bs.length) ++ bs

mutual

/-- The bytes of a value inside another value. -/
def encodeNested : Value → Except CodecError Bytes
  | .int _ n => .ok n.toBytes
  | .bool b => .ok [if b then 1 else 0]
  | .address key => .ok key.bytes
  | .hash key => .ok key.bytes
  | .bigUint n => encodePrefixed (.primitive .bigUint) (Bytes.ofNat n)
  | .bigInt i => encodePrefixed (.primitive .bigInt) (Bytes.ofInt i)
  | .bytes bs => encodePrefixed (.primitive .bytes) bs
  | .text s => encodePrefixed (.primitive .text) (Bytes.ofText s)
  | .token s => encodePrefixed (.primitive .token) (Bytes.ofText s)
  | .option _ none => .ok [0]
  | .option _ (some v) => return 1 :: (← v.encodeNested)
  | .list element items => do
    let count ← encodeLength (.list element) items.length
    return count ++ (← encodeNestedAll items)
  | .tuple items => encodeNestedAll items
  | .array _ items => encodeNestedAll items
  | .struct _ fields => encodeNestedAll fields
  | .enum _ discriminant fields => return discriminant :: (← encodeNestedAll fields)
  | .optional inner _ => .error (.notNestable (.optional inner))
  | .variadic element _ => .error (.notNestable (.variadic element))

/-- The bytes of several values inside another value, one after another. -/
def encodeNestedAll : List Value → Except CodecError Bytes
  | [] => .ok []
  | v :: vs => return (← v.encodeNested) ++ (← encodeNestedAll vs)

end

/-- The bytes of a value that is one argument. An absent value has none. -/
def encodeTop : Value → Except CodecError Bytes
  | .bigUint n => .ok (Bytes.ofNat n)
  | .bigInt i => .ok (Bytes.ofInt i)
  | .bytes bs => .ok bs
  | .text s => .ok (Bytes.ofText s)
  | .token s => .ok (Bytes.ofText s)
  | .option _ none => .ok []
  | .optional _ none => .ok []
  | .option _ (some v) => v.encodeTop
  | .optional _ (some v) => v.encodeTop
  | .list _ items => encodeNestedAll items
  | .variadic element _ => .error (.multiArgument (.variadic element))
  | v => v.encodeNested

/-- The arguments that a value makes: none if it is absent, one for each item of a `variadic`, and
otherwise one. -/
def encodeArgument : Value → Except CodecError (List Bytes)
  | .option _ none => .ok []
  | .optional _ none => .ok []
  | .variadic _ items => items.mapM encodeTop
  | v => return [← v.encodeTop]

/-- The arguments that several values make. -/
def encodeArguments : List Value → Except CodecError (List Bytes)
  | [] => .ok []
  | v :: vs => return (← v.encodeArgument) ++ (← encodeArguments vs)

end ContractCalls.Value

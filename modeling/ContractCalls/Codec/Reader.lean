import ContractCalls.Codec.Error
import ContractCalls.Codec.Width
import ContractCalls.Value.Basic

/-!
# Reading nested values

A reader takes values from the front of a byte string. It keeps what is left also when it fails, so
that a caller sees how far it came.
-/

namespace ContractCalls

/-- A reader of values: given bytes, the result and the bytes that are left. -/
def Reader (α : Type) : Type :=
  Bytes → Except CodecError α × Bytes

namespace Reader

variable {α β : Type}

/-- Reads nothing. -/
protected def pure (a : α) : Reader α :=
  fun bs => (.ok a, bs)

/-- Reads on behind a value; a failure stays. -/
protected def bind (first : Reader α) (next : α → Reader β) : Reader β :=
  fun bs =>
    match first bs with
    | (.ok a, rest) => next a rest
    | (.error e, rest) => (.error e, rest)

/-- Readers are chained by reading on where the first one stopped. -/
instance : Monad Reader where
  pure := Reader.pure
  bind := Reader.bind

/-- Reads nothing and gives a result or fails. -/
def ofExcept (result : Except CodecError α) : Reader α :=
  fun bs => (result, bs)

/-- Reads nothing and fails. -/
def fail (e : CodecError) : Reader α :=
  ofExcept (.error e)

/-- Takes `n` bytes for a value of a type. -/
def take (type : Ty) (n : Nat) : Reader { bs : Bytes // bs.length = n } :=
  fun bs =>
    if h : (bs.take n).length = n then (.ok ⟨bs.take n, h⟩, bs.drop n)
    else (.error (.underflow type n bs.length), bs)

/-- Takes one byte. -/
def takeByte (type : Ty) : Reader UInt8 :=
  return (← take type 1).val.headD 0

/-- Takes a length in four bytes. -/
def takeLength (type : Ty) : Reader Nat :=
  return Bytes.toNat (← take type 4).val

/-- Takes bytes behind their length. -/
def takePrefixed (type : Ty) : Reader Bytes := do
  let n ← takeLength type
  return (← take type n).val

/-- The most items of a container whose items take no bytes. -/
def maxEmptyItems : Nat := 0x10000

/-- Refuses a count of items that the bytes left cannot hold, or, for items that may take no bytes,
one beyond the limit. -/
def checkCount (type element : Ty) (count : Nat) : Reader Unit :=
  fun bs =>
    let width := element.minWidth
    let needed := Ty.saturate (count * width)
    if width = 0 then
      if maxEmptyItems < count then (.error (.tooManyItems type count maxEmptyItems), bs)
      else (.ok (), bs)
    else if bs.length < needed then (.error (.underflow type needed bs.length), bs)
    else (.ok (), bs)

/-- Reads a value so many times. -/
def times (reader : Reader α) : Nat → Reader (List α)
  | 0 => return []
  | n + 1 => return (← reader) :: (← times reader n)

end Reader

namespace Value

/-- The truth value that a byte stands for. -/
def boolOfByte (type : Ty) (b : UInt8) : Except CodecError Value :=
  if b = 0 then .ok (.bool false)
  else if b = 1 then .ok (.bool true)
  else .error (.invalidDiscriminant type b)

/-- The text of bytes. -/
def textOfBytes (type : Ty) (bs : Bytes) : Except CodecError String :=
  match Bytes.toText? bs with
  | some s => .ok s
  | none => .error (.invalidUtf8 type)

/-- The value of a primitive type without a fixed size, given by all its bytes. -/
def ofPayload (p : Primitive) (bs : Bytes) : Except CodecError Value :=
  match p with
  | .bigUint => .ok (.bigUint (Bytes.toNat bs))
  | .bigInt => .ok (.bigInt (Bytes.toInt bs))
  | .text => (textOfBytes (.primitive p) bs).map .text
  | .token => (textOfBytes (.primitive p) bs).map .token
  | _ => .ok (.bytes bs)

/-- Reads a value of a primitive type. -/
def readPrimitive (p : Primitive) : Reader Value :=
  match p with
  | .int t => return .int t (.ofBytes t (← Reader.take (.primitive p) t.bytes).val)
  | .bool => do
    let b ← Reader.takeByte (.primitive p)
    Reader.ofExcept (boolOfByte (.primitive p) b)
  | .address => do
    let ⟨bs, h⟩ ← Reader.take (.primitive p) 32
    return .address ⟨bs, h⟩
  | .hash => do
    let ⟨bs, h⟩ ← Reader.take (.primitive p) 32
    return .hash ⟨bs, h⟩
  | p => do
    let bs ← Reader.takePrefixed (.primitive p)
    Reader.ofExcept (ofPayload p bs)

/-- Reads the mark of an `Option` and its content, if there is one. -/
def readOption (type : Ty) (content : Reader Value) : Reader (Option Value) := do
  let mark ← Reader.takeByte type
  if mark = 0 then return none
  else if mark = 1 then return some (← content)
  else Reader.fail (.invalidDiscriminant type mark)

mutual

/-- Reads a nested value of a type. -/
def read : Ty → Reader Value
  | .primitive p => readPrimitive p
  | .generic g params =>
    match g, params with
    | .option, p :: ps => return .option p (← readOption (.generic .option (p :: ps)) (read p))
    | .list, p :: ps => do
      let count ← Reader.takeLength (.generic .list (p :: ps))
      Reader.checkCount (.generic .list (p :: ps)) p count
      return .list p (← Reader.times (read p) count)
    | .tuple, params => return .tuple (← readAll params)
    | .optional, params => Reader.fail (.notNestable (.generic .optional params))
    | .variadic, params => Reader.fail (.notNestable (.generic .variadic params))
    | g, [] => Reader.fail (.underflow (.generic g []) 1 0)
  | .array length element => do
    Reader.checkCount (.array length element) element length.toNat
    return .array element (← Reader.times (read element) length.toNat)
  | .struct name fields => return .struct (.struct name fields) (← readFields fields)
  | .enum name variants => do
    let discriminant ← Reader.takeByte (.enum name variants)
    return .enum (.enum name variants) discriminant
      (← readVariant (.enum name variants) discriminant variants)

/-- Reads nested values of several types. -/
def readAll : List Ty → Reader (List Value)
  | [] => return []
  | t :: ts => return (← read t) :: (← readAll ts)

/-- Reads nested values of several fields. -/
def readFields : List (Field Ty) → Reader (List Value)
  | [] => return []
  | ⟨_, t⟩ :: fields => return (← read t) :: (← readFields fields)

/-- Reads the fields of the first variant with a discriminant. -/
def readVariant (owner : Ty) (discriminant : UInt8) : List (Variant Ty) → Reader (List Value)
  | [] => Reader.fail (.invalidDiscriminant owner discriminant)
  | ⟨d, _, fields⟩ :: variants =>
    if d = discriminant then readFields fields else readVariant owner discriminant variants

end

end Value

end ContractCalls

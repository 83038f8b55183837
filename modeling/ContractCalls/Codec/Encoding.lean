import ContractCalls.Codec.Decode
import ContractCalls.Codec.Encode

/-!
# The two encodings
-/

namespace ContractCalls

/-- How a value is written: as an argument of its own, or inside another value. -/
inductive Encoding where
  | top
  | nested
  deriving DecidableEq, Repr

/-- The bytes of a value. -/
def Value.encode (v : Value) : Encoding → Except CodecError Bytes
  | .top => v.encodeTop
  | .nested => v.encodeNested

/-- The value of a type that bytes denote. -/
def Value.decode (type : Ty) (bs : Bytes) : Encoding → Except CodecError Value
  | .top => decodeTop type bs
  | .nested => decodeNested type bs

end ContractCalls

import ContractCalls.Bytes.Hex

/-!
# Keys of 32 bytes

Account addresses and hashes are byte strings of length 32.
-/

namespace ContractCalls

/-- A byte string of length 32: the public key of an account or contract, or a hash. -/
structure Key where
  bytes : Bytes
  length_bytes : bytes.length = 32
  deriving DecidableEq

namespace Key

/-- The byte string as a key, if it has the right length. -/
def ofBytes? (bs : Bytes) : Option Key :=
  if h : bs.length = 32 then some ⟨bs, h⟩ else none

/-- The hexadecimal form of a key. -/
def toHex (key : Key) : String :=
  Hex.encode key.bytes

/-- The key whose hexadecimal form follows any number of leading `0x`. -/
def ofHex? (text : String) : Option Key :=
  match Hex.decode (String.ofList (Hex.dropMarks text.toList)) with
  | .ok bs => ofBytes? bs
  | .error _ => none

end Key

end ContractCalls

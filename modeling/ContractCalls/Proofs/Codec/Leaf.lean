import ContractCalls.Codec.Reader
import ContractCalls.Proofs.Bytes.BigEndian
import ContractCalls.Proofs.Codec.Encoding

/-!
# Values of primitive types

A value of a primitive type is written in one of two ways: in the number of bytes that the type
fixes, or as a payload of any length that stands alone at the top level and behind its length inside
other values. `IsLeaf` has a case for each, and `isLeaf` says that there are no others.
-/

namespace ContractCalls.Value

/-- A value of a primitive type, by the way it is written. -/
inductive IsLeaf : Primitive → Value → Prop
  | int (t : IntType) (n : Fixed t) : IsLeaf (.int t) (.int t n)
  | bool (b : Bool) : IsLeaf .bool (.bool b)
  | address (key : Key) : IsLeaf .address (.address key)
  | hash (key : Key) : IsLeaf .hash (.hash key)
  | payload {p : Primitive} {v : Value} {payload : Bytes} :
    p.fixedWidth? = none → v.encodeTop = .ok payload →
      v.encodeNested = encodePrefixed (.primitive p) payload →
        ofPayload p payload = .ok v → IsLeaf p v

variable {p : Primitive} {v : Value}

/-- A text is made of the bytes it is written as. -/
lemma textOfBytes_ofText (t : Ty) (s : String) : textOfBytes t (Bytes.ofText s) = .ok s := by
  simp [textOfBytes, Bytes.toText?_ofText]

/-- A text that is made of bytes is their text. -/
lemma toText?_of_textOfBytes {t : Ty} {bs : Bytes} {s : String} (e : textOfBytes t bs = .ok s) :
    Bytes.toText? bs = some s := by
  unfold textOfBytes at e
  split at e
  · next found => rw [found, Except.ok.inj e]
  · simp at e

/-- A value that was made for a primitive type is written in one of the ways, unless it carries a
type of the wrong kind. -/
lemma isLeaf (made : v.type = .primitive p) (label : v.IsWellLabelled) : IsLeaf p v := by
  cases v with
  | int t n =>
    obtain rfl : .int t = p := by simpa [type] using made
    exact .int t n
  | bool b =>
    obtain rfl : .bool = p := by simpa [type] using made
    exact .bool b
  | address key =>
    obtain rfl : .address = p := by simpa [type] using made
    exact .address key
  | hash key =>
    obtain rfl : .hash = p := by simpa [type] using made
    exact .hash key
  | bigUint n =>
    obtain rfl : .bigUint = p := by simpa [type] using made
    exact .payload rfl rfl rfl (by simp [ofPayload, Bytes.toNat_ofNat])
  | bigInt i =>
    obtain rfl : .bigInt = p := by simpa [type] using made
    exact .payload rfl rfl rfl (by simp [ofPayload, Bytes.toInt_ofInt])
  | bytes bs =>
    obtain rfl : .bytes = p := by simpa [type] using made
    exact .payload rfl rfl rfl rfl
  | text s =>
    obtain rfl : .text = p := by simpa [type] using made
    exact .payload rfl rfl rfl (by simp [ofPayload, textOfBytes_ofText, Except.map])
  | token s =>
    obtain rfl : .token = p := by simpa [type] using made
    exact .payload rfl rfl rfl (by simp [ofPayload, textOfBytes_ofText, Except.map])
  | struct t fields =>
    obtain ⟨name, fields, rfl⟩ := label
    simp [type] at made
  | enum t d fields =>
    obtain ⟨name, variants, rfl⟩ := label
    simp [type] at made
  | _ => simp [type] at made

/-- A value of a primitive type without a fixed size is read as a payload behind its length. -/
lemma readPrimitive_eq (sizeless : p.fixedWidth? = none) :
    readPrimitive p =
      Reader.takePrefixed (.primitive p) >>= fun bs => Reader.ofExcept (ofPayload p bs) := by
  cases p <;> first | rfl | simp [Primitive.fixedWidth?] at sizeless

end ContractCalls.Value

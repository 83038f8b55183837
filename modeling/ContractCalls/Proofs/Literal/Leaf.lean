import ContractCalls.Proofs.Bytes.Hex
import ContractCalls.Proofs.Outcome
import ContractCalls.Proofs.Text.Numeral
import ContractCalls.Proofs.Value.HasType
import ContractCalls.Value.Literal

/-!
# Literals of primitive types

A literal at a primitive type denotes a value of it (`hasType_of_ofJsonPrimitive`), and a value is
read back from its literal (`ofJsonPrimitive_toJson`). A token is the exception: its literal is
refused unless it is an identifier.
-/

namespace ContractCalls.Value

/-- Whether there are literals for a node: a token is not empty and holds ASCII characters alone,
and what is present is not itself absent. -/
def HasLiteral : Value → Prop
  | .token s => s ≠ "" ∧ ∀ c ∈ s.toList, c.toNat < 128
  | .option _ (some v) => ¬v.isAbsent
  | .optional _ (some v) => ¬v.isAbsent
  | _ => True

variable {p : Primitive} {t : IntType} {j : Json} {v : Value}

/-- A token identifier is a text of one or more ASCII characters. -/
lemma isTokenIdentifier_iff {s : String} :
    isTokenIdentifier s ↔ s ≠ "" ∧ ∀ c ∈ s.toList, c.toNat < 128 := by
  simp [isTokenIdentifier]

/-! ## What is read -/

/-- A literal at a primitive type is read as a value of the type that has a literal again. -/
lemma hasType_of_ofJsonPrimitive (e : ofJsonPrimitive p j = .ok v) :
    HasType (.primitive p) v ∧ v.All HasLiteral := by
  cases p with
  | bool =>
    cases j with
    | bool b =>
      obtain rfl := Except.ok.inj e
      exact ⟨.primitive rfl trivial, .leaf trivial rfl⟩
    | _ => cases e
  | token =>
    obtain ⟨s, -, e⟩ := bind_eq_ok_iff.mp e
    split_ifs at e with valid
    · obtain rfl := Except.ok.inj e
      exact ⟨.primitive rfl trivial, .leaf (isTokenIdentifier_iff.mp valid) rfl⟩
    · cases e
  | _ =>
    obtain ⟨a, -, rfl⟩ := map_eq_ok_iff.mp e
    exact ⟨.primitive rfl trivial, .leaf trivial rfl⟩

/-! ## What is written -/

/-- An integer fits a width exactly if it is the value of a number of that width. -/
lemma ofInt?_eq_some_iff {i : Int} {n : Fixed t} : Fixed.ofInt? t i = some n ↔ i = n.val := by
  unfold Fixed.ofInt?
  split_ifs with range
  · rw [Option.some.injEq, Fixed.ext_iff]
  · rw [false_iff]
    rintro rfl
    exact range n.bounds

/-- The decimal form of an integer is read as it, if it is in the range of the type. -/
lemma fixed?_toString_eq_some_iff {i : Int} {n : Fixed t} :
    fixed? t (toString i).toList = some n ↔ i = n.val := by
  unfold fixed?
  split_ifs with signed
  · rw [Numeral.integer?_toString, Option.bind_some, ofInt?_eq_some_iff]
  · have nonneg : 0 ≤ n.val := by simpa [IntType.least, signed] using n.bounds.1
    simp only [Option.bind_eq_some_iff, Numeral.natural?_toString_eq_some_iff, ofInt?_eq_some_iff]
    refine ⟨?_, fun value => ⟨n.val.toNat, by omega, by omega⟩⟩
    rintro ⟨k, rfl, value⟩
    exact value

/-- No part of a hexadecimal form is taken for a mark. -/
lemma dropMark_encode (bs : Bytes) : dropMark (Hex.encode bs).toList = (Hex.encode bs).toList := by
  have plain : ∀ c ∈ (Hex.encode bs).toList, c ≠ 'x' ∧ c ≠ 'X' := by
    intro c h
    obtain ⟨n, small, rfl⟩ := Hex.exists_hexDigit_of_mem_encode h
    exact (Hex.hexDigit_spec n small).2
  unfold dropMark
  split
  · next rest form => exact absurd rfl (plain 'x' (by simp [form])).1
  · next rest form => exact absurd rfl (plain 'X' (by simp [form])).2
  · rfl

/-- The hexadecimal form of bytes is read as the bytes. -/
lemma readHex_encode (expected : String) (bs : Bytes) :
    readHex expected (.string (Hex.encode bs)) = .ok bs := by
  rw [readHex, dropMark_encode, String.ofList_toList, Hex.decode_encode]

/-- The hexadecimal form of a key is read as the key. -/
lemma readKey_toHex (expected : String) (key : Key) :
    readKey expected (.string key.toHex) = .ok key := by
  have whole : Key.ofBytes? key.bytes = some key := dif_pos key.length_bytes
  rw [readKey, Key.toHex, readHex_encode, ok_bind, whole]
  rfl

/-- A value of a primitive type that has a literal is read back from it. -/
lemma ofJsonPrimitive_toJson (made : v.type = .primitive p) (label : v.IsWellLabelled)
    (literal : v.HasLiteral) : ofJsonPrimitive p v.toJson = .ok v := by
  cases v with
  | int t n =>
    obtain rfl : .int t = p := by simpa [type] using made
    have digits : (integerText? (int t n).toJson).bind (fixed? t) = some n :=
      fixed?_toString_eq_some_iff.mpr rfl
    rw [ofJsonPrimitive, digits]
    rfl
  | bigUint n =>
    obtain rfl : .bigUint = p := by simpa [type] using made
    have digits : (integerText? (bigUint n).toJson).bind Numeral.unboundedNatural? = some n := by
      rw [toJson, integerText?, Nat.toString_eq_repr, Nat.toList_repr, Text.trim_toDigits,
        Option.bind_some, Numeral.unboundedNatural?_toDigits]
    rw [ofJsonPrimitive, digits]
    rfl
  | bigInt i =>
    obtain rfl : .bigInt = p := by simpa [type] using made
    have digits : (integerText? (bigInt i).toJson).bind Numeral.unboundedInteger? = some i := by
      rw [toJson, integerText?, Text.trim_toString, Option.bind_some,
        Numeral.unboundedInteger?_toString]
    rw [ofJsonPrimitive, digits]
    rfl
  | bool b =>
    obtain rfl : .bool = p := by simpa [type] using made
    rfl
  | address key =>
    obtain rfl : .address = p := by simpa [type] using made
    rw [ofJsonPrimitive, toJson, readKey_toHex]
    rfl
  | bytes bs =>
    obtain rfl : .bytes = p := by simpa [type] using made
    rw [ofJsonPrimitive, toJson, readHex_encode]
    rfl
  | text s =>
    obtain rfl : .text = p := by simpa [type] using made
    rfl
  | token s =>
    obtain rfl : .token = p := by simpa [type] using made
    have valid := isTokenIdentifier_iff.mpr literal
    rw [ofJsonPrimitive, toJson, readText, ok_bind, if_pos valid]
  | hash key =>
    obtain rfl : .hash = p := by simpa [type] using made
    rw [ofJsonPrimitive, toJson, readKey_toHex]
    rfl
  | struct t fields =>
    obtain ⟨name, fields, rfl⟩ := label
    simp [type] at made
  | enum t d fields =>
    obtain ⟨name, variants, rfl⟩ := label
    simp [type] at made
  | _ => simp [type] at made

end ContractCalls.Value

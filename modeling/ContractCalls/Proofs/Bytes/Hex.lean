import ContractCalls.Bytes.Address
import ContractCalls.Proofs.Bytes.BigEndian
import ContractCalls.Proofs.Outcome

/-!
# Hexadecimal forms and how they are read

A byte string is read back from its hexadecimal form (`Hex.decode_encode`). The form holds the
sixteen digits alone (`Hex.exists_hexDigit_of_mem_encode`), so no part of it is taken for a mark.
Digits are read in either case: a text is read exactly if it holds digits two for each byte, and it
is then the form of what is read but for the case (`Hex.decode_eq_ok_iff`).
-/

namespace ContractCalls

/-- The UTF-8 form of a text of ASCII characters has a byte for each. -/
lemma Bytes.ofText_of_ascii {cs : List Char} (ascii : ∀ c ∈ cs, c.toNat < 128) :
    Bytes.ofText (String.ofList cs) = cs.map Char.toUInt8 := by
  have single : ∀ c ∈ cs, String.utf8EncodeChar c = [c.toUInt8] := by
    intro c h
    have small : c.val.toNat ≤ 127 := Nat.le_of_lt_succ (ascii c h)
    rw [String.utf8EncodeChar, if_pos small]
    rfl
  calc Bytes.ofText (String.ofList cs)
    _ = cs.flatMap String.utf8EncodeChar := by
      rw [Bytes.ofText, String.toUTF8, String.toByteArray_ofList, List.utf8Encode,
        List.toList_data_toByteArray]
    _ = cs.flatMap fun c => [c.toUInt8] := List.flatMap_congr single
    _ = cs.map Char.toUInt8 := List.flatMap_pure_eq_map _ _

namespace Hex

variable {bs : Bytes} {cs : List Char} {position : Nat}

/-- Each digit is an ASCII character other than a mark. -/
lemma hexDigit_spec :
    ∀ n < 16, (Text.hexDigit n).toNat < 128 ∧ Text.hexDigit n ≠ 'x' ∧ Text.hexDigit n ≠ 'X' := by
  decide

/-- A digit is read back from its character. -/
lemma digit?_hexDigit : ∀ n < 16, digit? (Text.hexDigit n).toUInt8 = some (UInt8.ofNat n) := by
  decide

/-- A hexadecimal form holds digits alone. -/
lemma exists_hexDigit_of_mem_encode {c : Char} (h : c ∈ (encode bs).toList) :
    ∃ n < 16, c = Text.hexDigit n := by
  rw [encode, String.toList_ofList] at h
  obtain ⟨b, -, hc⟩ := List.mem_flatMap.mp h
  have bound := b.toNat_lt
  rcases List.mem_pair.mp hc with rfl | rfl
  · exact ⟨b.toNat / 16, by omega, rfl⟩
  · exact ⟨b.toNat % 16, by omega, rfl⟩

/-- The digits of bytes are read as them, wherever they stand. -/
lemma decodePairs_flatMap (bs : Bytes) (position : Nat) :
    decodePairs position ((bs.flatMap encodeByte).map Char.toUInt8) = .ok bs := by
  induction bs generalizing position with
  | nil => rfl
  | cons b bs ih =>
    have bound := b.toNat_lt
    have high := digit?_hexDigit (b.toNat / 16) (by omega)
    have low := digit?_hexDigit (b.toNat % 16) (by omega)
    have joined : UInt8.ofNat (b.toNat / 16) * 16 + UInt8.ofNat (b.toNat % 16) = b := by
      apply UInt8.toNat_inj.mp
      simp
      omega
    simp [encodeByte, decodePairs, digitAt, high, low, ih, joined]

/-- Bytes are decoded from the hexadecimal form they are encoded as. -/
lemma decode_encode (bs : Bytes) : decode (encode bs) = .ok bs := by
  have ascii : ∀ c ∈ (encode bs).toList, c.toNat < 128 := by
    intro c h
    obtain ⟨n, small, rfl⟩ := exists_hexDigit_of_mem_encode h
    exact (hexDigit_spec n small).1
  rw [encode, String.toList_ofList] at ascii
  have even : ((bs.flatMap encodeByte).map Char.toUInt8).length % 2 = 0 := by
    rw [List.length_map, List.length_flatMap]
    simp [encodeByte]
  rw [decode, encode, Bytes.ofText_of_ascii ascii, if_neg (by omega), decodePairs_flatMap]

/-! ## Digits of either case -/

/-- The hexadecimal digits of either case. -/
def digits : List Char :=
  ['0', '1', '2', '3', '4', '5', '6', '7', '8', '9', 'a', 'b', 'c', 'd', 'e', 'f',
    'A', 'B', 'C', 'D', 'E', 'F']

/-- A text holds hexadecimal digits of either case, two for each byte. -/
def IsForm (cs : List Char) : Prop :=
  cs.length % 2 = 0 ∧ ∀ c ∈ cs, c ∈ digits

/-- Whether characters are a hexadecimal form can be tested. -/
instance : DecidablePred IsForm :=
  fun cs => inferInstanceAs (Decidable (cs.length % 2 = 0 ∧ ∀ c ∈ cs, c ∈ digits))

/-- A digit is read as its value, and its lower case is the digit that this is written as. -/
lemma digit?_of_mem_digits {c : Char} (h : c ∈ digits) : c.toNat < 128 ∧
    ∃ n < 16, digit? c.toUInt8 = some (UInt8.ofNat n) ∧ Text.hexDigit n = c.toLower := by
  fin_cases h <;> decide

/-- Nothing but digits is read. -/
lemma mem_digits_of_digit? {b d : UInt8} (h : digit? b = some d) :
    b ∈ digits.map Char.toUInt8 := by
  have codes : ∀ n ∈ List.range' 48 10 ++ List.range' 97 6 ++ List.range' 65 6,
      UInt8.ofNat n ∈ digits.map Char.toUInt8 := by
    decide +kernel
  have code : b.toNat ∈ List.range' 48 10 ++ List.range' 97 6 ++ List.range' 65 6 := by
    unfold digit? at h
    simp only [List.mem_append, List.mem_range'_1]
    split_ifs at h with decimal lower upper
    · have bounds : 48 ≤ b.toNat ∧ b.toNat ≤ 57 := decimal
      omega
    · have bounds : 97 ≤ b.toNat ∧ b.toNat ≤ 102 := lower
      omega
    · have bounds : 65 ≤ b.toNat ∧ b.toNat ≤ 70 := upper
      omega
  simpa using codes b.toNat code

/-- A digit is read at a position exactly if the character is one. -/
lemma digitAt_eq_ok_iff {b d : UInt8} : digitAt position b = .ok d ↔ digit? b = some d := by
  unfold digitAt
  split <;> simp_all

/-- Two characters in front of a form make a form exactly if they are digits. -/
lemma isForm_cons_cons_iff {high low : Char} :
    IsForm (high :: low :: cs) ↔ high ∈ digits ∧ low ∈ digits ∧ IsForm cs := by
  simp only [IsForm, List.length_cons, List.forall_mem_cons]
  constructor
  · intro h
    obtain ⟨even, hh, hl, hs⟩ := h
    exact ⟨hh, hl, by omega, hs⟩
  · intro h
    obtain ⟨hh, hl, even, hs⟩ := h
    exact ⟨by omega, hh, hl, hs⟩

/-- A byte of two digits is encoded as these. -/
lemma encodeByte_joined {m n : Nat} (high : m < 16) (low : n < 16) :
    encodeByte (UInt8.ofNat m * 16 + UInt8.ofNat n) = [Text.hexDigit m, Text.hexDigit n] := by
  have joined : (UInt8.ofNat m * 16 + UInt8.ofNat n).toNat = m * 16 + n := by
    simp
    omega
  have first : (m * 16 + n) / 16 = m := by omega
  have second : (m * 16 + n) % 16 = n := by omega
  rw [encodeByte, joined, first, second]

/-- Digits in pairs are read, and written again in lower case. -/
lemma exists_decodePairs (form : IsForm cs) (position : Nat) : ∃ bs,
    decodePairs position (cs.map Char.toUInt8) = .ok bs ∧
      bs.flatMap encodeByte = cs.map Char.toLower := by
  induction cs using List.twoStepInduction generalizing position with
  | nil => exact ⟨[], rfl, rfl⟩
  | singleton c => simp [IsForm] at form
  | cons_cons high low cs ih _ =>
    obtain ⟨first, second, others⟩ := isForm_cons_cons_iff.mp form
    obtain ⟨-, m, hm, readHigh, highCase⟩ := digit?_of_mem_digits first
    obtain ⟨-, n, hn, readLow, lowCase⟩ := digit?_of_mem_digits second
    obtain ⟨bs, read, written⟩ := ih others (position + 2)
    refine ⟨(UInt8.ofNat m * 16 + UInt8.ofNat n) :: bs, ?_, ?_⟩
    · simp [decodePairs, digitAt, readHigh, readLow, read]
    · rw [List.flatMap_cons, encodeByte_joined hm hn, highCase, lowCase, written]
      rfl

/-- Only digits in pairs are read. -/
lemma exists_isForm_of_decodePairs {input : Bytes} (e : decodePairs position input = .ok bs) :
    ∃ cs, IsForm cs ∧ input = cs.map Char.toUInt8 := by
  induction input using List.twoStepInduction generalizing position bs with
  | nil => exact ⟨[], ⟨rfl, by simp⟩, rfl⟩
  | singleton b => cases e
  | cons_cons high low input ih _ =>
    simp only [decodePairs, bind_eq_ok_iff, digitAt_eq_ok_iff] at e
    obtain ⟨h, readHigh, l, readLow, others, read, -⟩ := e
    obtain ⟨c, first, rfl⟩ := List.mem_map.mp (mem_digits_of_digit? readHigh)
    obtain ⟨d, second, rfl⟩ := List.mem_map.mp (mem_digits_of_digit? readLow)
    obtain ⟨cs, form, rfl⟩ := ih read
    exact ⟨c :: d :: cs, isForm_cons_cons_iff.mpr ⟨first, second, form⟩, rfl⟩

/-- The bytes of a form are its characters, one byte each. -/
lemma IsForm.ofText_eq (form : IsForm cs) :
    Bytes.ofText (String.ofList cs) = cs.map Char.toUInt8 :=
  Bytes.ofText_of_ascii fun c h => (digit?_of_mem_digits (form.2 c h)).1

/-- Different bytes have different hexadecimal forms. -/
lemma encode_injective : Function.Injective encode := by
  intro bs cs same
  exact Except.ok.inj (by rw [← decode_encode, same, decode_encode])

/-- A form in either case is decoded to bytes whose form is that in lower case. -/
lemma IsForm.exists_decode (form : IsForm cs) : ∃ bs,
    decode (String.ofList cs) = .ok bs ∧ (encode bs).toList = cs.map Char.toLower := by
  obtain ⟨bs, read, written⟩ := exists_decodePairs form 0
  have even := form.1
  refine ⟨bs, ?_, ?_⟩
  · simp only [decode, form.ofText_eq, List.length_map]
    rw [if_neg (by omega), read]
  · rw [encode, String.toList_ofList, written]

/-- Only hexadecimal forms are decoded. -/
lemma isForm_of_decode (e : decode (String.ofList cs) = .ok bs) : IsForm cs := by
  simp only [decode] at e
  split_ifs at e
  obtain ⟨ds, form, same⟩ := exists_isForm_of_decodePairs e
  -- The bytes are those of a text of digits, and no other text has them.
  rw [← form.ofText_eq] at same
  obtain rfl := String.ofList_injective (Bytes.ofText_injective same)
  exact form

/-- A text is read as the bytes whose hexadecimal form it is in lower case, if it holds digits in
pairs. -/
theorem decode_eq_ok_iff :
    decode (String.ofList cs) = .ok bs ↔ IsForm cs ∧ (encode bs).toList = cs.map Char.toLower := by
  refine ⟨fun e => ?_, fun h => ?_⟩
  · have form := isForm_of_decode e
    obtain ⟨bs', e', written⟩ := form.exists_decode
    obtain rfl := Except.ok.inj (e.symm.trans e')
    exact ⟨form, written⟩
  · obtain ⟨form, written⟩ := h
    obtain ⟨bs', e, written'⟩ := form.exists_decode
    rw [e, encode_injective (String.toList_injective (written'.trans written.symm))]

end Hex

end ContractCalls

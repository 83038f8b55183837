import Mathlib
import ContractCalls.Value.Fixed

/-!
# Numbers and their big-endian forms

Reading undoes writing: `toNat_ofNatFixed` says what a fixed number of digits keeps of a natural
number and `toInt_ofIntFixed` what it keeps of an integer. From these follow the round trips of the
shortest forms, `toNat_ofNat` and `toInt_ofInt`, and of the fixed-width integers,
`Fixed.ofBytes_toBytes`. Texts are read back from their UTF-8 forms by `toText?_ofText`. The other
way round, bytes are the form of what is read from them (`Fixed.toBytes_ofBytes`,
`ofText_of_toText?`), and no shorter than the shortest one (`length_ofNat_toNat_le`,
`length_ofInt_toInt_le`).
-/

namespace ContractCalls

namespace Bytes

/-- A last byte is the lowest digit. -/
lemma toNat_concat (bs : Bytes) (b : UInt8) : toNat (bs ++ [b]) = toNat bs * 256 + b.toNat := by
  simp [toNat]

/-- A first byte is the highest digit. -/
lemma toNat_cons (b : UInt8) (bs : Bytes) :
    toNat (b :: bs) = b.toNat * 256 ^ bs.length + toNat bs := by
  induction bs using List.reverseRecOn with
  | nil => simp [toNat]
  | append_singleton bs c ih =>
    rw [← List.cons_append, toNat_concat, ih, toNat_concat, List.length_append,
      List.length_singleton, pow_succ]
    ring

/-- The number of digits bounds a number. -/
lemma toNat_lt (bs : Bytes) : toNat bs < 256 ^ bs.length := by
  induction bs using List.reverseRecOn with
  | nil => simp [toNat]
  | append_singleton bs b ih =>
    have digit := b.toNat_lt
    rw [toNat_concat, List.length_append, List.length_singleton, pow_succ]
    omega

/-- A fixed number of digits keeps a natural number modulo a power of the base. -/
lemma toNat_ofNatFixed (width n : Nat) : toNat (ofNatFixed width n) = n % 256 ^ width := by
  induction width generalizing n with
  | zero => simp [ofNatFixed, toNat, Nat.mod_one]
  | succ width ih =>
    have digit : (UInt8.ofNat (n % 256)).toNat = n % 256 := by simp
    rw [ofNatFixed, toNat_concat, ih, digit, pow_succ', Nat.mod_mul]
    omega

/-- Bytes are the digits of their number. -/
lemma ofNatFixed_toNat (bs : Bytes) : ofNatFixed bs.length (toNat bs) = bs := by
  induction bs using List.reverseRecOn with
  | nil => rfl
  | append_singleton bs b ih =>
    have digit := b.toNat_lt
    have high : (toNat bs * 256 + b.toNat) / 256 = toNat bs := by omega
    have low : (toNat bs * 256 + b.toNat) % 256 = b.toNat := by omega
    rw [List.length_append, List.length_singleton, ofNatFixed, toNat_concat, high, low, ih]
    simp

/-- A fixed number of two's complement digits keeps an integer modulo a power of the base. -/
lemma toNat_ofIntFixed (width : Nat) (i : Int) :
    (toNat (ofIntFixed width i) : Int) = i % 256 ^ width := by
  have nonneg : 0 ≤ i % (256 ^ width : Int) := Int.emod_nonneg _ (by positivity)
  have small : i % (256 ^ width : Int) < 256 ^ width := Int.emod_lt_of_pos _ (by positivity)
  -- The definition takes the power as a natural number.
  have power : ((Nat.pow 256 width : ℕ) : Int) = 256 ^ width := by simp
  have bound : (i % (256 ^ width : Int)).toNat < 256 ^ width := by
    zify
    rw [Int.toNat_of_nonneg nonneg]
    exact small
  rw [ofIntFixed, toNat_ofNatFixed, power, Nat.mod_eq_of_lt bound, Int.toNat_of_nonneg nonneg]

/-- The two's complement reading is the residue of least magnitude of the natural one. -/
lemma toInt_eq_bmod (bs : Bytes) : toInt bs = (toNat bs : Int).bmod (256 ^ bs.length) := by
  cases bs with
  | nil => simp [toInt, toNat]
  | cons b bs =>
    have size : 256 ^ (b :: bs).length = 256 * 256 ^ bs.length := by
      rw [List.length_cons, pow_succ']
    have size' : (Nat.pow 256 (bs.length + 1) : Int) = ((256 ^ (b :: bs).length : ℕ) : Int) := by
      simp
    have low := toNat_lt bs
    have bound := toNat_lt (b :: bs)
    have value := toNat_cons b bs
    have sign : b < 128 ↔ b.toNat < 128 := UInt8.lt_iff_toNat_lt
    rw [toInt, size']
    rw [size] at bound ⊢
    generalize 256 ^ bs.length = N at *
    rw [Int.bmod_def, Int.emod_eq_of_lt (by omega) (by omega)]
    -- The first digit decides on which side of the middle of the range the number lies.
    by_cases h : b.toNat < 128
    · have below : b.toNat * N ≤ 127 * N := Nat.mul_le_mul_right _ (by omega)
      rw [if_pos (sign.mpr h), if_pos (by omega)]
    · have above : 128 * N ≤ b.toNat * N := Nat.mul_le_mul_right _ (by omega)
      rw [if_neg (mt sign.mp h), if_neg (by omega)]

/-- A fixed number of two's complement digits is read as a residue of least magnitude. -/
lemma toInt_ofIntFixed (width : Nat) (i : Int) :
    toInt (ofIntFixed width i) = i.bmod (256 ^ width) := by
  have power : (256 ^ width : Int) = ((256 ^ width : ℕ) : Int) := by simp
  rw [toInt_eq_bmod, length_ofIntFixed, toNat_ofIntFixed, power, Int.emod_bmod]

/-- A number has no more binary digits than its bit length. -/
lemma lt_two_pow_bitLength (n : Nat) : n < 2 ^ bitLength n := by
  unfold bitLength
  split
  · simp_all
  · exact Nat.lt_log2_self

/-- Eight bits are one digit to the base 256. -/
lemma two_pow_eight_mul (k : Nat) : 2 ^ (8 * k) = 256 ^ k := by
  rw [pow_mul]
  norm_num

/-- A number is read back from its shortest bytes. -/
lemma toNat_ofNat (n : Nat) : toNat (ofNat n) = n := by
  have bound : n < 256 ^ ((bitLength n + 7) / 8) := calc
    n < 2 ^ bitLength n := lt_two_pow_bitLength n
    _ ≤ 2 ^ (8 * ((bitLength n + 7) / 8)) := Nat.pow_le_pow_right (by omega) (by omega)
    _ = 256 ^ ((bitLength n + 7) / 8) := two_pow_eight_mul _
  rw [ofNat, toNat_ofNatFixed, Nat.mod_eq_of_lt bound]

/-- The magnitude bounds an integer on both sides. -/
lemma bounds_of_signedMagnitude_lt {i : Int} {M : Nat} (h : signedMagnitude i < M) :
    -(M : Int) ≤ i ∧ i < M := by
  cases i with
  | ofNat n => simp only [signedMagnitude, Int.ofNat_eq_natCast] at *; omega
  | negSucc n => simp only [signedMagnitude] at *; omega

/-- An integer is read back from its shortest bytes. -/
lemma toInt_ofInt (i : Int) : toInt (ofInt i) = i := by
  unfold ofInt
  split
  · next zero => simp [zero, toInt]
  · -- The digits hold the magnitude and a sign bit, so the integer is its own residue.
    set width := bitLength (signedMagnitude i) / 8 + 1
    have room : signedMagnitude i < 2 ^ (8 * width - 1) := calc
      signedMagnitude i < 2 ^ bitLength (signedMagnitude i) := lt_two_pow_bitLength _
      _ ≤ 2 ^ (8 * width - 1) := Nat.pow_le_pow_right (by omega) (by omega)
    have size : 256 ^ width = 2 * 2 ^ (8 * width - 1) := by
      rw [← pow_succ', show 8 * width - 1 + 1 = 8 * width by omega, two_pow_eight_mul]
    obtain ⟨lower, upper⟩ := bounds_of_signedMagnitude_lt room
    rw [toInt_ofIntFixed, size]
    generalize 2 ^ (8 * width - 1) = M at *
    apply Int.bmod_eq_of_le <;> omega

/-- A number has no more binary digits than a power of two above it. -/
lemma bitLength_le {n k : Nat} (h : n < 2 ^ k) : bitLength n ≤ k := by
  unfold bitLength
  split_ifs with zero
  · exact Nat.zero_le k
  · exact (Nat.log2_lt zero).mpr h

/-- No bytes of a number are fewer than its shortest ones. -/
lemma length_ofNat_toNat_le (bs : Bytes) : (ofNat (toNat bs)).length ≤ bs.length := by
  have small : toNat bs < 2 ^ (8 * bs.length) := two_pow_eight_mul bs.length ▸ toNat_lt bs
  have bits := bitLength_le small
  rw [ofNat, length_ofNatFixed]
  omega

/-- An integer between the bounds of a magnitude has none above it. -/
lemma signedMagnitude_lt {i : Int} {M : Nat} (lower : -(M : Int) ≤ i) (upper : i < M) :
    signedMagnitude i < M := by
  cases i with
  | ofNat n => simp only [signedMagnitude, Int.ofNat_eq_natCast] at *; omega
  | negSucc n => simp only [signedMagnitude] at *; omega

/-- No bytes of an integer are fewer than its shortest ones. -/
lemma length_ofInt_toInt_le (bs : Bytes) : (ofInt (toInt bs)).length ≤ bs.length := by
  cases bs with
  | nil => simp [toInt]
  | cons b bs =>
    -- Two's complement leaves all digits but the sign for the magnitude.
    have size : 256 ^ (b :: bs).length = 2 * 2 ^ (8 * (b :: bs).length - 1) := by
      rw [← two_pow_eight_mul, ← pow_succ', List.length_cons]
      congr 1
    have lower := Int.le_bmod (x := toNat (b :: bs)) (m := 256 ^ (b :: bs).length) (by positivity)
    have upper := Int.bmod_lt (x := toNat (b :: bs)) (m := 256 ^ (b :: bs).length) (by positivity)
    rw [← toInt_eq_bmod, size] at lower upper
    have small : signedMagnitude (toInt (b :: bs)) < 2 ^ (8 * (b :: bs).length - 1) :=
      signedMagnitude_lt (by omega) (by omega)
    have bits := bitLength_le small
    unfold ofInt
    split_ifs
    · simp
    · rw [length_ofIntFixed]
      rw [List.length_cons] at bits ⊢
      omega

/-- Bytes that have the width are not padded. -/
lemma widen_of_length_eq {signed : Bool} {width : Nat} {bs : Bytes} (h : bs.length = width) :
    widen signed width bs = bs := by
  simp [widen, h]

/-- A text is read back from its bytes. -/
lemma toText?_ofText (s : String) : toText? (ofText s) = some s := by
  simpa [toText?, ofText, String.fromUTF8?] using ⟨s.isValidUTF8, rfl⟩

/-- Different texts have different bytes. -/
lemma ofText_injective : Function.Injective ofText := by
  intro s t same
  exact Option.some.inj (by rw [← toText?_ofText, same, toText?_ofText])

/-- Bytes that are read as a text are its UTF-8 form. -/
lemma ofText_of_toText? {bs : Bytes} {s : String} (h : toText? bs = some s) : ofText s = bs := by
  obtain ⟨valid, rfl⟩ : ∃ valid, String.fromUTF8 ⟨bs.toArray⟩ valid = s := by
    simpa [toText?, String.fromUTF8?] using h
  rfl

end Bytes

namespace Fixed

variable {t : IntType}

/-- An integer of fixed width is read back from its bytes. -/
lemma ofBytes_toBytes (n : Fixed t) : ofBytes t n.toBytes = n := by
  have bounds := n.bounds
  have value := Bytes.toNat_ofIntFixed t.bytes n.val
  ext
  simp only [ofBytes, ofInt, toBytes, value]
  -- one goal for each of the eight types
  rcases t with ⟨_ | _, _ | _ | _ | _⟩ <;>
    simp [residue, IntType.least, IntType.greatest, IntType.count, IntType.bytes, Width.bytes,
      Int.bmod] at * <;> omega

/-- As many bytes as a fixed-width integer has are read back from it. -/
lemma toBytes_ofBytes {bs : Bytes} (size : bs.length = t.bytes) : (ofBytes t bs).toBytes = bs := by
  have same : (ofBytes t bs).val % (t.count : Int) = Bytes.toNat bs % (t.count : Int) := by
    simp only [ofBytes, ofInt, residue]
    split_ifs
    · rw [Int.bmod_emod]
    · rw [Int.emod_emod]
  have small : Bytes.toNat bs < t.count := by
    simpa [size, IntType.count] using Bytes.toNat_lt bs
  rw [toBytes, Bytes.ofIntFixed, ← IntType.count, same, ← Int.natCast_emod, Nat.mod_eq_of_lt small,
    Int.toNat_natCast, ← size, Bytes.ofNatFixed_toNat]

end Fixed

end ContractCalls

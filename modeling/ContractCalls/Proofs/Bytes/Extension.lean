import ContractCalls.Proofs.Bytes.BigEndian

/-!
# Longer forms of a number

Zeros in front of bytes change no natural number, and copies of the sign byte in front of bytes
change no integer in two's complement. Numbers have no other longer forms: the bytes that denote one
are its shortest form behind such copies (`toNat_eq_iff`, `toInt_eq_iff`). Widening puts these bytes
in front, so it changes no number either (`Fixed.val_ofBytes_widen`).
-/

namespace ContractCalls

namespace Bytes

variable {bs cs : Bytes} {n width : Nat} {i : Int}

/-- The byte that longer forms of an integer repeat in front. -/
def signByte (i : Int) : UInt8 :=
  if i < 0 then 255 else 0

/-! ## Bytes in front -/

/-- Zeros in front do not change a number. -/
lemma toNat_replicate_append (k : Nat) (bs : Bytes) :
    toNat (List.replicate k 0 ++ bs) = toNat bs := by
  induction k with
  | zero => rfl
  | succ k ih =>
    rw [List.replicate_succ, List.cons_append, toNat_cons, ih]
    simp

/-- The first byte tells the sign. -/
lemma toInt_neg_iff : toInt bs < 0 ↔ bs.head?.any (128 ≤ ·) := by
  cases bs with
  | nil => simp [toInt]
  | cons b bs =>
    have bound := toNat_lt (b :: bs)
    have size : (Nat.pow 256 (bs.length + 1) : Int) = ((256 ^ (b :: bs).length : ℕ) : Int) := by simp
    rw [toInt, size]
    split_ifs with low
    · have other : ¬128 ≤ b := UInt8.not_le.mpr low
      simp [other]
    · have high : 128 ≤ b := UInt8.not_lt.mp low
      simp only [List.head?_cons, Option.any_some, high, decide_true, iff_true]
      omega

/-- A negative integer lies below what its bytes denote without a sign, by the number of all byte
strings of their length. -/
lemma toInt_eq (bs : Bytes) :
    toInt bs = toNat bs - (if toInt bs < 0 then 256 ^ bs.length else 0 : Nat) := by
  cases bs with
  | nil => simp [toInt, toNat]
  | cons b bs =>
    have sign : toInt (b :: bs) < 0 ↔ 128 ≤ b := by simp [toInt_neg_iff]
    simp only [sign]
    rw [toInt]
    split_ifs with low high high
    · exact absurd high (UInt8.not_le.mpr low)
    · simp
    · simp
    · exact absurd (UInt8.not_lt.mp low) high

/-- A sign byte in front does not change an integer. -/
lemma toInt_signByte_cons (bs : Bytes) : toInt (signByte (toInt bs) :: bs) = toInt bs := by
  have value := toInt_eq bs
  by_cases negative : toInt bs < 0
  · have stays : toInt (255 :: bs) < 0 := toInt_neg_iff.mpr rfl
    rw [if_pos negative] at value
    rw [signByte, if_pos negative, toInt_eq, if_pos stays, toNat_cons, List.length_cons, pow_succ,
      value, UInt8.toNat_ofNat]
    push_cast
    ring
  · have stays : ¬toInt (0 :: bs) < 0 := by simp [toInt_neg_iff]
    rw [if_neg negative] at value
    rw [signByte, if_neg negative, toInt_eq, if_neg stays, toNat_cons, value]
    simp

/-- Sign bytes in front do not change an integer. -/
lemma toInt_replicate_append (k : Nat) (bs : Bytes) :
    toInt (List.replicate k (signByte (toInt bs)) ++ bs) = toInt bs := by
  induction k with
  | zero => rfl
  | succ k ih =>
    have first := toInt_signByte_cons (List.replicate k (signByte (toInt bs)) ++ bs)
    rwa [ih] at first

/-! ## All forms of a number -/

/-- As many bytes of one number are the same. -/
lemma eq_of_toNat_eq (size : bs.length = cs.length) (same : toNat bs = toNat cs) : bs = cs := by
  rw [← ofNatFixed_toNat bs, size, same, ofNatFixed_toNat]

/-- The integer of bytes is their number, modulo what so many bytes count. -/
lemma toInt_emod (bs : Bytes) : toInt bs % (256 ^ bs.length : ℕ) = toNat bs := by
  have bound := toNat_lt bs
  rw [toInt_eq_bmod, Int.bmod_emod]
  apply Int.emod_eq_of_lt <;> omega

/-- As many bytes of one integer are the same. -/
lemma eq_of_toInt_eq (size : bs.length = cs.length) (same : toInt bs = toInt cs) : bs = cs := by
  apply eq_of_toNat_eq size
  have value := toInt_emod bs
  rw [same, size, toInt_emod] at value
  exact_mod_cast value.symm

/-- The forms of a natural number are the shortest one behind zeros. -/
theorem toNat_eq_iff : toNat bs = n ↔ ∃ k, bs = List.replicate k 0 ++ ofNat n := by
  refine ⟨?_, ?_⟩
  · rintro rfl
    have short := length_ofNat_toNat_le bs
    refine ⟨bs.length - (ofNat (toNat bs)).length, eq_of_toNat_eq ?_ ?_⟩
    · rw [List.length_append, List.length_replicate]
      omega
    · rw [toNat_replicate_append, toNat_ofNat]
  · rintro ⟨k, rfl⟩
    rw [toNat_replicate_append, toNat_ofNat]

/-- The forms of an integer are the shortest one behind copies of the sign byte. -/
theorem toInt_eq_iff : toInt bs = i ↔ ∃ k, bs = List.replicate k (signByte i) ++ ofInt i := by
  have longer (k : Nat) : toInt (List.replicate k (signByte i) ++ ofInt i) = i := by
    have value := toInt_replicate_append k (ofInt i)
    rwa [toInt_ofInt] at value
  refine ⟨?_, ?_⟩
  · rintro rfl
    have short := length_ofInt_toInt_le bs
    refine ⟨bs.length - (ofInt (toInt bs)).length, eq_of_toInt_eq ?_ (longer _).symm⟩
    rw [List.length_append, List.length_replicate]
    omega
  · rintro ⟨k, rfl⟩
    exact longer k

/-! ## Widening -/

/-- Bytes are padded to the width. -/
lemma length_widen (signed : Bool) (h : bs.length ≤ width) :
    (widen signed width bs).length = width := by
  simp only [widen, List.length_append, List.length_replicate]
  omega

/-- Padding does not change a number. -/
lemma toNat_widen (width : Nat) (bs : Bytes) : toNat (widen false width bs) = toNat bs :=
  toNat_replicate_append _ _

/-- Padding by sign does not change an integer. -/
lemma toInt_widen (width : Nat) (bs : Bytes) : toInt (widen true width bs) = toInt bs := by
  have fill : (if bs.head?.any (128 ≤ ·) then 255 else 0 : UInt8) = signByte (toInt bs) := by
    simp only [signByte, toInt_neg_iff]
  rw [widen, Bool.true_and, fill, toInt_replicate_append]

end Bytes

/-- The integer that bytes denote for a type: in two's complement if the type has a sign. -/
def IntType.integerOf (t : IntType) (bs : Bytes) : Int :=
  if t.signed then Bytes.toInt bs else Bytes.toNat bs

namespace Fixed

variable {t : IntType} {bs : Bytes}

/-- As many bytes as the width stand for the integer that is read from them. -/
lemma val_ofBytes (size : bs.length = t.bytes) : (ofBytes t bs).val = t.integerOf bs := by
  have small : Bytes.toNat bs < t.count := by
    simpa [size, IntType.count] using Bytes.toNat_lt bs
  simp only [ofBytes, ofInt, residue, IntType.integerOf]
  split_ifs
  · rw [Bytes.toInt_eq_bmod, size, IntType.count]
    rfl
  · apply Int.emod_eq_of_lt <;> omega

/-- Bytes that are no more than a type has are widened to those of the integer that they denote. -/
lemma val_ofBytes_widen (h : bs.length ≤ t.bytes) :
    (ofBytes t (Bytes.widen t.signed t.bytes bs)).val = t.integerOf bs := by
  rw [val_ofBytes (Bytes.length_widen t.signed h), IntType.integerOf, IntType.integerOf]
  split_ifs with signed
  · rw [signed, Bytes.toInt_widen]
  · rw [Bool.eq_false_of_not_eq_true signed, Bytes.toNat_widen]

end Fixed

end ContractCalls

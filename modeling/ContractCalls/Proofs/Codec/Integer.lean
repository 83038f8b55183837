import ContractCalls.Codec.Decode
import ContractCalls.Proofs.Bytes.Extension
import ContractCalls.Proofs.Outcome

/-!
# Integers at the top level

An integer of any size is decoded from its shortest form, and from that form behind bytes that do
not change it (`decodeTop_unbounded_iff`). An integer of a fixed width is decoded as that same
integer from no more bytes than it has, and refused from more, so that its shortest form is decoded
exactly if it is in the range of the type (`decodeTop_fixed_agrees`).
-/

namespace ContractCalls.Value

variable {t : IntType} {bs own : Bytes} {i : Int}

/-- Bytes behind copies of a byte are the same bytes, or more. -/
lemma exists_replicate_append_iff {b : UInt8} :
    (∃ k, bs = List.replicate k b ++ own) ↔
      bs = own ∨ own.length < bs.length ∧ ∃ k, bs = List.replicate k b ++ own := by
  refine ⟨?_, ?_⟩
  · rintro ⟨k, rfl⟩
    cases k with
    | zero => exact .inl rfl
    | succ k => exact .inr ⟨by simp, k + 1, rfl⟩
  · rintro (rfl | ⟨-, longer⟩)
    · exact ⟨0, rfl⟩
    · exact longer

/-- The bytes that are decoded to an integer of any size are its shortest form and longer ones: that
form behind zeros for a natural number, and behind copies of the sign byte for an integer. -/
theorem decodeTop_unbounded_iff (bs : Bytes) (n : Nat) (i : Int) :
    (decodeTop (.primitive .bigUint) bs = .ok (.bigUint n) ↔
      bs = Bytes.ofNat n ∨
        (Bytes.ofNat n).length < bs.length ∧ ∃ k, bs = List.replicate k 0 ++ Bytes.ofNat n) ∧
    (decodeTop (.primitive .bigInt) bs = .ok (.bigInt i) ↔
      bs = Bytes.ofInt i ∨
        (Bytes.ofInt i).length < bs.length ∧
          ∃ k, bs = List.replicate k (Bytes.signByte i) ++ Bytes.ofInt i) := by
  refine ⟨?_, ?_⟩
  · rw [← exists_replicate_append_iff, ← Bytes.toNat_eq_iff]
    simp [decodeTop, decodeTopPrimitive, ofPayload]
  · rw [← exists_replicate_append_iff, ← Bytes.toInt_eq_iff]
    simp [decodeTop, decodeTopPrimitive, ofPayload]

/-! ## Fixed widths -/

/-- Bytes that are more than the width overflow. -/
lemma decodeTop_int_of_lt (long : t.bytes < bs.length) :
    decodeTop (.primitive (.int t)) bs = .error (.overflow (.primitive (.int t)) t.bytes) :=
  if_pos long

/-- Bytes that are no more than the width are decoded to the integer that they stand for. -/
lemma decodeTop_int_of_le (short : bs.length ≤ t.bytes) :
    ∃ n : Fixed t, n.val = t.integerOf bs ∧
      decodeTop (.primitive (.int t)) bs = .ok (.int t n) :=
  ⟨_, Fixed.val_ofBytes_widen short, if_neg (Nat.not_lt.mpr short)⟩

/-- The bytes of an integer stand for it. -/
lemma integerOf_toBytes (n : Fixed t) : t.integerOf n.toBytes = n.val := by
  rw [← Fixed.val_ofBytes n.length_toBytes, Fixed.ofBytes_toBytes]

/-- The fewest bytes that denote an integer are decoded as it, if it is in the range of the type. -/
lemma decodeTop_int_of_shortest (denoted : t.integerOf own = i)
    (shortest : ∀ bs, t.integerOf bs = i → own.length ≤ bs.length) :
    decodeTop (.primitive (.int t)) own =
      if h : t.least ≤ i ∧ i ≤ t.greatest then .ok (.int t ⟨i, h⟩)
      else .error (.overflow (.primitive (.int t)) t.bytes) := by
  split_ifs with range
  · have short := shortest _ (integerOf_toBytes ⟨i, range⟩)
    rw [Fixed.length_toBytes] at short
    obtain ⟨n, value, decoded⟩ := decodeTop_int_of_le short
    obtain rfl : n = ⟨i, range⟩ := Fixed.ext (value.trans denoted)
    exact decoded
  · -- Fewer bytes would make an integer of the type.
    apply decodeTop_int_of_lt
    by_contra short
    obtain ⟨n, value, -⟩ := decodeTop_int_of_le (Nat.not_lt.mp short)
    rw [denoted] at value
    exact range (value ▸ n.bounds)

/-- Integers of a fixed width are decoded as the integers of any size that the same bytes denote,
with and without a sign, from as many bytes as the width has or fewer; more bytes are refused. So the
shortest form of an integer is decoded as it, or refused if the integer is not in range. -/
theorem decodeTop_fixed_agrees (w : Width) (bs : Bytes) (n : Nat) (i : Int) :
    let unsigned : IntType := ⟨false, w⟩
    let signed : IntType := ⟨true, w⟩
    decodeTop (.primitive .bigUint) bs = .ok (.bigUint (Bytes.toNat bs)) ∧
    decodeTop (.primitive .bigInt) bs = .ok (.bigInt (Bytes.toInt bs)) ∧
    (bs.length ≤ w.bytes →
      (∃ m : Fixed unsigned, m.val = Bytes.toNat bs ∧
        decodeTop (.primitive (.int unsigned)) bs = .ok (.int unsigned m)) ∧
      ∃ m : Fixed signed, m.val = Bytes.toInt bs ∧
        decodeTop (.primitive (.int signed)) bs = .ok (.int signed m)) ∧
    (w.bytes < bs.length → ∀ t ∈ [unsigned, signed],
      decodeTop (.primitive (.int t)) bs = .error (.overflow (.primitive (.int t)) w.bytes)) ∧
    (decodeTop (.primitive (.int unsigned)) (Bytes.ofNat n) =
      if h : unsigned.least ≤ n ∧ n ≤ unsigned.greatest then .ok (.int unsigned ⟨n, h⟩)
      else .error (.overflow (.primitive (.int unsigned)) w.bytes)) ∧
    (decodeTop (.primitive (.int signed)) (Bytes.ofInt i) =
      if h : signed.least ≤ i ∧ i ≤ signed.greatest then .ok (.int signed ⟨i, h⟩)
      else .error (.overflow (.primitive (.int signed)) w.bytes)) := by
  intro unsigned signed
  refine ⟨rfl, rfl, fun short => ?_, fun long t ht => ?_, ?_, ?_⟩
  · exact ⟨decodeTop_int_of_le (t := unsigned) short, decodeTop_int_of_le (t := signed) short⟩
  · have width : t.bytes = w.bytes := by
      rcases List.mem_pair.mp ht with rfl | rfl <;> rfl
    rw [← width] at long ⊢
    exact decodeTop_int_of_lt long
  · refine decodeTop_int_of_shortest (congrArg Int.ofNat (Bytes.toNat_ofNat n)) fun bs denoted => ?_
    obtain rfl : Bytes.toNat bs = n := Int.ofNat.inj denoted
    exact Bytes.length_ofNat_toNat_le bs
  · refine decodeTop_int_of_shortest (Bytes.toInt_ofInt i) fun bs denoted => ?_
    obtain rfl : Bytes.toInt bs = i := denoted
    exact Bytes.length_ofInt_toInt_le bs

/-- One byte of a signed integer of two bytes is padded by its sign, and three bytes overflow. -/
theorem decodeTop_fixed_agrees_two_bytes :
    (∃ m : Fixed ⟨true, .two⟩, m.val = -1 ∧
      decodeTop (.primitive (.int ⟨true, .two⟩)) [255] = .ok (.int ⟨true, .two⟩ m)) ∧
    decodeTop (.primitive (.int ⟨true, .two⟩)) [0, 0, 1] =
      .error (.overflow (.primitive (.int ⟨true, .two⟩)) 2) := by
  obtain ⟨-, -, short, -⟩ := decodeTop_fixed_agrees .two [255] 0 0
  obtain ⟨-, -, -, long, -⟩ := decodeTop_fixed_agrees .two [0, 0, 1] 0 0
  exact ⟨(short (by decide)).2, long (by decide) _ (by simp)⟩

end ContractCalls.Value

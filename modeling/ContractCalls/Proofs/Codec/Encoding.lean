import ContractCalls.Proofs.Outcome
import ContractCalls.Proofs.Value.Nodes

/-!
# What nested values are written as

A nested value is written as some bytes of its own, its head, followed by its parts
(`encodeNested_eq`). So a value has a nested form exactly if each of its nodes has a head, which is
`exists_encodeNested_iff`.
-/

namespace ContractCalls.Value

variable {v : Value} {vs : List Value} {bs out : Bytes}

/-- The bytes that a nested value puts in front of its parts. -/
def head : Value → Except CodecError Bytes
  | .int _ n => .ok n.toBytes
  | .bool b => .ok [if b then 1 else 0]
  | .address key => .ok key.bytes
  | .hash key => .ok key.bytes
  | .bigUint n => encodePrefixed (.primitive .bigUint) (Bytes.ofNat n)
  | .bigInt i => encodePrefixed (.primitive .bigInt) (Bytes.ofInt i)
  | .bytes bs => encodePrefixed (.primitive .bytes) bs
  | .text s => encodePrefixed (.primitive .text) (Bytes.ofText s)
  | .token s => encodePrefixed (.primitive .token) (Bytes.ofText s)
  | .option _ none => .ok [0]
  | .option _ (some _) => .ok [1]
  | .list element items => encodeLength (.list element) items.length
  | .tuple _ => .ok []
  | .array _ _ => .ok []
  | .struct _ _ => .ok []
  | .enum _ discriminant _ => .ok [discriminant]
  | .optional inner _ => .error (.notNestable (.optional inner))
  | .variadic element _ => .error (.notNestable (.variadic element))

/-- A nested value is its head followed by its parts. -/
lemma encodeNested_eq (v : Value) :
    v.encodeNested = do return (← v.head) ++ (← encodeNestedAll v.parts) := by
  rcases v with _ | _ | _ | _ | _ | _ | _ | _ | _ | ⟨_, _ | _⟩ | _ | _ | _ | _ | _ | _ | _ <;>
    simp [encodeNested, head, parts, encodeNestedAll]

/-- A length is written if it is below the bound. -/
lemma encodeLength_eq_ok_iff {t : Ty} {n : Nat} :
    encodeLength t n = .ok out ↔ n < lengthBound ∧ out = Bytes.ofNatFixed 4 n := by
  unfold encodeLength
  split <;> simp_all [eq_comm]

/-- Bytes are written behind their length if it is below the bound. -/
lemma encodePrefixed_eq_ok_iff {t : Ty} :
    encodePrefixed t bs = .ok out ↔
      bs.length < lengthBound ∧ out = Bytes.ofNatFixed 4 bs.length ++ bs := by
  simp [encodePrefixed, map_eq_ok_iff, encodeLength_eq_ok_iff, and_assoc, @eq_comm _ out]

/-- No values are written as no bytes. -/
@[simp]
lemma encodeNestedAll_nil_eq_ok_iff : encodeNestedAll [] = .ok bs ↔ bs = [] := by
  simp [encodeNestedAll, eq_comm]

/-- Several values are written one after another. -/
lemma encodeNestedAll_cons_eq_ok_iff :
    encodeNestedAll (v :: vs) = .ok bs ↔
      ∃ b c, v.encodeNested = .ok b ∧ encodeNestedAll vs = .ok c ∧ bs = b ++ c := by
  simp [encodeNestedAll, bind_eq_ok_iff, map_eq_ok_iff, @eq_comm _ bs]

/-- Several values are written if each of them is. -/
lemma exists_encodeNestedAll_iff :
    (∃ bs, encodeNestedAll vs = .ok bs) ↔ ∀ v ∈ vs, ∃ bs, v.encodeNested = .ok bs := by
  induction vs with
  | nil => simp
  | cons v vs ih =>
    simp only [encodeNestedAll_cons_eq_ok_iff, List.forall_mem_cons, ← ih]
    refine ⟨fun h => ?_, fun h => ?_⟩
    · obtain ⟨_, b, c, hb, hc, -⟩ := h
      exact ⟨⟨b, hb⟩, c, hc⟩
    · obtain ⟨⟨b, hb⟩, c, hc⟩ := h
      exact ⟨_, b, c, hb, hc, rfl⟩

/-- A nested value is written if its head and its parts are. -/
lemma encodeNested_eq_ok_iff :
    v.encodeNested = .ok bs ↔
      ∃ h b, v.head = .ok h ∧ encodeNestedAll v.parts = .ok b ∧ bs = h ++ b := by
  simp [encodeNested_eq, bind_eq_ok_iff, map_eq_ok_iff, @eq_comm _ bs]

/-- A value has a head if it may stand inside another and its length can be written. -/
lemma exists_head_iff : (∃ h, v.head = .ok h) ↔ v.IsNestable := by
  rcases v with _ | _ | _ | _ | _ | _ | _ | _ | _ | ⟨_, _ | _⟩ | _ | _ | _ | _ | _ | _ | _ <;>
    simp [head, IsNestable, isMultiValue, prefixedLength?, encodePrefixed_eq_ok_iff,
      encodeLength_eq_ok_iff]

/-- A value has a nested form if each of its nodes may stand inside another and the length in front
of each fits its four bytes. -/
lemma exists_encodeNested_iff : (∃ bs, v.encodeNested = .ok bs) ↔ v.All IsNestable := by
  induction v using partsInduction with
  | step v ih =>
    -- The head is written if the root is nestable, the parts by induction if all nodes below are.
    have below : (∃ b, encodeNestedAll v.parts = .ok b) ↔ ∀ u ∈ v.parts, u.All IsNestable := by
      rw [exists_encodeNestedAll_iff]
      exact forall₂_congr ih
    rw [all_iff, ← exists_head_iff, ← below]
    simp only [encodeNested_eq_ok_iff]
    refine ⟨fun h => ?_, fun h => ?_⟩
    · obtain ⟨_, h, b, hh, hb, -⟩ := h
      exact ⟨⟨h, hh⟩, b, hb⟩
    · obtain ⟨⟨h, hh⟩, b, hb⟩ := h
      exact ⟨_, h, b, hh, hb, rfl⟩

end ContractCalls.Value

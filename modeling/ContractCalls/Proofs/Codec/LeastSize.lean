import ContractCalls.Proofs.Codec.Form

/-!
# What the least size of a type bounds

No value of a type takes fewer bytes than the least size of the type, neither where it is read nor
where it is written, and none at all if that size is zero and no tuple's wraps around. What is read is
a form and fills its type (`IsForm.fills`). What is written is one too, unless a struct or an enum in
the value carries a primitive type; such values may be shorter than their type asks for, but those of
a type without bytes have none (`eq_nil_of_conforms`).
-/

namespace ContractCalls

namespace Value

variable {t : Ty} {ts : List Ty} {v : Value} {vs : List Value} {bs rest : Bytes}

/-! ## Types without bytes -/

/-- Values that are each written without bytes are written without bytes together. -/
lemma encodeNestedAll_eq_nil (h : ∀ v ∈ vs, ∀ b, v.encodeNested = .ok b → b = [])
    (e : encodeNestedAll vs = .ok bs) : bs = [] := by
  induction vs generalizing bs with
  | nil => exact encodeNestedAll_nil_eq_ok_iff.mp e
  | cons v vs ih =>
    obtain ⟨b, c, first, others, rfl⟩ := encodeNestedAll_cons_eq_ok_iff.mp e
    rw [List.forall_mem_cons] at h
    rw [h.1 b first, ih h.2 others, List.append_nil]

/-- Values of types without bytes, one by one, are written without bytes if this holds of each. -/
lemma eq_nil_of_conformsAll
    (h : ∀ t ∈ ts, ∀ v b, conforms t v → t.exactWidth = 0 → v.encodeNested = .ok b → b = [])
    (c : conformsAll ts vs) (zero : Ty.exactWidths ts = 0) (e : encodeNestedAll vs = .ok bs) :
    bs = [] := by
  refine encodeNestedAll_eq_nil (fun v hv b written => ?_) e
  obtain ⟨t, ht, c⟩ := exists_of_conformsAll c hv
  exact h t ht v b c (Ty.exactWidths_eq_zero_iff.mp zero t ht) written

/-- A value that conforms to a type without bytes is written without bytes. -/
theorem eq_nil_of_conforms (c : conforms t v) (zero : t.exactWidth = 0)
    (e : v.encodeNested = .ok bs) : bs = [] := by
  induction t generalizing v bs with
  | primitive p => exact absurd zero (Ty.exactWidth_primitive_pos p).ne'
  | generic g params ih =>
    cases g with
    | option => simp [Ty.exactWidth] at zero
    | list => simp [Ty.exactWidth] at zero
    | tuple =>
      obtain ⟨items, rfl, below⟩ := conforms_tuple_iff.mp c
      exact eq_nil_of_conformsAll (fun t ht v b c zero e => ih t ht c zero e) below zero e
    | optional =>
      obtain ⟨p, value, rfl, rfl, -⟩ := (conforms_mayBeAbsent_iff .optional).mp c
      simp [encodeNested] at e
    | variadic =>
      obtain ⟨p, items, rfl, rfl, -⟩ := (conforms_hasItems_iff .variadic).mp c
      simp [encodeNested] at e
  | array length t ih =>
    obtain ⟨items, rfl, size, below⟩ := conforms_array_iff.mp c
    rw [Ty.exactWidth, Nat.mul_eq_zero, ← size] at zero
    refine encodeNestedAll_eq_nil (fun v hv b written => ?_) e
    -- An array of items that take bytes takes none only if it has no items.
    rcases zero with empty | zero
    · rw [List.eq_nil_of_length_eq_zero empty] at hv
      exact absurd hv List.not_mem_nil
    · exact ih (below v hv) zero written
  | struct name fields ih =>
    obtain ⟨values, rfl, below⟩ := conforms_struct_iff.mp c
    rw [Ty.exactWidth, Ty.exactWidthFields_eq] at zero
    refine eq_nil_of_conformsAll (fun t ht v b c zero e => ?_) below zero e
    obtain ⟨field, hf, rfl⟩ := List.mem_map.mp ht
    exact ih field hf c zero e
  | enum name variants ih => simp [Ty.exactWidth] at zero

/-! ## Bounds -/

/-- The least size of a type bounds what its values take. A value that is read takes at least so many
bytes from the front, and none if the least size is zero. A value that conforms to the type is written
as at least so many bytes if the structs and enums in it carry types of their own kind, and whatever
they carry, as none if the least size is zero. Types in which the least size of a tuple overflows are
left out where it is zero. -/
theorem minWidth_le (t : Ty) :
    (∀ bs v rest, read t bs = (.ok v, rest) →
      ∃ front, bs = front ++ rest ∧ t.minWidth ≤ front.length ∧
        (t.All (·.tupleFits) → t.minWidth = 0 → front = [])) ∧
    ∀ v bs, conforms t v → v.encodeNested = .ok bs →
      (v.All IsWellLabelled → t.minWidth ≤ bs.length) ∧
        (t.All (·.tupleFits) → t.minWidth = 0 → bs = []) := by
  refine ⟨fun bs v rest e => ?_, fun v bs c e => ⟨fun label => ?_, fun fits zero => ?_⟩⟩
  · obtain ⟨front, split, form, -⟩ := readsForms t e
    refine ⟨front, split, form.minWidth_le_length, fun fits zero => ?_⟩
    exact form.fills.2 (Ty.exactWidth_eq_zero fits zero)
  · exact ((hasType_iff.mpr ⟨c, label⟩).isForm e).minWidth_le_length
  · exact eq_nil_of_conforms c (Ty.exactWidth_eq_zero fits zero) e

/-- A struct without fields that carries a primitive type conforms to it, but is written without the
byte that each value of the type takes. -/
theorem mislabelled_struct_too_short :
    let v := struct (.primitive .u8) []
    conforms (.primitive .u8) v ∧ v.encodeNested = .ok [] ∧ (Ty.primitive .u8).minWidth = 1 :=
  ⟨by decide, rfl, rfl⟩

end Value

end ContractCalls

import ContractCalls.Codec.Encoding
import ContractCalls.Proofs.Codec.Items

/-!
# Items that bytes hold

However a list or an array stands in a value that was decoded, its items fit the bytes: each takes at
least the least size of its type, and the form of a node is a piece of the form of the value
(`IsForm.exists_node`). Where items may take no bytes their number is limited. So no count in front of
items, and no length that a type declares, makes more items than the bytes hold.

Items whose least size wraps around to zero take more bytes than 64 bits count, so bytes that are no
more than that hold none (`AreForms.exactWidth_eq_zero`).
-/

namespace ContractCalls.Value

variable {t : Ty} {ts : List Ty} {p : Primitive} {u v : Value} {vs items : List Value} {bs : Bytes}
  {element : Ty} {m n : Nat}

/-- Whether the items of a list or an array fit so many bytes, or are few if they may take none. -/
def ItemsFit (size : Nat) : Value → Prop
  | .list element items | .array element items =>
    items.length * element.minWidth ≤ size ∧
      (element.minWidth = 0 → size ≤ Ty.maxSize → items.length ≤ Reader.maxEmptyItems)
  | _ => True

/-- Items that fit bytes fit more of them. -/
lemma ItemsFit.mono (h : ItemsFit m v) (le : m ≤ n) : ItemsFit n v := by
  cases v with
  | list element items => exact ⟨h.1.trans le, fun zero small => h.2 zero (le.trans small)⟩
  | array element items => exact ⟨h.1.trans le, fun zero small => h.2 zero (le.trans small)⟩
  | _ => trivial

/-- A value that was made for a primitive type holds no items. -/
lemma itemsFit_of_type (made : v.type = .primitive p) (label : v.IsWellLabelled) :
    v.All (ItemsFit n) := by
  refine .leaf ?_ (parts_eq_nil_of_type made label)
  cases v <;> simp_all [type, ItemsFit]

/-! ## Pieces of a form -/

/-- Among bytes that denote several values are those that denote any of them. -/
lemma AreForms.exists_of_mem (h : AreForms ts bs vs) (hv : v ∈ vs) :
    ∃ t piece, piece <:+: bs ∧ IsForm t piece v := by
  induction ts generalizing bs vs with
  | nil =>
    cases h
    simp at hv
  | cons t ts ih =>
    cases h with
    | @cons _ _ b c _ _ form forms =>
      rcases List.mem_cons.mp hv with rfl | below
      · exact ⟨t, b, (List.prefix_append b c).isInfix, form⟩
      · obtain ⟨s, piece, stands, form⟩ := ih forms below
        exact ⟨s, piece, stands.trans (List.suffix_append b c).isInfix, form⟩

/-- The bytes that denote a value hold those that denote any part of it. -/
lemma IsForm.exists_part (h : IsForm t bs v) (hu : u ∈ v.parts) :
    ∃ s piece, piece <:+: bs ∧ IsForm s piece u := by
  cases h with
  | fixed sized leaf written =>
    obtain ⟨made, label⟩ := leaf.type_and_wellLabelled
    rw [parts_eq_nil_of_type made label.root] at hu
    exact absurd hu List.not_mem_nil
  | payload sizeless small content =>
    obtain ⟨made, label⟩ := type_of_ofPayload sizeless content
    rw [parts_eq_nil_of_type made label.root] at hu
    exact absurd hu List.not_mem_nil
  | absent => simp [parts] at hu
  | @present t ts bs v form =>
    obtain rfl : u = v := by simpa [parts] using hu
    exact ⟨t, bs, (List.suffix_cons 1 bs).isInfix, form⟩
  | @list t ts bs vs small forms =>
    obtain ⟨s, piece, stands, form⟩ := forms.exists_of_mem hu
    exact ⟨s, piece, stands.trans (List.suffix_append _ bs).isInfix, form⟩
  | tuple forms => exact forms.exists_of_mem hu
  | array size forms => exact forms.exists_of_mem hu
  | struct forms => exact forms.exists_of_mem hu
  | @enum name variants d variant bs vs found forms =>
    obtain ⟨s, piece, stands, form⟩ := forms.exists_of_mem hu
    exact ⟨s, piece, stands.trans (List.suffix_cons d bs).isInfix, form⟩

/-- The bytes that denote a value hold those that denote any node of it. -/
theorem IsForm.exists_node (h : IsForm t bs v) (node : IsNode u v) :
    ∃ s piece, piece <:+: bs ∧ IsForm s piece u := by
  induction node generalizing t bs with
  | root => exact ⟨t, bs, List.infix_rfl, h⟩
  | part hv _ ih =>
    obtain ⟨s, piece, stands, form⟩ := h.exists_part hv
    obtain ⟨r, inner, within, form⟩ := ih form
    exact ⟨r, inner, within.trans stands, form⟩

/-! ## Items fit -/

/-- Items in no more bytes than 64 bits count take none if their type asks for none in 64 bits. -/
lemma AreForms.exactWidth_eq_zero (h : AreForms (List.replicate vs.length t) bs vs)
    (nonempty : vs ≠ []) (small : bs.length ≤ Ty.maxSize) (zero : t.minWidth = 0) :
    t.exactWidth = 0 := by
  have one : t.exactWidth ≤ vs.length * t.exactWidth :=
    Nat.le_mul_of_pos_left _ (List.length_pos_iff.mpr nonempty)
  rw [← Ty.minWidth_eq_exactWidth (one.trans (h.fills_items.1.trans small)), zero]

/-- The items of a list or an array fit the bytes that denote it. -/
lemma IsForm.itemsFit_root (h : IsForm t bs v) (few : v.HasFewEmptyItems) :
    ItemsFit bs.length v := by
  cases h with
  | fixed sized leaf written =>
    obtain ⟨made, label⟩ := leaf.type_and_wellLabelled
    exact (itemsFit_of_type made label.root).root
  | payload sizeless small content =>
    obtain ⟨made, label⟩ := type_of_ofPayload sizeless content
    exact (itemsFit_of_type made label.root).root
  | list small forms =>
    refine ⟨forms.minWidth_le_length.trans ?_, fun zero _ => few zero⟩
    simp
  | array size forms => exact ⟨forms.minWidth_le_length, fun zero _ => few zero⟩
  | _ => trivial

/-- At every depth of a value, the items fit the bytes that denote the value. -/
lemma IsForm.itemsFit (h : IsForm t bs v) (few : v.All HasFewEmptyItems) :
    v.All (ItemsFit bs.length) := by
  intro u node
  obtain ⟨s, piece, stands, form⟩ := h.exists_node node
  exact (form.itemsFit_root (few u node)).mono stands.length_le

/-- At every depth of a value that is decoded as one argument, the items fit the argument. -/
lemma DecodesTop.itemsFit (h : DecodesTop t bs v) : v.All (ItemsFit bs.length) := by
  induction h with
  | primitive e =>
    obtain ⟨made, label⟩ := type_of_decodeTopPrimitive e
    exact itemsFit_of_type made label.root
  | absent => exact .leaf trivial rfl
  | present _ ih => exact .intro trivial (by simpa [parts] using ih)
  | absentOptional => exact .leaf trivial rfl
  | presentOptional _ ih => exact .intro trivial (by simpa [parts] using ih)
  | @list t ts bs vs e =>
    obtain ⟨forms, few, taken⟩ := readItemsToEnd_eq_ok_iff.mp e
    refine .intro ⟨forms.minWidth_le_length, fun zero small => ?_⟩ fun v hv => ?_
    · by_cases empty : vs = []
      · simp [empty]
      · simp [taken (forms.exactWidth_eq_zero empty small zero)]
    · obtain ⟨s, piece, stands, form⟩ := forms.exists_of_mem hv
      exact fun u node => (form.itemsFit (few v hv) u node).mono stands.length_le
  | nested e =>
    obtain ⟨form, few⟩ := decodeNested_iff_isForm.mp e
    exact form.itemsFit few

/-- Bytes of any kind are only decoded to lists and arrays that they can hold. At every depth of a
value that was decoded, in either encoding, the items of a list or an array are no more than the
bytes divided by the least size of their type, and if that is zero they are few. No bytes in memory
are more than the greatest size, which is asked for where the least size may have wrapped around. -/
theorem items_le_of_decode {mode : Encoding} (e : decode t bs mode = .ok v)
    (node : IsNode (.list element items) v ∨ IsNode (.array element items) v) :
    (0 < element.minWidth → items.length * element.minWidth ≤ bs.length) ∧
      (element.minWidth = 0 → bs.length ≤ Ty.maxSize → items.length ≤ 65536) := by
  have fit : v.All (ItemsFit bs.length) := by
    cases mode with
    | top => exact (decodesTop_of_decodeTop e).itemsFit
    | nested => exact (DecodesTop.nested e).itemsFit
  rcases node with list | array
  · exact ⟨fun _ => (fit _ list).1, (fit _ list).2⟩
  · exact ⟨fun _ => (fit _ array).1, (fit _ array).2⟩

/-- The four bytes of an argument hold a list of two arrays, and four bytes that count two empty
tuples hold these. -/
theorem items_le_of_decode_array_list :
    let bool := Ty.primitive .bool
    let pairs := [Value.array bool [.bool true, .bool false], .array bool [.bool false, .bool true]]
    decode (.option (.list (.array 2 bool))) [1, 0, 0, 1] .top =
        .ok (.option (.list (.array 2 bool)) (some (.list (.array 2 bool) pairs))) ∧
      pairs.length * (Ty.array 2 bool).minWidth ≤ 4 ∧
      decode (.list (.tuple [])) [0, 0, 0, 2] .nested =
        .ok (.list (.tuple []) [.tuple [], .tuple []]) ∧
      [Value.tuple [], .tuple []].length ≤ 65536 := by
  intro bool pairs
  have top : decode (.option (.list (.array 2 bool))) [1, 0, 0, 1] .top =
      .ok (.option (.list (.array 2 bool)) (some (.list (.array 2 bool) pairs))) := rfl
  have nested : decode (.list (.tuple [])) [0, 0, 0, 2] .nested =
      .ok (.list (.tuple []) [.tuple [], .tuple []]) := by cbv
  have pairsNode : IsNode (.list (.array 2 bool) pairs)
      (.option (.list (.array 2 bool)) (some (.list (.array 2 bool) pairs))) :=
    .part (by simp [parts]) .root
  have wide : (Ty.array 2 bool).minWidth = 2 := by
    simp [bool, Ty.minWidth, Ty.saturate, Ty.maxSize, Primitive.fixedWidth?]
  exact ⟨top, (items_le_of_decode top (.inl pairsNode)).1 (by rw [wide]; decide), nested,
    (items_le_of_decode nested (.inl .root)).2 rfl (by decide)⟩

end ContractCalls.Value

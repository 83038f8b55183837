import ContractCalls.Proofs.Codec.Items
import ContractCalls.Proofs.Codec.RoundTrip

/-!
# Decoding arguments that were written

What a top-level value is decoded to from its own bytes. Not all survive: a content without bytes
cannot be told from no content, nor a list of items without bytes from the empty list. `Value.norm`
makes these replacements, and `topLevel_roundTrip` says that there are no others.
-/

namespace ContractCalls.Value

variable {t : Ty} {p : Primitive} {v : Value} {vs : List Value} {bs : Bytes}

/-- The value that is decoded from the top-level form of a value: content without bytes is absent,
and a list without bytes is empty. -/
def norm : Value → Value
  | .option inner (some v) =>
    if v.encodeTop = .ok [] then .option inner none else .option inner (some v.norm)
  | .optional inner (some v) =>
    if v.encodeTop = .ok [] then .optional inner none else .optional inner (some v.norm)
  | .list element items =>
    if encodeNestedAll items = .ok [] then .list element [] else .list element items
  | v => v

/-- Replacing a value by what is decoded from it puts no type of the wrong kind into it. -/
lemma All.norm (label : v.All IsWellLabelled) : v.norm.All IsWellLabelled := by
  induction v using partsInduction with
  | step v ih =>
    cases v with
    | option inner value =>
      cases value with
      | none => exact label
      | some u =>
        rw [Value.norm]
        split_ifs
        · exact .leaf trivial rfl
        · have below := ih u (by simp [parts]) (label.part (by simp [parts]))
          exact .intro trivial (by simpa [parts] using below)
    | optional inner value =>
      cases value with
      | none => exact label
      | some u =>
        rw [Value.norm]
        split_ifs
        · exact .leaf trivial rfl
        · have below := ih u (by simp [parts]) (label.part (by simp [parts]))
          exact .intro trivial (by simpa [parts] using below)
    | list element items =>
      rw [Value.norm]
      split_ifs
      · exact .leaf trivial rfl
      · exact label
    | _ => exact label

/-- A value of a type is decoded from its nested form. -/
lemma HasType.decodeNested (h : HasType t v) (e : v.encodeNested = .ok bs)
    (few : v.All HasFewEmptyItems) : decodeNested t bs = .ok v := by
  have reads := h.read_append e few []
  rw [List.append_nil] at reads
  exact decodeNested_eq_ok_iff.mpr reads

/-- A value of a primitive type is decoded from its top-level form. -/
lemma IsLeaf.decodeTop (h : IsLeaf p v) (e : v.encodeTop = .ok bs) :
    decodeTopPrimitive p bs = .ok v := by
  cases h with
  | int t n =>
    obtain rfl : n.toBytes = bs := by simpa [encodeTop, encodeNested] using e
    have wide : Bytes.widen t.signed t.bytes n.toBytes = n.toBytes :=
      Bytes.widen_of_length_eq n.length_toBytes
    simp [decodeTopPrimitive, wide, Fixed.ofBytes_toBytes]
  | bool b =>
    obtain rfl : [if b then 1 else 0] = bs := by simpa [encodeTop, encodeNested] using e
    cases b <;> rfl
  | address key =>
    obtain rfl : key.bytes = bs := by simpa [encodeTop, encodeNested] using e
    have whole : HasType (.primitive .address) (.address key) := .primitive rfl trivial
    simpa [decodeTopPrimitive, key.length_bytes] using whole.decodeNested rfl (.leaf trivial rfl)
  | hash key =>
    obtain rfl : key.bytes = bs := by simpa [encodeTop, encodeNested] using e
    have whole : HasType (.primitive .hash) (.hash key) := .primitive rfl trivial
    simpa [decodeTopPrimitive, key.length_bytes] using whole.decodeNested rfl (.leaf trivial rfl)
  | payload sizeless top _ content =>
    obtain rfl := Except.ok.inj (top.symm.trans e)
    rw [decodeTopPrimitive_eq sizeless, content]

/-- Items of a type that do not all lack bytes are read to the end. -/
lemma readItemsToEnd_append (owner : Ty) (h : ∀ v ∈ vs, HasType t v)
    (few : ∀ v ∈ vs, v.All HasFewEmptyItems) (e : encodeNestedAll vs = .ok bs)
    (nonempty : bs ≠ []) :
    readItemsToEnd owner (read t) bs.length bs = .ok vs := by
  have forms := areForms_replicate (fun v hv bs => (h v hv).isForm) e
  -- If items could take no bytes, these would all take none.
  have takes : t.exactWidth ≠ 0 := by
    intro zero
    exact nonempty (forms.fills_items.2 (by rw [zero, Nat.mul_zero]))
  exact readItemsToEnd_eq_ok_iff.mpr ⟨forms, few, fun zero => absurd zero takes⟩

/-- Content is decoded to what it is replaced by, and is absent if it has no bytes. -/
lemma decodeTop_norm_of_mayBeAbsent {g : Generic} {make : Ty → Option Value → Value}
    (kind : MayBeAbsent g make) {value : Option Value}
    (content : ∀ u ∈ value, u.encodeTop = .ok bs → u.norm.All IsWellLabelled →
      decodeTop t bs = .ok u.norm)
    (e : (make t value).encodeTop = .ok bs) (label : (make t value).norm.All IsWellLabelled) :
    decodeTop (.generic g [t]) bs = .ok (make t value).norm := by
  cases value with
  | none =>
    obtain rfl : [] = bs := by cases kind <;> simpa [encodeTop] using e
    cases kind <;> rfl
  | some u =>
    have top : u.encodeTop = .ok bs := by cases kind <;> simpa [encodeTop] using e
    by_cases empty : bs = []
    · -- Content without bytes is read as absent.
      subst empty
      cases kind <;> simp [norm, top, decodeTop]
    · obtain ⟨b, bs, rfl⟩ := List.exists_cons_of_ne_nil empty
      have kept : (make t (some u)).norm = make t (some u.norm) := by
        cases kind <;> simp [norm, top]
      rw [kept] at label ⊢
      have inner : u.norm.All IsWellLabelled := label.part (by cases kind <;> simp [parts])
      cases kind <;> simp [decodeTop, content u rfl top inner]

/-- A value that conforms to a type is decoded from its top-level form to what it is replaced by, if
that carries types of the right kind only. -/
lemma decodeTop_norm (c : conforms t v) (e : v.encodeTop = .ok bs) (few : v.All HasFewEmptyItems)
    (label : v.norm.All IsWellLabelled) : decodeTop t bs = .ok v.norm := by
  induction t generalizing v bs with
  | primitive p =>
    have made := conforms_primitive_iff.mp c
    have same : v.norm = v := by cases v <;> simp [type] at made <;> rfl
    rw [same] at label ⊢
    exact (isLeaf made label.root).decodeTop e
  | generic g params ih =>
    cases g with
    | option =>
      obtain ⟨p, value, rfl, rfl, below⟩ := (conforms_mayBeAbsent_iff .option).mp c
      refine decodeTop_norm_of_mayBeAbsent .option (fun u hu top => ?_) e label
      exact ih p (by simp) (below u hu) top (few.part (by simpa [parts] using hu))
    | optional =>
      obtain ⟨p, value, rfl, rfl, below⟩ := (conforms_mayBeAbsent_iff .optional).mp c
      refine decodeTop_norm_of_mayBeAbsent .optional (fun u hu top => ?_) e label
      exact ih p (by simp) (below u hu) top (few.part (by simpa [parts] using hu))
    | list =>
      obtain ⟨p, items, rfl, rfl, below⟩ := (conforms_hasItems_iff .list).mp c
      rw [encodeTop] at e
      by_cases empty : bs = []
      · subst empty
        simp [norm, e, decodeTop, readItemsToEnd]
      · have same : (list p items).norm = .list p items := by simp [norm, e, empty]
        rw [same] at label ⊢
        have typed (v : Value) (hv : v ∈ items) : HasType p v :=
          hasType_iff.mpr ⟨below v hv, label.part hv⟩
        have items := readItemsToEnd_append (.list p) typed (fun v hv => few.part hv) e empty
        simp [decodeTop, items]
    | variadic =>
      obtain ⟨p, items, rfl, rfl, below⟩ := (conforms_hasItems_iff .variadic).mp c
      simp [encodeTop] at e
    | tuple =>
      obtain ⟨items, rfl, below⟩ := conforms_tuple_iff.mp c
      exact (hasType_iff.mpr ⟨c, label⟩).decodeNested e few
  | array length t ih =>
    obtain ⟨items, rfl, size, below⟩ := conforms_array_iff.mp c
    exact (hasType_iff.mpr ⟨c, label⟩).decodeNested e few
  | struct name fields ih =>
    obtain ⟨values, rfl, below⟩ := conforms_struct_iff.mp c
    exact (hasType_iff.mpr ⟨c, label⟩).decodeNested e few
  | enum name variants ih =>
    obtain ⟨d, values, variant, rfl, found, below⟩ := conforms_enum_iff.mp c
    exact (hasType_iff.mpr ⟨c, label⟩).decodeNested e few

/-- Top-level values: to what they are decoded from their own bytes. A value that conforms to a type
and has few items without bytes is decoded to what it is replaced by exactly if that carries types
of the right kind only, and to itself exactly if in addition nothing is replaced. Types in
which the least size of a tuple overflows are left out. -/
theorem topLevel_roundTrip (_fits : t.All (·.tupleFits)) (c : conforms t v)
    (e : v.encodeTop = .ok bs) (few : v.All HasFewEmptyItems) :
    (decodeTop t bs = .ok v.norm ↔ v.norm.All IsWellLabelled) ∧
      (decodeTop t bs = .ok v ↔ v.norm = v ∧ v.All IsWellLabelled) := by
  -- As for nested values, `_fits` keeps the statement to types whose sizes every build agrees on.
  refine ⟨⟨wellLabelled_of_decodeTop, decodeTop_norm c e few⟩, fun h => ?_, fun h => ?_⟩
  · have label := wellLabelled_of_decodeTop h
    have replaced := decodeTop_norm c e few label.norm
    exact ⟨Except.ok.inj (replaced.symm.trans h), label⟩
  · obtain ⟨same, label⟩ := h
    have replaced := decodeTop_norm c e few label.norm
    rwa [same] at replaced

/-- An absent `Option` that is present in an `optional` has no bytes, so it is decoded to the absent
`optional`. -/
theorem topLevel_roundTrip_present_absent :
    let v := presentOptional (absent (.primitive .bool))
    v.encodeTop = .ok [] ∧ decodeTop v.type [] = .ok v.norm ∧ decodeTop v.type [] ≠ .ok v := by
  intro v
  have c : conforms v.type v := by decide
  have e : v.encodeTop = .ok [] := rfl
  have few : v.All HasFewEmptyItems :=
    .intro trivial (List.forall_mem_singleton.mpr (.leaf trivial rfl))
  have replaced : v.norm = absentOptional (.option (.primitive .bool)) := rfl
  obtain ⟨toNorm, toSelf⟩ := topLevel_roundTrip (by decide) c e few
  refine ⟨e, toNorm.mpr ?_, fun h => ?_⟩
  · rw [replaced]
    exact .leaf trivial rfl
  · have same := (toSelf.mp h).1
    rw [replaced] at same
    simp [v, absentOptional, presentOptional] at same

/-- An enum that carries a primitive type conforms to it, but is not decoded to itself, although
nothing in it is replaced. -/
theorem mislabelled_enum_not_decoded :
    let v := enum (.primitive .bytes) 5 []
    conforms (.primitive .bytes) v ∧ v.encodeTop = .ok [5] ∧ v.All HasFewEmptyItems ∧
      v.norm = v ∧ decodeTop (.primitive .bytes) [5] ≠ .ok v.norm := by
  refine ⟨by decide, rfl, .leaf trivial rfl, rfl, ?_⟩
  intro h
  cases h

end ContractCalls.Value

import ContractCalls.Proofs.Codec.Form
import ContractCalls.Proofs.Ty.Nodes

/-!
# Writing what was read

A value that was decoded can be written, whatever the bytes were (`reencode_of_decode`). Its own
form is no longer than the bytes it was read from, and it is those bytes unless the type holds
integers of any size: they are the only values with more than one form (`IsForm.exists_encoding`).
-/

namespace ContractCalls.Value

variable {t : Ty} {p : Primitive} {v : Value} {vs : List Value} {bs payload : Bytes}

/-- A value is written as a payload that makes it, no longer than one that it was made from. -/
lemma exists_payload_of_ofPayload (sizeless : p.fixedWidth? = none)
    (content : ofPayload p payload = .ok v) :
    ∃ own, v.encodeNested = encodePrefixed (.primitive p) own ∧ ofPayload p own = .ok v ∧
      own.length ≤ payload.length ∧ (¬(Ty.primitive p).isBig → own = payload) := by
  cases p with
  | bigUint =>
    obtain rfl := Except.ok.inj content
    refine ⟨Bytes.ofNat (Bytes.toNat payload), rfl, ?_, Bytes.length_ofNat_toNat_le payload, ?_⟩
    · rw [ofPayload, Bytes.toNat_ofNat]
    · simp [Ty.isBig]
  | bigInt =>
    obtain rfl := Except.ok.inj content
    refine ⟨Bytes.ofInt (Bytes.toInt payload), rfl, ?_, Bytes.length_ofInt_toInt_le payload, ?_⟩
    · rw [ofPayload, Bytes.toInt_ofInt]
    · simp [Ty.isBig]
  | bytes =>
    obtain rfl := Except.ok.inj content
    exact ⟨payload, rfl, rfl, le_rfl, fun _ => rfl⟩
  | text =>
    obtain ⟨s, made, rfl⟩ := map_eq_ok_iff.mp content
    obtain rfl := Bytes.ofText_of_toText? (toText?_of_textOfBytes made)
    exact ⟨Bytes.ofText s, rfl, content, le_rfl, fun _ => rfl⟩
  | token =>
    obtain ⟨s, made, rfl⟩ := map_eq_ok_iff.mp content
    obtain rfl := Bytes.ofText_of_toText? (toText?_of_textOfBytes made)
    exact ⟨Bytes.ofText s, rfl, content, le_rfl, fun _ => rfl⟩
  | _ => simp [Primitive.fixedWidth?] at sizeless

/-- A form is that of a value which is written: as a form no longer than it, and as the same one if
no integers are of any size. -/
theorem IsForm.exists_encoding (h : IsForm t bs v) :
    ∃ own, v.encodeNested = .ok own ∧ IsForm t own v ∧ own.length ≤ bs.length ∧
      ((t.All fun u => ¬u.isBig) → own = bs) := by
  -- The second motive says the same of values one after another.
  induction h using IsForm.rec
    (motive_2 := fun ts bs vs _ =>
      ∃ own, encodeNestedAll vs = .ok own ∧ AreForms ts own vs ∧ own.length ≤ bs.length ∧
        ((∀ t ∈ ts, t.All fun u => ¬u.isBig) → own = bs)) with
  | fixed sized leaf written => exact ⟨_, written, .fixed sized leaf written, le_rfl, fun _ => rfl⟩
  | payload sizeless small content =>
    obtain ⟨own, written, made, short, same⟩ := exists_payload_of_ofPayload sizeless content
    have small := short.trans_lt small
    refine ⟨_, ?_, .payload sizeless small made, by simpa using short, fun all => ?_⟩
    · rw [written]
      exact encodePrefixed_eq_ok_iff.mpr ⟨small, rfl⟩
    · rw [same all.root]
  | absent => exact ⟨[0], rfl, .absent, le_rfl, fun _ => rfl⟩
  | present form ih =>
    obtain ⟨own, written, form, short, same⟩ := ih
    refine ⟨1 :: own, by simp [encodeNested, written], .present form, by simpa using short, ?_⟩
    intro all
    rw [same (all.param (by simp))]
  | @list t ts bs vs small forms ih =>
    obtain ⟨own, written, forms, short, same⟩ := ih
    refine ⟨_, ?_, .list small forms, by simpa using short, fun all => ?_⟩
    · refine encodeNested_eq_ok_iff.mpr ⟨_, own, ?_, written, rfl⟩
      exact encodeLength_eq_ok_iff.mpr ⟨small, rfl⟩
    · rw [same fun u hu => List.eq_of_mem_replicate hu ▸ all.param (by simp)]
  | tuple forms ih =>
    obtain ⟨own, written, forms, short, same⟩ := ih
    exact ⟨own, written, .tuple forms, short, fun all => same fun u hu => all.param hu⟩
  | array size forms ih =>
    obtain ⟨own, written, forms, short, same⟩ := ih
    refine ⟨own, written, .array size forms, short, fun all => same fun u hu => ?_⟩
    exact List.eq_of_mem_replicate hu ▸ all.element
  | struct forms ih =>
    obtain ⟨own, written, forms, short, same⟩ := ih
    exact ⟨own, written, .struct forms, short, fun all => same all.fieldType⟩
  | @enum name variants d variant bs vs found forms ih =>
    obtain ⟨own, written, forms, short, same⟩ := ih
    refine ⟨d :: own, by simp [encodeNested, written], .enum found forms, by simpa using short, ?_⟩
    intro all
    rw [same (all.variantType (List.mem_of_find?_eq_some found))]
  | nil => exact ⟨[], rfl, .nil, le_rfl, fun _ => rfl⟩
  | cons form forms ih ihs =>
    obtain ⟨b, writtenb, form, shortb, sameb⟩ := ih
    obtain ⟨c, writtenc, forms, shortc, samec⟩ := ihs
    refine ⟨b ++ c, encodeNestedAll_cons_eq_ok_iff.mpr ⟨b, c, writtenb, writtenc, rfl⟩,
      .cons form forms, ?_, fun all => ?_⟩
    · rw [List.length_append, List.length_append]
      exact Nat.add_le_add shortb shortc
    · simp only [List.forall_mem_cons] at all
      rw [sameb all.1, samec all.2]

/-- A value with a nested form has a top-level form. -/
lemma exists_encodeTop_of_encodeNested (e : v.encodeNested = .ok bs) :
    ∃ top, v.encodeTop = .ok top := by
  induction v using partsInduction generalizing bs with
  | step v ih =>
    cases v with
    | option inner value =>
      cases value with
      | none => exact ⟨[], rfl⟩
      | some u =>
        obtain ⟨b, written, -⟩ := map_eq_ok_iff.mp e
        exact ih u (by simp [parts]) written
    | list element items =>
      obtain ⟨count, b, -, written, -⟩ := encodeNested_eq_ok_iff.mp e
      exact ⟨b, written⟩
    | optional inner value => simp [encodeNested] at e
    | variadic element items => simp [encodeNested] at e
    | bigUint n => exact ⟨_, rfl⟩
    | bigInt i => exact ⟨_, rfl⟩
    | bytes bs => exact ⟨_, rfl⟩
    | text s => exact ⟨_, rfl⟩
    | token s => exact ⟨_, rfl⟩
    | _ => exact ⟨bs, e⟩

/-- A value that is read has a nested form. -/
lemma read_gives_encoding (t : Ty) :
    (read t).Gives fun v => ∃ bs, v.encodeNested = .ok bs := by
  intro bs v rest e
  obtain ⟨front, -, form, -⟩ := readsForms t e
  obtain ⟨own, written, -⟩ := form.exists_encoding
  exact ⟨own, written⟩

/-- A value that is decoded as one argument has a top-level form. -/
lemma DecodesTop.exists_encodeTop (h : DecodesTop t bs v) : ∃ top, v.encodeTop = .ok top := by
  induction h with
  | @primitive p bs v e =>
    obtain ⟨made, label⟩ := type_of_decodeTopPrimitive e
    cases isLeaf made label.root with
    | payload _ top _ _ => exact ⟨_, top⟩
    | _ => exact ⟨_, rfl⟩
  | absent => exact ⟨[], rfl⟩
  | present _ ih => exact ih
  | absentOptional => exact ⟨[], rfl⟩
  | presentOptional _ ih => exact ih
  | list e =>
    exact exists_encodeNestedAll_iff.mpr (forall_of_readItemsToEnd (read_gives_encoding _) e)
  | @nested t bs v e =>
    obtain ⟨own, written⟩ := read_gives_encoding t (decodeNested_eq_ok_iff.mp e)
    exact exists_encodeTop_of_encodeNested written

/-- Decoded values are written again, whatever bytes they were decoded from. The nested form of one
decoded from its nested form is no longer than that and is decoded to the same value, and it is the
same one if no integers are of any size. -/
theorem reencode_of_decode (t : Ty) (bs : Bytes) (v : Value) :
    (decodeNested t bs = .ok v →
      ∃ own, v.encodeNested = .ok own ∧ own.length ≤ bs.length ∧ decodeNested t own = .ok v ∧
        ((t.All fun u => ¬u.isBig) → own = bs)) ∧
    (decodeTop t bs = .ok v → ∃ top, v.encodeTop = .ok top) := by
  refine ⟨fun e => ?_, fun e => (decodesTop_of_decodeTop e).exists_encodeTop⟩
  obtain ⟨form, few⟩ := decodeNested_iff_isForm.mp e
  obtain ⟨own, written, form, short, same⟩ := form.exists_encoding
  exact ⟨own, written, short, decodeNested_iff_isForm.mpr ⟨form, few⟩, same⟩

/-- A number in a list is read from two bytes and written as one, and what is written is read again.
-/
theorem reencode_of_decode_long_number :
    let t := Ty.list (.primitive .bigUint)
    let v := Value.list (.primitive .bigUint) [.bigUint 5]
    let bs := [0, 0, 0, 1, 0, 0, 0, 2, 0, 5]
    let own := [0, 0, 0, 1, 0, 0, 0, 1, 5]
    decodeNested t bs = .ok v ∧ v.encodeNested = .ok own ∧ decodeNested t own = .ok v ∧
      ∃ top, v.encodeTop = .ok top := by
  intro t v bs own
  obtain ⟨nested, -⟩ := reencode_of_decode t bs v
  obtain ⟨-, top⟩ := reencode_of_decode t [0, 0, 0, 2, 0, 5] v
  have decoded : decodeNested t bs = .ok v := by cbv
  have decodedTop : decodeTop t [0, 0, 0, 2, 0, 5] = .ok v := by cbv
  have written : v.encodeNested = .ok own := rfl
  obtain ⟨own', written', -, again, -⟩ := nested decoded
  obtain rfl : own = own' := Except.ok.inj (written.symm.trans written')
  exact ⟨decoded, written, again, top decodedTop⟩

end ContractCalls.Value

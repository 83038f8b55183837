import ContractCalls.Proofs.Codec.Labels
import ContractCalls.Proofs.Codec.Width
import ContractCalls.Proofs.Value.HasType

/-!
# The nested forms of a value

`IsForm` tells by rules which bytes denote which value of a type: one rule for each form of values,
with integers of any size in more bytes than they need. Reading takes such bytes from the front and
leaves what follows, and it refuses nothing else than too many items without bytes: this is
`read_eq_ok_iff`. What a reader takes and gives is then shown by induction on the rules.
-/

namespace ContractCalls.Value

open Reader (times maxEmptyItems takeByte_eq_ok_iff takeLength_eq_ok_iff checkCount_eq_ok_iff
  times_zero_eq_ok_iff times_succ_eq_ok_iff)

mutual

/-- Bytes denote a value of a type inside another value. -/
inductive IsForm : Ty → Bytes → Value → Prop
  | fixed {p : Primitive} {bs : Bytes} {v : Value} :
    p.fixedWidth?.isSome → IsLeaf p v → v.encodeNested = .ok bs → IsForm (.primitive p) bs v
  | payload {p : Primitive} {payload : Bytes} {v : Value} :
    p.fixedWidth? = none → payload.length < lengthBound → ofPayload p payload = .ok v →
      IsForm (.primitive p) (Bytes.ofNatFixed 4 payload.length ++ payload) v
  | absent {t : Ty} {ts : List Ty} : IsForm (.generic .option (t :: ts)) [0] (.option t none)
  | present {t : Ty} {ts : List Ty} {bs : Bytes} {v : Value} :
    IsForm t bs v → IsForm (.generic .option (t :: ts)) (1 :: bs) (.option t (some v))
  | list {t : Ty} {ts : List Ty} {bs : Bytes} {vs : List Value} :
    vs.length < lengthBound → AreForms (List.replicate vs.length t) bs vs →
      IsForm (.generic .list (t :: ts)) (Bytes.ofNatFixed 4 vs.length ++ bs) (.list t vs)
  | tuple {ts : List Ty} {bs : Bytes} {vs : List Value} :
    AreForms ts bs vs → IsForm (.tuple ts) bs (.tuple vs)
  | array {length : UInt64} {t : Ty} {bs : Bytes} {vs : List Value} :
    vs.length = length.toNat → AreForms (List.replicate vs.length t) bs vs →
      IsForm (.array length t) bs (.array t vs)
  | struct {name : String} {fields : List (Field Ty)} {bs : Bytes} {vs : List Value} :
    AreForms (fields.map (·.type)) bs vs →
      IsForm (.struct name fields) bs (.struct (.struct name fields) vs)
  | enum {name : String} {variants : List (Variant Ty)} {d : UInt8} {variant : Variant Ty}
      {bs : Bytes} {vs : List Value} :
    variants.find? (·.discriminant = d) = some variant →
      AreForms (variant.fields.map (·.type)) bs vs →
        IsForm (.enum name variants) (d :: bs) (.enum (.enum name variants) d vs)

/-- Bytes denote values of types, one after another. -/
inductive AreForms : List Ty → Bytes → List Value → Prop
  | nil : AreForms [] [] []
  | cons {t : Ty} {ts : List Ty} {b c : Bytes} {v : Value} {vs : List Value} :
    IsForm t b v → AreForms ts c vs → AreForms (t :: ts) (b ++ c) (v :: vs)

end

variable {t : Ty} {ts : List Ty} {p : Primitive} {v : Value} {vs : List Value}
  {bs front rest : Bytes} {n : Nat}

/-! ## Bytes that are read are a form -/

/-- A fixed-width value that is read is written as the bytes it was read from. -/
lemma readPrimitive_of_fixedWidth (sized : p.fixedWidth?.isSome)
    (e : readPrimitive p bs = (.ok v, rest)) :
    ∃ front, bs = front ++ rest ∧ IsLeaf p v ∧ v.encodeNested = .ok front := by
  cases p with
  | int t =>
    simp only [readPrimitive, Reader.bind_eq_ok_iff, Reader.take_eq_ok_iff,
      Reader.pure_eq_ok_iff] at e
    obtain ⟨⟨front, size⟩, _, rfl, rfl, rfl⟩ := e
    refine ⟨front, rfl, .int t _, ?_⟩
    rw [encodeNested, Fixed.toBytes_ofBytes size]
  | bool =>
    simp only [readPrimitive, Reader.bind_eq_ok_iff, takeByte_eq_ok_iff,
      Reader.ofExcept_eq_ok_iff] at e
    obtain ⟨b, _, rfl, made, rfl⟩ := e
    refine ⟨[b], rfl, ?_⟩
    unfold boolOfByte at made
    split_ifs at made with zero one
    · obtain rfl := Except.ok.inj made
      exact ⟨.bool false, by simp [encodeNested, zero]⟩
    · obtain rfl := Except.ok.inj made
      exact ⟨.bool true, by simp [encodeNested, one]⟩
  | address =>
    simp only [readPrimitive, Reader.bind_eq_ok_iff, Reader.take_eq_ok_iff,
      Reader.pure_eq_ok_iff] at e
    obtain ⟨⟨front, size⟩, _, rfl, rfl, rfl⟩ := e
    exact ⟨front, rfl, .address _, rfl⟩
  | hash =>
    simp only [readPrimitive, Reader.bind_eq_ok_iff, Reader.take_eq_ok_iff,
      Reader.pure_eq_ok_iff] at e
    obtain ⟨⟨front, size⟩, _, rfl, rfl, rfl⟩ := e
    exact ⟨front, rfl, .hash _, rfl⟩
  | _ => simp [Primitive.fixedWidth?] at sized

/-- No variant is read without one that has the discriminant. -/
lemma readVariant_eq_fail {owner : Ty} {d : UInt8} {variants : List (Variant Ty)}
    (missing : variants.find? (·.discriminant = d) = none) :
    readVariant owner d variants = Reader.fail (.invalidDiscriminant owner d) := by
  induction variants with
  | nil => rfl
  | cons variant variants ih =>
    rw [List.find?_eq_none] at missing
    simp only [List.forall_mem_cons, decide_eq_true_eq] at missing
    rw [readVariant, if_neg missing.1]
    exact ih (List.find?_eq_none.mpr (by simpa using missing.2))

/-- The bytes that a reader of a type takes are a form of the value that it gives, which has few
items without bytes. -/
def ReadsForms (t : Ty) : Prop :=
  ∀ ⦃bs v rest⦄, read t bs = (.ok v, rest) →
    ∃ front, bs = front ++ rest ∧ IsForm t front v ∧ v.All HasFewEmptyItems

/-- Bytes that are read as several values are their forms, one after another. -/
lemma areForms_of_readAll (h : ∀ t ∈ ts, ReadsForms t) (e : readAll ts bs = (.ok vs, rest)) :
    ∃ front, bs = front ++ rest ∧ AreForms ts front vs ∧ ∀ v ∈ vs, v.All HasFewEmptyItems := by
  induction ts generalizing bs vs with
  | nil =>
    obtain ⟨rfl, rfl⟩ := Reader.pure_eq_ok_iff.mp e
    exact ⟨[], rfl, .nil, by simp⟩
  | cons t ts ih =>
    simp only [List.forall_mem_cons] at h
    simp only [readAll, Reader.bind_eq_ok_iff, Reader.pure_eq_ok_iff] at e
    obtain ⟨v, mid, first, vs, _, others, rfl, rfl⟩ := e
    obtain ⟨b, rfl, form, few⟩ := h.1 first
    obtain ⟨c, rfl, forms, fews⟩ := ih h.2 others
    refine ⟨b ++ c, (List.append_assoc b c _).symm, .cons form forms, ?_⟩
    exact List.forall_mem_cons.mpr ⟨few, fews⟩

/-- Reading a type so many times is reading so many types that are the same. -/
lemma times_read (t : Ty) (n : Nat) : times (read t) n = readAll (List.replicate n t) := by
  induction n with
  | zero => rfl
  | succ n ih => rw [times, ih, List.replicate_succ, readAll]

/-- There are as many values as types. -/
lemma AreForms.length_eq (h : AreForms ts bs vs) : vs.length = ts.length := by
  induction ts generalizing bs vs with
  | nil => cases h; rfl
  | cons t ts ih =>
    cases h with
    | cons _ forms => rw [List.length_cons, List.length_cons, ih forms]

/-- Items that are read behind a count are a form, and as many as were counted. -/
lemma areForms_of_times (h : ReadsForms t) (e : times (read t) n bs = (.ok vs, rest)) :
    ∃ front, bs = front ++ rest ∧ vs.length = n ∧
      AreForms (List.replicate vs.length t) front vs ∧ ∀ v ∈ vs, v.All HasFewEmptyItems := by
  rw [times_read] at e
  have each : ∀ u ∈ List.replicate n t, ReadsForms u := by
    intro u hu
    rwa [List.eq_of_mem_replicate hu]
  obtain ⟨front, rfl, forms, fews⟩ := areForms_of_readAll each e
  have size : vs.length = n := by simpa using forms.length_eq
  exact ⟨front, rfl, size, size.symm ▸ forms, fews⟩

/-- A count of items without bytes that passes the check is within the limit. -/
lemma le_of_checkCount {owner : Ty} (e : Reader.checkCount owner t n bs = (.ok (), rest))
    (zero : t.minWidth = 0) : n ≤ maxEmptyItems := by
  have passed := (checkCount_eq_ok_iff.mp e).1
  rwa [if_pos zero] at passed

/-- A value that was made for a primitive type holds no items without bytes. -/
lemma fewEmptyItems_of_type (made : v.type = .primitive p) (label : v.IsWellLabelled) :
    v.All HasFewEmptyItems := by
  refine .leaf ?_ (parts_eq_nil_of_type made label)
  cases v <;> simp_all [type, HasFewEmptyItems]

/-- Only the nested forms of values are read. -/
lemma readsForms (t : Ty) : ReadsForms t := by
  intro bs v rest e
  induction t generalizing bs v rest with
  | primitive p =>
    obtain ⟨made, label⟩ := readPrimitive_gives p e
    have few := fewEmptyItems_of_type made label.root
    cases sizeless : p.fixedWidth? with
    | some width =>
      have sized : p.fixedWidth?.isSome := by rw [sizeless]; rfl
      obtain ⟨front, rfl, leaf, written⟩ := readPrimitive_of_fixedWidth sized e
      exact ⟨front, rfl, .fixed sized leaf written, few⟩
    | none =>
      rw [read, readPrimitive_eq sizeless, Reader.bind_eq_ok_iff] at e
      obtain ⟨payload, _, taken, made⟩ := e
      obtain ⟨small, rfl⟩ := Reader.takePrefixed_eq_ok_iff.mp taken
      obtain ⟨content, rfl⟩ := Reader.ofExcept_eq_ok_iff.mp made
      exact ⟨_, rfl, .payload sizeless small content, few⟩
  | generic g params ih =>
    cases g with
    | option =>
      cases params with
      | nil => exact absurd e Reader.fail_ne_ok
      | cons p ps =>
        simp only [read, readOption, Reader.bind_eq_ok_iff, takeByte_eq_ok_iff,
          Reader.pure_eq_ok_iff] at e
        obtain ⟨value, _, ⟨mark, _, rfl, content⟩, rfl, rfl⟩ := e
        split_ifs at content with zero one
        · obtain ⟨rfl, rfl⟩ := Reader.pure_eq_ok_iff.mp content
          exact ⟨[mark], rfl, zero ▸ .absent, .leaf trivial rfl⟩
        · simp only [Reader.bind_eq_ok_iff, Reader.pure_eq_ok_iff] at content
          obtain ⟨u, _, inner, rfl, rfl⟩ := content
          obtain ⟨front, rfl, form, few⟩ := ih p (by simp) inner
          exact ⟨mark :: front, rfl, one ▸ .present form,
            .intro trivial (List.forall_mem_singleton.mpr few)⟩
        · exact absurd content Reader.fail_ne_ok
    | list =>
      cases params with
      | nil => exact absurd e Reader.fail_ne_ok
      | cons p ps =>
        simp only [read, Reader.bind_eq_ok_iff, Reader.pure_eq_ok_iff] at e
        obtain ⟨count, _, length, _, _, counted, vs, _, items, rfl, rfl⟩ := e
        obtain ⟨small, rfl⟩ := takeLength_eq_ok_iff.mp length
        obtain ⟨-, rfl⟩ := checkCount_eq_ok_iff.mp counted
        obtain ⟨front, rfl, rfl, forms, fews⟩ := areForms_of_times (ih p (by simp)) items
        refine ⟨Bytes.ofNatFixed 4 vs.length ++ front, (List.append_assoc _ _ _).symm, ?_, ?_⟩
        · exact .list small forms
        · exact .intro (fun zero => le_of_checkCount counted zero) fews
    | tuple =>
      simp only [read, Reader.bind_eq_ok_iff, Reader.pure_eq_ok_iff] at e
      obtain ⟨vs, _, items, rfl, rfl⟩ := e
      obtain ⟨front, rfl, forms, fews⟩ := areForms_of_readAll (fun t ht _ _ _ e => ih t ht e) items
      exact ⟨front, rfl, .tuple forms, .intro trivial fews⟩
    | optional => cases params <;> exact absurd e Reader.fail_ne_ok
    | variadic => cases params <;> exact absurd e Reader.fail_ne_ok
  | array length element ih =>
    simp only [read, Reader.bind_eq_ok_iff, Reader.pure_eq_ok_iff] at e
    obtain ⟨_, _, counted, vs, _, items, rfl, rfl⟩ := e
    obtain ⟨-, rfl⟩ := checkCount_eq_ok_iff.mp counted
    obtain ⟨front, rfl, size, forms, fews⟩ := areForms_of_times (fun _ _ _ e => ih e) items
    exact ⟨front, rfl, .array size forms,
      .intro (fun zero => size ▸ le_of_checkCount counted zero) fews⟩
  | struct name fields ih =>
    simp only [read, readFields_eq, Reader.bind_eq_ok_iff, Reader.pure_eq_ok_iff] at e
    obtain ⟨vs, _, items, rfl, rfl⟩ := e
    have each : ∀ t ∈ fields.map (·.type), ReadsForms t := by
      intro t ht
      obtain ⟨field, hf, rfl⟩ := List.mem_map.mp ht
      exact fun _ _ _ e => ih field hf e
    obtain ⟨front, rfl, forms, fews⟩ := areForms_of_readAll each items
    exact ⟨front, rfl, .struct forms, .intro trivial fews⟩
  | enum name variants ih =>
    simp only [read, Reader.bind_eq_ok_iff, takeByte_eq_ok_iff, Reader.pure_eq_ok_iff] at e
    obtain ⟨d, _, rfl, vs, _, items, rfl, rfl⟩ := e
    cases found : variants.find? (·.discriminant = d) with
    | none =>
      rw [readVariant_eq_fail found] at items
      exact absurd items Reader.fail_ne_ok
    | some variant =>
      rw [readVariant_eq_of_find? found] at items
      have each : ∀ t ∈ variant.fields.map (·.type), ReadsForms t := by
        intro t ht
        obtain ⟨field, hf, rfl⟩ := List.mem_map.mp ht
        exact fun _ _ _ e => ih variant (List.mem_of_find?_eq_some found) field hf e
      obtain ⟨front, rfl, forms, fews⟩ := areForms_of_readAll each items
      exact ⟨d :: front, rfl, .enum found forms, .intro trivial fews⟩

/-! ## A form fills its type -/

/-- A form takes at least the exact least size of its type, and nothing if that is zero. -/
theorem IsForm.fills (h : IsForm t bs v) : Fills t.exactWidth bs := by
  induction h using IsForm.rec (motive_2 := fun ts bs _ _ => Fills (Ty.exactWidths ts) bs) with
  | fixed sized leaf written => exact leaf.fills written
  | payload sizeless small content =>
    exact .of_pos (by simp [Ty.exactWidth, sizeless]) (by simp [Ty.exactWidth, sizeless])
  | absent => exact .of_pos (by simp [Ty.exactWidth]) (by simp [Ty.exactWidth])
  | present form ih => exact .of_pos (by simp [Ty.exactWidth]) (by simp [Ty.exactWidth])
  | list small forms ih => exact .of_pos (by simp [Ty.exactWidth]) (by simp [Ty.exactWidth])
  | tuple forms ih => exact ih
  | array size forms ih => rwa [Ty.exactWidths_replicate, size] at ih
  | struct forms ih => rwa [Ty.exactWidth, Ty.exactWidthFields_eq]
  | enum found forms ih => exact .of_pos (by simp [Ty.exactWidth]) (by simp [Ty.exactWidth])
  | nil => exact .nil
  | cons form forms ih ihs => exact ih.append ihs

/-- A form takes at least the least size of its type. -/
lemma IsForm.minWidth_le_length (h : IsForm t bs v) : t.minWidth ≤ bs.length :=
  t.minWidth_le_exactWidth.trans h.fills.1

/-- Several items take as many bytes as the exact least size of their type says, so many times. -/
lemma AreForms.fills_items (h : AreForms (List.replicate n t) bs vs) :
    Fills (n * t.exactWidth) bs := by
  rw [← Ty.exactWidths_replicate]
  generalize List.replicate n t = ts at h
  induction ts generalizing bs vs with
  | nil => cases h; exact .nil
  | cons t ts ih =>
    cases h with
    | cons form forms => exact form.fills.append (ih forms)

/-- Several items take at least as many bytes as the least size of their type says, so many times. -/
lemma AreForms.minWidth_le_length (h : AreForms (List.replicate n t) bs vs) :
    n * t.minWidth ≤ bs.length :=
  (Nat.mul_le_mul_left n t.minWidth_le_exactWidth).trans h.fills_items.1

/-! ## A form is read -/

/-- As many bytes as are asked for are taken from the front. -/
lemma take_append (t : Ty) {n : Nat} (size : bs.length = n) (s : Bytes) :
    Reader.take t n (bs ++ s) = (.ok ⟨bs, size⟩, s) :=
  Reader.take_eq_ok_iff.mpr rfl

/-- A value of a primitive type is read from its nested form. -/
lemma IsLeaf.read_append (h : IsLeaf p v) (e : v.encodeNested = .ok bs)
    (s : Bytes) : readPrimitive p (bs ++ s) = (.ok v, s) := by
  cases h with
  | int t n =>
    obtain rfl : n.toBytes = bs := by simpa [encodeNested] using e
    have taken := take_append (.primitive (.int t)) n.length_toBytes s
    simp only [readPrimitive, Reader.bind_eq_ok_iff]
    exact ⟨_, _, taken, by simp [Fixed.ofBytes_toBytes]⟩
  | bool b =>
    obtain rfl : [if b then 1 else 0] = bs := by simpa [encodeNested] using e
    simp only [readPrimitive, Reader.bind_eq_ok_iff]
    exact ⟨_, _, takeByte_eq_ok_iff.mpr rfl, by cases b <;> simp [boolOfByte]⟩
  | address key =>
    obtain rfl : key.bytes = bs := by simpa [encodeNested] using e
    simp only [readPrimitive, Reader.bind_eq_ok_iff]
    exact ⟨_, _, take_append (.primitive .address) key.length_bytes s, rfl⟩
  | hash key =>
    obtain rfl : key.bytes = bs := by simpa [encodeNested] using e
    simp only [readPrimitive, Reader.bind_eq_ok_iff]
    exact ⟨_, _, take_append (.primitive .hash) key.length_bytes s, rfl⟩
  | payload sizeless _ nested content =>
    obtain ⟨small, rfl⟩ := encodePrefixed_eq_ok_iff.mp (nested ▸ e)
    rw [readPrimitive_eq sizeless, Reader.bind_eq_ok_iff]
    exact ⟨_, _, Reader.takePrefixed_eq_ok_iff.mpr ⟨small, rfl⟩, by simp [content]⟩

/-- The count of items passes the check if there are few that take no bytes. -/
lemma checkCount_append (owner : Ty) (forms : AreForms (List.replicate n t) bs vs)
    (few : t.minWidth = 0 → n ≤ maxEmptyItems) (s : Bytes) :
    Reader.checkCount owner t n (bs ++ s) = (.ok (), bs ++ s) := by
  refine checkCount_eq_ok_iff.mpr ⟨?_, rfl⟩
  split_ifs with zero
  · exact few zero
  · -- Items that take bytes fill at least what the check asks for.
    have filled := (Ty.saturate_le _).trans forms.minWidth_le_length
    rw [List.length_append]
    omega

/-- A form at the front of bytes is read, and what follows is left, unless the value holds more
items without bytes than are allowed. -/
theorem IsForm.read_append (h : IsForm t bs v) (few : v.All HasFewEmptyItems) (s : Bytes) :
    read t (bs ++ s) = (.ok v, s) := by
  -- The second motive reads values one after another, each in front of the others.
  induction h using IsForm.rec
    (motive_2 := fun ts bs vs _ => (∀ v ∈ vs, v.All HasFewEmptyItems) →
      ∀ s, readAll ts (bs ++ s) = (.ok vs, s)) generalizing s with
  | fixed sized leaf written => exact leaf.read_append written s
  | payload sizeless small content =>
    rw [read, readPrimitive_eq sizeless, Reader.bind_eq_ok_iff]
    exact ⟨_, _, Reader.takePrefixed_eq_ok_iff.mpr ⟨small, rfl⟩, by simp [content]⟩
  | absent => simp [read, readOption, Reader.bind_eq_ok_iff, takeByte_eq_ok_iff]
  | present form ih =>
    have inner := ih (few.part (by simp [parts])) s
    simp [read, readOption, Reader.bind_eq_ok_iff, takeByte_eq_ok_iff, inner]
  | @list t ts bs vs small forms ih =>
    have counted := takeLength_eq_ok_iff (t := .generic .list (t :: ts)).mpr
      ⟨small, List.append_assoc _ bs s⟩
    have checked := checkCount_append (.generic .list (t :: ts)) forms few.root s
    have items := ih (fun v hv => few.part hv) s
    rw [← times_read] at items
    simp only [read, Reader.bind_eq_ok_iff]
    exact ⟨_, _, counted, _, _, checked, _, _, items, rfl⟩
  | tuple forms ih =>
    have items := ih (fun v hv => few.part hv) s
    simp only [read, Reader.bind_eq_ok_iff]
    exact ⟨_, _, items, rfl⟩
  | @array length t bs vs size forms ih =>
    have checked := checkCount_append (.array length t) forms few.root s
    have items := ih (fun v hv => few.part hv) s
    rw [← times_read] at items
    rw [size] at checked items
    simp only [read, Reader.bind_eq_ok_iff]
    exact ⟨_, _, checked, _, _, items, rfl⟩
  | struct forms ih =>
    have items := ih (fun v hv => few.part hv) s
    simp only [read, readFields_eq, Reader.bind_eq_ok_iff]
    exact ⟨_, _, items, rfl⟩
  | enum found forms ih =>
    have items := ih (fun v hv => few.part hv) s
    rw [← readVariant_eq_of_find? found] at items
    simp only [read, Reader.bind_eq_ok_iff]
    exact ⟨_, _, takeByte_eq_ok_iff.mpr rfl, _, _, items, rfl⟩
  | nil => rfl
  | @cons t ts b c v vs form forms ih ihs few s =>
    simp only [List.forall_mem_cons] at few
    have first := ih few.1 (c ++ s)
    have others := ihs few.2 s
    simp only [readAll, Reader.bind_eq_ok_iff, List.append_assoc]
    exact ⟨_, _, first, _, _, others, rfl⟩

/-- A value is read exactly from its forms, whatever follows them, if it has few items without
bytes. -/
theorem read_eq_ok_iff :
    read t bs = (.ok v, rest) ↔
      ∃ front, bs = front ++ rest ∧ IsForm t front v ∧ v.All HasFewEmptyItems := by
  refine ⟨fun e => readsForms t e, fun h => ?_⟩
  obtain ⟨front, rfl, form, few⟩ := h
  exact form.read_append few rest

/-- Bytes are decoded to a value exactly if they are a form of it and it has few items without
bytes. -/
theorem decodeNested_iff_isForm :
    decodeNested t bs = .ok v ↔ IsForm t bs v ∧ v.All HasFewEmptyItems := by
  rw [decodeNested_eq_ok_iff, read_eq_ok_iff]
  simp

/-! ## What is written is a form -/

/-- Items that are written one after another are forms if each of them is. -/
lemma areForms_replicate
    (h : ∀ v ∈ vs, ∀ bs, v.encodeNested = .ok bs → IsForm t bs v)
    (e : encodeNestedAll vs = .ok bs) : AreForms (List.replicate vs.length t) bs vs := by
  induction vs generalizing bs with
  | nil =>
    obtain rfl := encodeNestedAll_nil_eq_ok_iff.mp e
    exact .nil
  | cons v vs ih =>
    obtain ⟨b, c, hb, hc, rfl⟩ := encodeNestedAll_cons_eq_ok_iff.mp e
    simp only [List.forall_mem_cons] at h
    exact .cons (h.1 b hb) (ih h.2 hc)

/-- The bytes that a value of a type is written as are a form of it. -/
theorem HasType.isForm (h : HasType t v) (e : v.encodeNested = .ok bs) : IsForm t bs v := by
  induction h using HasType.rec
    (motive_2 := fun ts vs _ => ∀ bs, encodeNestedAll vs = .ok bs → AreForms ts bs vs)
    generalizing bs with
  | @primitive p v made label =>
    have leaf := isLeaf made label
    cases sizeless : p.fixedWidth? with
    | some width => exact .fixed (by simp [sizeless]) leaf e
    | none =>
      cases leaf with
      | payload _ top nested content =>
        obtain ⟨small, rfl⟩ := encodePrefixed_eq_ok_iff.mp (nested ▸ e)
        exact .payload sizeless small content
      | _ => simp [Primitive.fixedWidth?] at sizeless
  | absent =>
    obtain rfl : [0] = bs := by simpa [encodeNested] using e
    exact .absent
  | present h ih =>
    obtain ⟨b, hb, rfl⟩ : ∃ b, _ ∧ 1 :: b = bs := by simpa [encodeNested, map_eq_ok_iff] using e
    exact .present (ih hb)
  | absentOptional => simp [encodeNested] at e
  | presentOptional h ih => simp [encodeNested] at e
  | list h ih =>
    obtain ⟨count, b, hcount, hb, rfl⟩ := encodeNested_eq_ok_iff.mp e
    obtain ⟨small, rfl⟩ := encodeLength_eq_ok_iff.mp hcount
    exact .list small (areForms_replicate (fun v hv bs e => ih v hv e) hb)
  | variadic h ih => simp [encodeNested] at e
  | tuple h ih => exact .tuple (ih bs e)
  | array size h ih => exact .array size (areForms_replicate (fun v hv bs e => ih v hv e) e)
  | struct h ih => exact .struct (ih bs e)
  | enum found h ih =>
    obtain ⟨b, hb, rfl⟩ : ∃ b, _ ∧ _ :: b = bs := by simpa [encodeNested, map_eq_ok_iff] using e
    exact .enum found (ih b hb)
  | nil =>
    obtain rfl := encodeNestedAll_nil_eq_ok_iff.mp ‹_›
    exact .nil
  | cons h hs ih ihs =>
    obtain ⟨b, c, hb, hc, rfl⟩ := encodeNestedAll_cons_eq_ok_iff.mp ‹_›
    exact .cons (ih hb) (ihs c hc)

end ContractCalls.Value

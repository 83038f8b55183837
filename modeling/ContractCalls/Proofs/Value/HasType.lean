import ContractCalls.Proofs.Ty.Nodes
import ContractCalls.Proofs.Value.Conforms

/-!
# Values of a type

`HasType` relates a type to its values by one rule for each form of values. It is stricter than
`conforms`, which asks of a value of a primitive type only that it carries this type, and a struct
or an enum may carry any: by `hasType_iff` a value has a type if it conforms to the type and every
struct and enum in it carries a type of its own kind.
-/

namespace ContractCalls.Value

mutual

/-- A value is one of the values of a type, at every depth. -/
inductive HasType : Ty → Value → Prop
  | primitive {p : Primitive} {v : Value} :
    v.type = .primitive p → v.IsWellLabelled → HasType (.primitive p) v
  | absent {t : Ty} : HasType (.option t) (.option t none)
  | present {t : Ty} {v : Value} : HasType t v → HasType (.option t) (.option t (some v))
  | absentOptional {t : Ty} : HasType (.optional t) (.optional t none)
  | presentOptional {t : Ty} {v : Value} :
    HasType t v → HasType (.optional t) (.optional t (some v))
  | list {t : Ty} {vs : List Value} : (∀ v ∈ vs, HasType t v) → HasType (.list t) (.list t vs)
  | variadic {t : Ty} {vs : List Value} :
    (∀ v ∈ vs, HasType t v) → HasType (.variadic t) (.variadic t vs)
  | tuple {ts : List Ty} {vs : List Value} : HaveTypes ts vs → HasType (.tuple ts) (.tuple vs)
  | array {length : UInt64} {t : Ty} {vs : List Value} :
    vs.length = length.toNat → (∀ v ∈ vs, HasType t v) → HasType (.array length t) (.array t vs)
  | struct {name : String} {fields : List (Field Ty)} {vs : List Value} :
    HaveTypes (fields.map (·.type)) vs →
      HasType (.struct name fields) (.struct (.struct name fields) vs)
  | enum {name : String} {variants : List (Variant Ty)} {d : UInt8} {variant : Variant Ty}
      {vs : List Value} :
    variants.find? (·.discriminant = d) = some variant →
      HaveTypes (variant.fields.map (·.type)) vs →
        HasType (.enum name variants) (.enum (.enum name variants) d vs)

/-- Values are values of types, one by one. -/
inductive HaveTypes : List Ty → List Value → Prop
  | nil : HaveTypes [] []
  | cons {t : Ty} {ts : List Ty} {v : Value} {vs : List Value} :
    HasType t v → HaveTypes ts vs → HaveTypes (t :: ts) (v :: vs)

end

variable {t : Ty} {ts : List Ty} {v : Value} {vs : List Value}

/-- A value of a type conforms to it, and all types in it are of the right kind. -/
lemma HasType.conforms_and_wellLabelled (h : HasType t v) :
    conforms t v ∧ v.All IsWellLabelled := by
  -- The second motive says the same of values and types one by one.
  induction h using HasType.rec
    (motive_2 := fun ts vs _ => conformsAll ts vs ∧ ∀ v ∈ vs, v.All IsWellLabelled) with
  | @primitive p v made label =>
    exact ⟨conforms_primitive_iff.mpr made, .leaf label (parts_eq_nil_of_type made label)⟩
  | absent => exact ⟨by simp [conforms], .leaf trivial rfl⟩
  | present h ih =>
    exact ⟨by simpa [conforms] using ih.1, .intro trivial (by simpa [parts] using ih.2)⟩
  | absentOptional => exact ⟨by simp [conforms], .leaf trivial rfl⟩
  | presentOptional h ih =>
    exact ⟨by simpa [conforms] using ih.1, .intro trivial (by simpa [parts] using ih.2)⟩
  | list h ih =>
    exact ⟨by simpa [conforms] using fun v hv => (ih v hv).1,
      .intro trivial fun v hv => (ih v hv).2⟩
  | variadic h ih =>
    exact ⟨by simpa [conforms] using fun v hv => (ih v hv).1,
      .intro trivial fun v hv => (ih v hv).2⟩
  | tuple h ih => exact ⟨by simpa [conforms] using ih.1, .intro trivial ih.2⟩
  | array size h ih =>
    exact ⟨conforms_array_iff.mpr ⟨_, rfl, size, fun v hv => (ih v hv).1⟩,
      .intro trivial fun v hv => (ih v hv).2⟩
  | struct h ih =>
    exact ⟨conforms_struct_iff.mpr ⟨_, rfl, ih.1⟩, .intro ⟨_, _, rfl⟩ ih.2⟩
  | enum found h ih =>
    exact ⟨conforms_enum_iff.mpr ⟨_, _, _, rfl, found, ih.1⟩, .intro ⟨_, _, rfl⟩ ih.2⟩
  | nil => simp [conformsAll]
  | cons h hs ih ihs => simpa [conformsAll, ih] using ihs

/-- Values are values of types if they conform to them and each has the type it conforms to. -/
lemma haveTypes_of_forall (hs : ∀ t ∈ ts, ∀ v, conforms t v → v.All IsWellLabelled → HasType t v)
    (c : conformsAll ts vs) (label : ∀ v ∈ vs, v.All IsWellLabelled) : HaveTypes ts vs := by
  rw [conformsAll_iff] at c
  induction c with
  | nil => exact .nil
  | @cons t v ts vs c _ ih =>
    simp only [List.forall_mem_cons] at hs label
    exact .cons (hs.1 v c label.1) (ih hs.2 label.2)

/-- A value has a type exactly if it conforms to it and all types in it are of the right kind. -/
lemma hasType_iff : HasType t v ↔ conforms t v ∧ v.All IsWellLabelled := by
  refine ⟨HasType.conforms_and_wellLabelled, fun h => ?_⟩
  obtain ⟨c, label⟩ := h
  induction t generalizing v with
  | primitive p => exact .primitive (conforms_primitive_iff.mp c) label.root
  | generic g params ih =>
    cases g with
    | option =>
      obtain ⟨p, value, rfl, rfl, below⟩ := (conforms_mayBeAbsent_iff .option).mp c
      cases value with
      | none => exact .absent
      | some v => exact .present (ih p (by simp) (below v rfl) (label.part (by simp [parts])))
    | optional =>
      obtain ⟨p, value, rfl, rfl, below⟩ := (conforms_mayBeAbsent_iff .optional).mp c
      cases value with
      | none => exact .absentOptional
      | some v =>
        exact .presentOptional (ih p (by simp) (below v rfl) (label.part (by simp [parts])))
    | list =>
      obtain ⟨p, items, rfl, rfl, below⟩ := (conforms_hasItems_iff .list).mp c
      exact .list fun v hv => ih p (by simp) (below v hv) (label.part hv)
    | variadic =>
      obtain ⟨p, items, rfl, rfl, below⟩ := (conforms_hasItems_iff .variadic).mp c
      exact .variadic fun v hv => ih p (by simp) (below v hv) (label.part hv)
    | tuple =>
      obtain ⟨items, rfl, below⟩ := conforms_tuple_iff.mp c
      exact .tuple (haveTypes_of_forall (fun t ht v => ih t ht) below fun v hv => label.part hv)
  | array length t ih =>
    obtain ⟨items, rfl, size, below⟩ := conforms_array_iff.mp c
    exact .array size fun v hv => ih (below v hv) (label.part hv)
  | struct name fields ih =>
    obtain ⟨values, rfl, below⟩ := conforms_struct_iff.mp c
    refine .struct (haveTypes_of_forall ?_ below fun v hv => label.part hv)
    intro t ht v
    obtain ⟨field, hf, rfl⟩ := List.mem_map.mp ht
    exact ih field hf
  | enum name variants ih =>
    obtain ⟨d, values, variant, rfl, found, below⟩ := conforms_enum_iff.mp c
    refine .enum found (haveTypes_of_forall ?_ below fun v hv => label.part hv)
    intro t ht v
    obtain ⟨field, hf, rfl⟩ := List.mem_map.mp ht
    exact ih variant (List.mem_of_find?_eq_some found) field hf

/-- Each of the values is of one of the types. -/
lemma HaveTypes.exists_of_mem (h : HaveTypes ts vs) (hv : v ∈ vs) : ∃ t ∈ ts, HasType t v := by
  induction ts generalizing vs with
  | nil =>
    cases h
    simp at hv
  | cons t ts ih =>
    cases h with
    | cons first others =>
      rcases List.mem_cons.mp hv with rfl | below
      · exact ⟨t, by simp, first⟩
      · obtain ⟨u, hu, typed⟩ := ih others below
        exact ⟨u, List.mem_cons_of_mem t hu, typed⟩

/-- A part of a value of a type is a value of a part of the type. -/
lemma HasType.exists_part {u : Value} (h : HasType t v) (hu : u ∈ v.parts) :
    ∃ s ∈ t.parts, HasType s u := by
  cases h with
  | @primitive p v made label =>
    rw [parts_eq_nil_of_type made label] at hu
    exact absurd hu List.not_mem_nil
  | absent => simp [parts] at hu
  | @present t v inner =>
    obtain rfl : u = v := by simpa [parts] using hu
    exact ⟨t, by simp [Ty.parts], inner⟩
  | absentOptional => simp [parts] at hu
  | @presentOptional t v inner =>
    obtain rfl : u = v := by simpa [parts] using hu
    exact ⟨t, by simp [Ty.parts], inner⟩
  | @list t vs items => exact ⟨t, by simp [Ty.parts], items u hu⟩
  | @variadic t vs items => exact ⟨t, by simp [Ty.parts], items u hu⟩
  | tuple items => exact items.exists_of_mem hu
  | @array length t vs size items => exact ⟨t, by simp [Ty.parts], items u hu⟩
  | struct values => exact values.exists_of_mem hu
  | @enum name variants d variant vs found values =>
    obtain ⟨s, hs, typed⟩ := values.exists_of_mem hu
    have member := List.mem_of_find?_eq_some found
    exact ⟨s, List.mem_flatMap.mpr ⟨variant, member, hs⟩, typed⟩

end ContractCalls.Value

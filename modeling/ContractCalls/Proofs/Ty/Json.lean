import ContractCalls.Proofs.Json.Reading
import ContractCalls.Proofs.Json.Record
import ContractCalls.Proofs.Ty.Nodes
import ContractCalls.Ty.Json

/-!
# Types in JSON, written and read

A type is read back from its record (`ofJson?_toJson`), and from the text of the record if that is
not too deep (`parseRecord?_text`). The induction is over the type: each type inside stands deeper
in the record, so the reader has enough depth left for it.
-/

namespace ContractCalls.Ty

open Json

/-! ## Fields and variants -/

/-- The parts of the record of a field. -/
def fieldSlots (field : Field Ty) : List (String × Option Json) :=
  [("name", some (.string field.name)), ("type", some field.type.toJson)]

/-- The record of a field. -/
def writeField (field : Field Ty) : Json :=
  .object (given (fieldSlots field))

/-- The parts of the record of a variant. -/
def variantSlots (variant : Variant Ty) : List (String × Option Json) :=
  [("discriminant", some (.ofNat variant.discriminant.toNat)),
    ("name", some (.string variant.name)), ("fields", nonempty? writeField variant.fields)]

/-- The record of a variant. -/
def writeVariant (variant : Variant Ty) : Json :=
  .object (given (variantSlots variant))

/-- Types are written one by one. -/
lemma toJsonAll_eq (ts : List Ty) : toJsonAll ts = ts.map toJson := by
  induction ts with
  | nil => rfl
  | cons t ts ih => rw [toJsonAll, ih, List.map_cons]

/-- Fields are written one by one. -/
lemma toJsonFields_eq (fields : List (Field Ty)) :
    toJsonFields fields = fields.map writeField := by
  induction fields with
  | nil => rfl
  | cons field fields ih =>
    rw [toJsonFields, ih, List.map_cons]
    rfl

/-- Variants are written one by one. -/
lemma toJsonVariants_eq (variants : List (Variant Ty)) :
    toJsonVariants variants = variants.map writeVariant := by
  induction variants with
  | nil => rfl
  | cons variant variants ih =>
    obtain ⟨discriminant, name, fields⟩ := variant
    rw [toJsonVariants, ih, List.map_cons, toJsonFields_eq]
    cases fields <;> rfl

section

variable {read : Json → Option Ty}

/-- A field is read back from its record if its type is. -/
lemma readField?_writeField {field : Field Ty}
    (h : read field.type.toJson = some field.type) :
    readField? read (writeField field) = some field := by
  have record : (writeField field).record? fieldShape.names = some (given (fieldSlots field)) :=
    record?_given rfl (by decide)
  rw [readField?, record]
  simp [fieldSlots, Record.required, h]

/-- A variant is read back from its record if the types of its fields are. -/
lemma readVariant?_writeVariant {variant : Variant Ty}
    (h : ∀ field ∈ variant.fields, read field.type.toJson = some field.type) :
    readVariant? read (writeVariant variant) = some variant := by
  have record : (writeVariant variant).record? ["discriminant", "name", "fields"] =
      some (given (variantSlots variant)) := record?_given rfl (by decide)
  have fields : (given (variantSlots variant)).withDefault "fields" (toList? (readField? read)) [] =
      some variant.fields := by
    have found : find? "fields" (given (variantSlots variant)) =
        nonempty? writeField variant.fields := by simp [variantSlots]
    refine Record.withDefault_nonempty?_eq_some found fun field member => ?_
    exact readField?_writeField (h field member)
  rw [readVariant?, record]
  simp only [Option.bind_eq_bind, Option.bind_some, fields]
  simp [variantSlots, Record.required]

end

/-! ## Types -/

/-- The kind of a type, as it is tagged. -/
def kind : Ty → String
  | .primitive _ => "primitive"
  | .generic _ _ => "generic"
  | .array _ _ => "array"
  | .struct _ _ => "struct"
  | .enum _ _ => "enum"

/-- The parts of the record of a type behind its tag. -/
def slots : Ty → List (String × Option Json)
  | .primitive p => [("name", some (.string p.tag))]
  | .generic g params =>
    [("name", some (.string g.tag)), ("type_parameters", some (.array (params.map toJson)))]
  | .array length element =>
    [("length", some (.ofNat length.toNat)), ("element", some element.toJson)]
  | .struct name fields =>
    [("name", some (.string name)), ("fields", some (.array (fields.map writeField)))]
  | .enum name variants =>
    [("name", some (.string name)), ("variants", some (.array (variants.map writeVariant)))]

/-- The record of a type holds its kind and the slots that are filled. -/
lemma toJson_eq (t : Ty) :
    t.toJson = .object (given (("kind", some (.string t.kind)) :: t.slots)) := by
  cases t with
  | primitive p => rfl
  | generic g params => rw [toJson, toJsonAll_eq]; rfl
  | array length element => rw [toJson]; rfl
  | struct name fields => rw [toJson, toJsonFields_eq]; rfl
  | enum name variants => rw [toJson, toJsonVariants_eq]; rfl

/-- The place of the kind of a type among the kinds. -/
def place : Ty → Nat
  | .primitive _ => 0
  | .generic _ _ => 1
  | .array _ _ => 2
  | .struct _ _ => 3
  | .enum _ _ => 4

/-- A type is read from the record behind its tag, with one level of depth less for the types
inside. -/
lemma readRecord?_succ_toJson (t : Ty) (byIndex : Bool) (depth : Nat) :
    readRecord? byIndex (depth + 1) t.toJson =
      readKind? (readRecord? true depth) t.place (.object (given t.slots)) := by
  have untagged : "kind" ∉ t.slots.map (·.1) := by cases t <;> simp [slots]
  have tag : kinds.idxOf? t.kind = some t.place := by cases t <;> rfl
  rw [toJson_eq, readRecord?, tagged?_given untagged]
  simp only [Option.bind_eq_bind, Option.bind_some, tagIndex?, tag]

/-- A type is read back from the record behind its tag if the types inside are. -/
lemma readKind?_slots {read : Json → Option Ty} (t : Ty)
    (inner : ∀ u ∈ t.parts, read u.toJson = some u) :
    readKind? read t.place (.object (given t.slots)) = some t := by
  cases t with
  | primitive p =>
    have record : (Json.object (given (slots (.primitive p)))).record? ["name"] =
        some (given (slots (.primitive p))) := record?_given rfl (by decide)
    rw [place, readKind?, record]
    simp [slots, Record.required, caseName?, Primitive.ofTag?_tag]
  | generic g params =>
    have record : (Json.object (given (slots (.generic g params)))).record?
        ["name", "type_parameters"] = some (given (slots (.generic g params))) :=
      record?_given rfl (by decide)
    have list : (Json.array (params.map toJson)).toList? read = some params := toList?_map inner
    rw [place, readKind?, record]
    simp [slots, Record.required, caseName?, Generic.ofTag?_tag, list]
  | array length element =>
    have record : (Json.object (given (slots (.array length element)))).record?
        ["length", "element"] = some (given (slots (.array length element))) :=
      record?_given rfl (by decide)
    have word : (given (slots (.array length element))).required "length" toWord64? =
        some length := Record.required_eq_some (by simp [slots]) (toWord64?_ofNat length)
    rw [place, readKind?, bind_of_eq_some record, bind_of_eq_some word]
    simp [slots, Record.required, inner element (by simp [parts])]
  | struct name fields =>
    have record : (Json.object (given (slots (.struct name fields)))).record?
        ["name", "fields"] = some (given (slots (.struct name fields))) :=
      record?_given rfl (by decide)
    have list : (Json.array (fields.map writeField)).toList? (readField? read) = some fields :=
      toList?_map fun field member => readField?_writeField (inner _ (List.mem_map_of_mem member))
    rw [place, readKind?, record]
    simp [slots, Record.required, list]
  | enum name variants =>
    have record : (Json.object (given (slots (.enum name variants)))).record?
        ["name", "variants"] = some (given (slots (.enum name variants))) :=
      record?_given rfl (by decide)
    have list : (Json.array (variants.map writeVariant)).toList? (readVariant? read) =
        some variants :=
      toList?_map fun variant member => readVariant?_writeVariant fun field inside =>
        inner _ (List.mem_flatMap.mpr ⟨variant, member, List.mem_map_of_mem inside⟩)
    rw [place, readKind?, record]
    simp [slots, Record.required, list]

/-- The type of a field is less deep than a list with the record of the field. -/
lemma depth_toJson_lt_of_mem_fields {fields : List (Field Ty)} {u : Ty}
    (h : u ∈ fields.map (·.type)) :
    u.toJson.depth < (Json.array (fields.map writeField)).depth := by
  obtain ⟨field, member, rfl⟩ := List.mem_map.mp h
  calc field.type.toJson.depth
    _ < (writeField field).depth :=
      depth_lt_of_mem_slots (show ("type", _) ∈ fieldSlots field by simp [fieldSlots])
    _ < (Json.array (fields.map writeField)).depth := depth_lt_of_mem_list member

/-- The record of a type inside another is less deep. -/
lemma depth_toJson_lt_of_mem_parts {t u : Ty} (h : u ∈ t.parts) :
    u.toJson.depth < t.toJson.depth := by
  have inside (name : String) (value : Json) (slot : (name, some value) ∈ t.slots) :
      value.depth < t.toJson.depth := by
    rw [toJson_eq]
    exact depth_lt_of_mem_slots (List.mem_cons_of_mem _ slot)
  cases t with
  | primitive p => simp [parts] at h
  | generic g params =>
    have item : u.toJson.depth < (Json.array (params.map toJson)).depth := depth_lt_of_mem_list h
    exact item.trans (inside "type_parameters" _ (by simp [slots]))
  | array length element =>
    obtain rfl := List.mem_singleton.mp h
    exact inside "element" _ (by simp [slots])
  | struct name fields =>
    exact (depth_toJson_lt_of_mem_fields h).trans (inside "fields" _ (by simp [slots]))
  | enum name variants =>
    obtain ⟨variant, member, h⟩ := List.mem_flatMap.mp h
    have written : nonempty? writeField variant.fields =
        some (.array (variant.fields.map writeField)) := by
      refine if_neg fun empty => ?_
      simp [List.isEmpty_iff.mp empty] at h
    have slot : ("fields", some (.array (variant.fields.map writeField))) ∈
        variantSlots variant := by simp [variantSlots, written]
    calc u.toJson.depth
      _ < (Json.array (variant.fields.map writeField)).depth := depth_toJson_lt_of_mem_fields h
      _ < (writeVariant variant).depth := depth_lt_of_mem_slots slot
      _ < (Json.array (variants.map writeVariant)).depth := depth_lt_of_mem_list member
      _ < (enum name variants).toJson.depth := inside "variants" _ (by simp [slots])

/-- A type is read back from its record, given enough depth. -/
theorem readRecord?_toJson (t : Ty) {byIndex : Bool} {depth : Nat}
    (enough : t.toJson.depth ≤ depth) : readRecord? byIndex depth t.toJson = some t := by
  induction depth generalizing t byIndex with
  | zero =>
    rw [toJson_eq, Json.depth] at enough
    omega
  | succ depth ih =>
    rw [readRecord?_succ_toJson]
    refine readKind?_slots t fun u h => ih u ?_
    exact Nat.le_of_lt_succ ((depth_toJson_lt_of_mem_parts h).trans_le enough)

/-! ## Texts -/

/-- The record of a field is read whole if that of its type is. -/
lemma fits_writeField {field : Field Ty} (h : field.type.toJson.Fits .any) :
    (writeField field).Fits .any :=
  fits_any_given (by simpa [fieldSlots, Fits] using h)

/-- The record of a variant is read whole if those of the types of its fields are. -/
lemma fits_writeVariant {variant : Variant Ty}
    (h : ∀ field ∈ variant.fields, field.type.toJson.Fits .any) :
    (writeVariant variant).Fits .any := by
  have small : variant.discriminant.toNat < Numeral.word64Bound :=
    variant.discriminant.toNat_lt.trans (by decide)
  have fields := fits_any_of_mem_nonempty? fun field member => fits_writeField (h field member)
  refine fits_any_given ?_
  simp only [variantSlots, List.forall_mem_cons]
  exact ⟨by simpa using fits_ofNat small, by simp [Fits], fields, by simp⟩

/-- The record of a type is read whole if the contents of its slots are. -/
lemma fits_toJson_of_slots {t : Ty} (h : ∀ slot ∈ t.slots, ∀ value ∈ slot.2, value.Fits .any) :
    t.toJson.Fits .any := by
  have tag : (Json.string t.kind).Fits .any := trivial
  rw [toJson_eq]
  exact fits_any_given (List.forall_mem_cons.mpr ⟨by simpa using tag, h⟩)

/-- Where everything is asked for, the record of a type is read whole. -/
lemma fits_toJson (t : Ty) : t.toJson.Fits .any := by
  induction t with
  | primitive p => exact fits_toJson_of_slots (by simp [slots, Fits])
  | generic g params ih =>
    exact fits_toJson_of_slots (by simpa [slots, Fits] using fits_any_map ih)
  | array length element ih =>
    have word : (ofNat length.toNat).Fits .any := fits_ofNat length.toNat_lt
    exact fits_toJson_of_slots (by simpa [slots] using ⟨word, ih⟩)
  | struct name fields ih =>
    have list := fits_any_map fun field member => fits_writeField (ih field member)
    exact fits_toJson_of_slots (by simpa [slots, Fits] using list)
  | enum name variants ih =>
    have list := fits_any_map fun variant member => fits_writeVariant (ih variant member)
    exact fits_toJson_of_slots (by simpa [slots, Fits] using list)

/-- A type is read back from its record. -/
lemma ofJson?_toJson (t : Ty) : ofJson? t.toJson = some t :=
  t.readRecord?_toJson le_rfl

/-- A type is read back from the text of its record. -/
theorem parseRecord?_text (t : Ty) (shallow : t.toJson.depth ≤ maxDepth) :
    parseRecord? t.toJson.text = some t := by
  rw [parseRecord?, Json.parse?, parseFor?_text t.fits_toJson shallow, Option.bind_some]
  exact t.ofJson?_toJson

end ContractCalls.Ty

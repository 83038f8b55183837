import ContractCalls.Proofs.Interface.Simulation
import ContractCalls.Proofs.Outcome
import ContractCalls.Proofs.Text.Sorted
import ContractCalls.Proofs.Ty.Resolve

/-!
# Solutions of the definitions of a document

The definitions of a document are equations for the custom types: the type of a name has the fields
of its definition, each with the type that its spelling denotes in the table of all custom types. A
table `Solves` the definitions if it has a type for each name and all equations hold. Types are
finite trees, and a type is larger than those it is built from (`Definition.Means.imp`), so two
solutions agree (`Definitions.Solves.unique`).
-/

namespace ContractCalls

open Ty

namespace Document

/-- A field has the name and the type that a field of a document has; `denotes` relates spellings
and their types. -/
def FieldMeans (denotes : String → Ty → Prop) (raw : Field String) (field : Field Ty) : Prop :=
  field.name = raw.name ∧ denotes raw.type field.type

/-- A variant has the discriminant, the name and the fields that a variant of a document has. -/
def VariantMeans (denotes : String → Ty → Prop) (raw : Variant String) (variant : Variant Ty) :
    Prop :=
  variant.discriminant = raw.discriminant ∧ variant.name = raw.name ∧
    List.Forall₂ (FieldMeans denotes) raw.fields variant.fields

/-- A type is the struct or enum of a name that a definition describes. -/
inductive Definition.Means (denotes : String → Ty → Prop) (name : String) : Definition → Ty → Prop
  | struct {raws : List (Field String)} {fields : List (Field Ty)} :
    List.Forall₂ (FieldMeans denotes) raws fields →
      Means denotes name (.struct raws) (.struct name fields)
  | enum {raws : List (Variant String)} {variants : List (Variant Ty)} :
    List.Forall₂ (VariantMeans denotes) raws variants →
      Means denotes name (.enum raws) (.enum name variants)

/-- The variants of an enum have distinct discriminants. -/
def Definition.HasDistinctDiscriminants : Definition → Prop
  | struct _ => True
  | enum variants => (variants.map (·.discriminant)).Nodup

/-- A spelling denotes a type, with the custom types of a table. -/
def Denotes (types : Table) (source : String) (t : Ty) : Prop :=
  Ty.parse source types = .ok t

/-- A table has a type for each definition, in their order, and each is the type that its definition
describes with the custom types of the table. -/
structure Definitions.Solves (definitions : Definitions) (types : Table) : Prop where
  names : types.map (·.1) = definitions.map (·.1)
  means : ∀ entry ∈ definitions, ∃ t, types.lookup entry.1 = some t ∧
    entry.2.Means (Denotes types) entry.1 t

/-- All custom types of a table are defined. -/
def Definitions.Covers (definitions : Definitions) (types : Table) : Prop :=
  ∀ name t, types.lookup name = some t → ∃ definition, definitions.lookup name = some definition

variable {definitions : Definitions} {types types' : Table} {lookup : Lookup (Except MalformedType)}
  {name source : String} {definition : Definition} {t : Ty}

/-! ## Meaning and resolving -/

/-- A field is resolved to what it means. -/
lemma resolveField_eq_ok_iff {raw : Field String} {field : Field Ty} :
    resolveField lookup raw = .ok field ↔
      FieldMeans (fun source t => parseWith lookup source = .ok t) raw field := by
  obtain ⟨name, t⟩ := field
  simp only [resolveField, FieldMeans, bind_eq_ok_iff, pure_eq_ok_iff, Field.mk.injEq]
  refine ⟨fun h => ?_, fun h => ?_⟩
  · obtain ⟨_, h, rfl, rfl⟩ := h
    exact ⟨rfl, h⟩
  · obtain ⟨rfl, h⟩ := h
    exact ⟨t, h, rfl, rfl⟩

/-- Fields are resolved to what they mean. -/
lemma mapM_resolveField_eq_ok_iff {raws : List (Field String)} {fields : List (Field Ty)} :
    raws.mapM (resolveField lookup) = .ok fields ↔
      List.Forall₂ (FieldMeans fun source t => parseWith lookup source = .ok t) raws fields := by
  simp only [mapM_eq_ok_iff, resolveField_eq_ok_iff]

/-- Variants are resolved one after another, each with a new discriminant. -/
lemma resolveVariants_cons_eq_ok_iff {owner : String} {seen : List UInt8} {raw : Variant String}
    {raws : List (Variant String)} {variants : List (Variant Ty)} :
    resolveVariants lookup owner seen (raw :: raws) = .ok variants ↔
      raw.discriminant ∉ seen ∧ ∃ fields rest,
        raw.fields.mapM (resolveField lookup) = .ok fields ∧
        resolveVariants lookup owner (raw.discriminant :: seen) raws = .ok rest ∧
        ⟨raw.discriminant, raw.name, fields⟩ :: rest = variants := by
  rw [resolveVariants]
  by_cases old : raw.discriminant ∈ seen
  · simp [old, throw, throwThe, MonadExceptOf.throw]
  · simp only [List.contains_eq_mem, old, decide_false, Bool.false_eq_true, if_false, not_false_iff,
      true_and, bind_eq_ok_iff, pure_eq_ok_iff]
    tauto

/-- Variants are resolved to what they mean, if their discriminants are new and distinct. -/
lemma resolveVariants_eq_ok_iff {owner : String} {seen : List UInt8} {raws : List (Variant String)}
    {variants : List (Variant Ty)} :
    resolveVariants lookup owner seen raws = .ok variants ↔
      ((∀ raw ∈ raws, raw.discriminant ∉ seen) ∧ (raws.map (·.discriminant)).Nodup) ∧
        List.Forall₂ (VariantMeans fun source t => parseWith lookup source = .ok t) raws
          variants := by
  induction raws generalizing seen variants with
  | nil => cases variants <;> simp [resolveVariants]
  | cons raw raws ih =>
    simp only [resolveVariants_cons_eq_ok_iff, mapM_resolveField_eq_ok_iff, ih,
      List.forall_mem_cons, List.map_cons, List.nodup_cons]
    refine ⟨fun h => ?_, fun h => ?_⟩
    · obtain ⟨new, fields, rest, hfields, ⟨⟨fresh, distinct⟩, hrest⟩, rfl⟩ := h
      refine ⟨⟨⟨new, fun r hr old => ?_⟩, fun again => ?_, distinct⟩,
        .cons ⟨rfl, rfl, hfields⟩ hrest⟩
      · exact fresh r hr (List.mem_cons_of_mem _ old)
      · obtain ⟨r, hr, same⟩ := List.mem_map.mp again
        exact fresh r hr (same ▸ List.mem_cons_self)
    · obtain ⟨⟨⟨new, fresh⟩, only, distinct⟩, h⟩ := h
      cases h with
      | @cons _ variant _ variants h hs =>
        obtain ⟨d, name, fields⟩ := variant
        obtain ⟨rfl, rfl, hfields⟩ := h
        -- A discriminant further on is none of those so far, nor the one of this variant.
        refine ⟨new, fields, variants, hfields, ⟨⟨fun r hr old => ?_, distinct⟩, hs⟩, rfl⟩
        rcases List.mem_cons.mp old with same | old
        · exact only (List.mem_map.mpr ⟨r, hr, same⟩)
        · exact fresh r hr old

/-- A definition is resolved to what it means, if its discriminants are distinct. -/
lemma resolve_eq_ok_iff :
    definition.resolve lookup name = .ok t ↔
      definition.HasDistinctDiscriminants ∧
        definition.Means (fun source t => parseWith lookup source = .ok t) name t := by
  cases definition with
  | struct raws =>
    simp only [Definition.resolve, bind_eq_ok_iff, mapM_resolveField_eq_ok_iff, pure_eq_ok_iff,
      Definition.HasDistinctDiscriminants, true_and]
    refine ⟨fun h => ?_, fun means => ?_⟩
    · obtain ⟨fields, h, rfl⟩ := h
      exact .struct h
    · cases means with
      | struct h => exact ⟨_, h, rfl⟩
  | enum raws =>
    simp only [Definition.resolve, bind_eq_ok_iff, resolveVariants_eq_ok_iff, pure_eq_ok_iff,
      Definition.HasDistinctDiscriminants]
    refine ⟨fun h => ?_, fun h => ?_⟩
    · obtain ⟨variants, ⟨⟨-, distinct⟩, h⟩, rfl⟩ := h
      exact ⟨distinct, .enum h⟩
    · obtain ⟨distinct, means⟩ := h
      cases means with
      | enum h => exact ⟨_, ⟨⟨by simp, distinct⟩, h⟩, rfl⟩

/-! ## Sizes -/

/-- A type is larger than the type of a field that it is built from. -/
lemma sizeOf_lt_of_mem_fields {fields : List (Field Ty)} {field : Field Ty} (h : field ∈ fields) :
    sizeOf field.type < sizeOf fields := by
  have size := List.sizeOf_lt_of_mem h
  obtain ⟨name, t⟩ := field
  simp only [Field.mk.sizeOf_spec] at size ⊢
  omega

/-- A type is larger than the fields of a variant that it is built from. -/
lemma sizeOf_lt_of_mem_variants {variants : List (Variant Ty)} {variant : Variant Ty}
    (h : variant ∈ variants) : sizeOf variant.fields < sizeOf variants := by
  have size := List.sizeOf_lt_of_mem h
  obtain ⟨d, name, fields⟩ := variant
  simp only [Variant.mk.sizeOf_spec] at size ⊢
  omega

/-- What an expression denotes depends on no custom type that is larger. -/
lemma Resolves.of_lt {custom custom' : String → Ty → Prop} {size : Nat} {e : Expression}
    (h : ∀ name t, sizeOf t < size → custom name t → custom' name t) (r : Resolves custom e t)
    (small : sizeOf t < size) : Resolves custom' e t := by
  induction r using Resolves.rec
    (motive_2 := fun es ts _ => sizeOf ts < size → ResolveAll custom' es ts) with
  | primitive hp => exact .primitive hp
  | generic hg admitted _ ih =>
    simp only [Ty.generic.sizeOf_spec] at small
    exact .generic hg admitted (ih (by omega))
  | array ha _ ih =>
    simp only [Ty.array.sizeOf_spec] at small
    exact .array ha (ih (by omega))
  | custom kind stands =>
    -- A custom type is what is denoted itself, so it is within the size.
    exact .custom kind (h _ _ small stands)
  | nil => exact .nil
  | cons _ _ ih ihs small =>
    simp only [List.cons.sizeOf_spec] at small
    exact .cons (ih (by omega)) (ihs (by omega))

/-- A spelling denotes the same with any custom types that agree up to the size of what it denotes.
-/
lemma parseWith_of_lookup {lookup lookup' : Lookup (Except MalformedType)} {size : Nat}
    (h : ∀ name t, sizeOf t < size → lookup name = .ok (some t) → lookup' name = .ok (some t))
    (small : sizeOf t < size) (r : parseWith lookup source = .ok t) :
    parseWith lookup' source = .ok t := by
  obtain ⟨e, written, r⟩ := parseWith_eq_ok_iff.mp r
  exact parseWith_eq_ok_iff.mpr ⟨e, written, Resolves.of_lt h r small⟩

variable {denotes denotes' : String → Ty → Prop}

/-- Fields mean the same for spellings that denote the same up to a size. -/
lemma FieldMeans.imp {raws : List (Field String)} {fields : List (Field Ty)}
    (h : ∀ source u, sizeOf u < sizeOf fields → denotes source u → denotes' source u)
    (means : List.Forall₂ (FieldMeans denotes) raws fields) :
    List.Forall₂ (FieldMeans denotes') raws fields := by
  rw [List.forall₂_iff_get] at means ⊢
  obtain ⟨same, means⟩ := means
  refine ⟨same, fun i hi hi' => ?_⟩
  obtain ⟨name, denoted⟩ := means i hi hi'
  exact ⟨name, h _ _ (sizeOf_lt_of_mem_fields (List.get_mem _ _)) denoted⟩

/-- What a definition means depends on what denotes smaller types only. -/
lemma Definition.Means.imp
    (h : ∀ source u, sizeOf u < sizeOf t → denotes source u → denotes' source u)
    (means : definition.Means denotes name t) : definition.Means denotes' name t := by
  cases means with
  | @struct raws fields means =>
    refine .struct (FieldMeans.imp (fun source u small => h source u ?_) means)
    simp only [Ty.struct.sizeOf_spec]
    omega
  | @enum raws variants means =>
    refine .enum ?_
    rw [List.forall₂_iff_get] at means ⊢
    obtain ⟨same, means⟩ := means
    refine ⟨same, fun i hi hi' => ?_⟩
    obtain ⟨d, name, fields⟩ := means i hi hi'
    refine ⟨d, name, FieldMeans.imp (fun source u small => h source u ?_) fields⟩
    have below := sizeOf_lt_of_mem_variants (List.get_mem variants ⟨i, hi'⟩)
    simp only [Ty.enum.sizeOf_spec]
    omega

/-- A field of a document means one field if no spelling denotes two types. -/
lemma FieldMeans.unique (h : ∀ source t t', denotes source t → denotes source t' → t = t') :
    Relator.RightUnique (FieldMeans denotes) := by
  intro raw field field' means means'
  obtain ⟨name, t⟩ := field
  obtain ⟨name', t'⟩ := field'
  obtain ⟨rfl, ht⟩ := means
  obtain ⟨rfl, ht'⟩ := means'
  exact congrArg _ (h _ _ _ ht ht')

/-- A variant of a document means one variant if no spelling denotes two types. -/
lemma VariantMeans.unique (h : ∀ source t t', denotes source t → denotes source t' → t = t') :
    Relator.RightUnique (VariantMeans denotes) := by
  intro raw variant variant' means means'
  obtain ⟨d, name, fields⟩ := variant
  obtain ⟨d', name', fields'⟩ := variant'
  obtain ⟨rfl, rfl, hfields⟩ := means
  obtain ⟨rfl, rfl, hfields'⟩ := means'
  exact congrArg _ (List.right_unique_forall₂' (FieldMeans.unique h) hfields hfields')

/-- A definition means one type if no spelling denotes two types. -/
lemma Definition.Means.unique (h : ∀ source t t', denotes source t → denotes source t' → t = t')
    {t' : Ty} (means : definition.Means denotes name t)
    (means' : definition.Means denotes name t') : t = t' := by
  cases means with
  | struct means =>
    cases means' with
    | struct means' =>
      exact congrArg _ (List.right_unique_forall₂' (FieldMeans.unique h) means means')
  | enum means =>
    cases means' with
    | enum means' =>
      exact congrArg _ (List.right_unique_forall₂' (VariantMeans.unique h) means means')

/-! ## Uniqueness -/

/-- A spelling denotes one type with the custom types of a table. -/
lemma denotes_unique (types : Table) (source : String) (t t' : Ty) (h : Denotes types source t)
    (h' : Denotes types source t') : t = t' :=
  Except.ok.inj (h.symm.trans h')

namespace Definitions.Solves

/-- A solution has types of defined names only. -/
lemma covers (solves : definitions.Solves types) : definitions.Covers types := by
  intro name t found
  rw [exists_lookup_iff_mem, ← solves.names, ← exists_lookup_iff_mem]
  exact ⟨t, found⟩

/-- A solution has a type for a name if the name is defined. -/
lemma lookup_eq_none_iff (solves : definitions.Solves types) :
    types.lookup name = none ↔ definitions.lookup name = none := by
  rw [lookup_eq_none_iff_not_mem, lookup_eq_none_iff_not_mem, solves.names]

/-- Where one solution has a type, so has another one. -/
lemma lookup_eq_some (solves : definitions.Solves types) (solves' : definitions.Solves types')
    (size : Nat) (name : String) (t : Ty) (small : sizeOf t < size)
    (found : types.lookup name = some t) : types'.lookup name = some t := by
  induction size generalizing name t with
  | zero => omega
  | succ size ih =>
    obtain ⟨definition, declared⟩ := solves.covers name t found
    have entry := mem_of_lookup declared
    obtain ⟨u, hu, means⟩ := solves.means _ entry
    obtain ⟨u', hu', means'⟩ := solves'.means _ entry
    obtain rfl : t = u := Option.some.inj (found.symm.trans hu)
    -- The types that the definition needs are smaller, so the solutions agree on them.
    have carried : definition.Means (Denotes types') name t := by
      refine means.imp fun source v smaller denoted => ?_
      refine parseWith_of_lookup (fun name w below hw => ?_) smaller denoted
      rw [Table.find, Except.ok.injEq] at hw ⊢
      exact ih name w (by omega) hw
    rw [hu', means'.unique (denotes_unique types') carried]

/-- The definitions of a document have at most one solution. -/
theorem unique (distinct : (definitions.map (·.1)).Nodup) (solves : definitions.Solves types)
    (solves' : definitions.Solves types') : types = types' := by
  have names : types.map (·.1) = types'.map (·.1) := solves.names.trans solves'.names.symm
  refine eq_of_lookup (solves.names ▸ distinct) names fun name => ?_
  cases found : types.lookup name with
  | none => rw [solves'.lookup_eq_none_iff.mpr (solves.lookup_eq_none_iff.mp found)]
  | some t => rw [solves.lookup_eq_some solves' (sizeOf t + 1) name t (by omega) found]

end Definitions.Solves

end Document

end ContractCalls

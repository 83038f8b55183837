import ContractCalls.Proofs.Literal.Leaf
import ContractCalls.Proofs.Literal.Reading
import ContractCalls.Proofs.Text.Sorted

/-!
# Values and their literals

A literal denotes a value of its type, without a token that is no identifier and without a present
value that is itself absent (`IsLiteral.hasType`), so nothing else is read (`wellTyped_of_ofJson`).
A value of a type without such nodes is denoted by the literal it is printed as
(`HasType.isLiteral`), if names in the type are distinct. Together these make `ofJson_toJson`: such
values, and no others, are read back.
-/

namespace ContractCalls

namespace Ty

variable {name : String} {variants : List (Variant Ty)} {variant : Variant Ty}

/-- A variant is found by its discriminant if that is its own. -/
lemma find?_discriminant (distinct : (enum name variants).hasDistinctDiscriminants)
    (h : variant ∈ variants) :
    variants.find? (·.discriminant = variant.discriminant) = some variant :=
  find?_eq_some_of_mem (of_decide_eq_true distinct) h

/-- A variant is found by its name if that is its own. -/
lemma find?_name (distinct : (enum name variants).hasDistinctVariants) (h : variant ∈ variants) :
    variants.find? (·.name = variant.name) = some variant :=
  find?_eq_some_of_mem (of_decide_eq_true distinct) h

/-- The fields of a variant have distinct names where an enum says so. -/
lemma nodup_variantFields (distinct : (enum name variants).hasDistinctFields)
    (h : variant ∈ variants) : (variant.fields.map (·.name)).Nodup :=
  of_decide_eq_true (List.all_eq_true.mp distinct variant h)

end Ty

namespace Value

variable {t : Ty} {ts : List Ty} {p : Primitive} {j : Json} {js : List Json} {v : Value}
  {vs : List Value} {fields : List (Field Ty)} {variants : List (Variant Ty)}

/-! ## What literals denote -/

/-- A literal other than `null` denotes no absent value. -/
lemma IsLiteral.not_isAbsent (h : IsLiteral t j v) (other : j ≠ .null) : ¬v.isAbsent := by
  cases h with
  | primitive e =>
    cases (hasType_of_ofJsonPrimitive e).1 with
    | primitive made label => cases v <;> simp_all [type, isAbsent]
  | absent => exact absurd rfl other
  | present kind => cases kind <;> simp [isAbsent]
  | items kind => cases kind <;> simp [isAbsent]
  | _ => simp [isAbsent]

/-- Values of several types that are the same are each of this type. -/
lemma HaveTypes.forall_of_replicate {n : Nat} (h : HaveTypes (List.replicate n t) vs) :
    ∀ v ∈ vs, HasType t v := by
  intro v hv
  obtain ⟨u, hu, typed⟩ := h.exists_of_mem hv
  rwa [List.eq_of_mem_replicate hu] at typed

/-- A literal denotes a value of the type, all of whose nodes have literals. -/
theorem IsLiteral.hasType (h : IsLiteral t j v) (full : t.All (·.hasArity))
    (distinct : t.All (·.hasDistinctDiscriminants)) : HasType t v ∧ v.All HasLiteral := by
  -- The second motive says the same of literals and types one by one.
  induction h using IsLiteral.rec
    (motive_2 := fun ts _ vs _ => (∀ t ∈ ts, t.All (·.hasArity)) →
      (∀ t ∈ ts, t.All (·.hasDistinctDiscriminants)) →
        HaveTypes ts vs ∧ ∀ v ∈ vs, v.All HasLiteral) with
  | primitive e => exact hasType_of_ofJsonPrimitive e
  | @absent g make t ts kind =>
    obtain rfl := Ty.eq_nil_of_hasArity kind.arity_eq full.root
    cases kind with
    | option => exact ⟨.absent, .leaf trivial rfl⟩
    | optional => exact ⟨.absentOptional, .leaf trivial rfl⟩
  | @present g make t ts j v kind other inner ih =>
    obtain rfl := Ty.eq_nil_of_hasArity kind.arity_eq full.root
    obtain ⟨typed, literal⟩ := ih (full.param (by simp)) (distinct.param (by simp))
    -- The content was not read from `null`, so it is no absent value in a present one.
    have there := inner.not_isAbsent other
    cases kind with
    | option => exact ⟨.present typed, .intro there (by simpa [parts] using literal)⟩
    | optional => exact ⟨.presentOptional typed, .intro there (by simpa [parts] using literal)⟩
  | @items g make t ts js vs kind all ih =>
    obtain rfl := Ty.eq_nil_of_hasArity kind.arity_eq full.root
    obtain ⟨typed, literal⟩ := ih (fun u hu => List.eq_of_mem_replicate hu ▸ full.param (by simp))
      fun u hu => List.eq_of_mem_replicate hu ▸ distinct.param (by simp)
    cases kind with
    | list => exact ⟨.list typed.forall_of_replicate, .intro trivial literal⟩
    | variadic => exact ⟨.variadic typed.forall_of_replicate, .intro trivial literal⟩
  | tuple all ih =>
    obtain ⟨typed, literal⟩ := ih (fun u => full.param) fun u => distinct.param
    exact ⟨.tuple typed, .intro trivial literal⟩
  | array size all ih =>
    obtain ⟨typed, literal⟩ := ih (fun u hu => List.eq_of_mem_replicate hu ▸ full.element)
      fun u hu => List.eq_of_mem_replicate hu ▸ distinct.element
    exact ⟨.array size typed.forall_of_replicate, .intro trivial literal⟩
  | struct given all ih =>
    obtain ⟨typed, literal⟩ := ih full.fieldType distinct.fieldType
    exact ⟨.struct typed, .intro trivial literal⟩
  | @emptyVariant name variants variant j named found empty =>
    have member := List.mem_of_find?_eq_some found
    have first := Ty.find?_discriminant distinct.root member
    exact ⟨.enum first (empty ▸ .nil), .leaf trivial rfl⟩
  | @variant name variants variant j given js vs named found list all ih =>
    have member := List.mem_of_find?_eq_some found
    have first := Ty.find?_discriminant distinct.root member
    obtain ⟨typed, literal⟩ := ih (full.variantType member) (distinct.variantType member)
    exact ⟨.enum first typed, .intro trivial literal⟩
  | nil => exact ⟨.nil, by simp⟩
  | cons first others ih ihs =>
    rename_i full distinct
    simp only [List.forall_mem_cons] at full distinct
    obtain ⟨typed, literal⟩ := ih full.1 distinct.1
    obtain ⟨allTyped, literals⟩ := ihs full.2 distinct.2
    exact ⟨.cons typed allTyped, List.forall_mem_cons.mpr ⟨literal, literals⟩⟩

/-- Literals only build values of the types they are read at. Where each generic has the parameters
it takes and no enum has two variants of one discriminant, what is read conforms to the type at every
depth; all tokens in it are texts of ASCII characters that are not empty, and nothing present in it
is itself absent. -/
theorem wellTyped_of_ofJson (full : t.All (·.hasArity))
    (distinct : t.All (·.hasDistinctDiscriminants)) (e : ofJson t j = .ok v) :
    conforms t v ∧ v.All IsWellLabelled ∧
      (∀ s, IsNode (.token s) v → s ≠ "" ∧ ∀ c ∈ s.toList, c.toNat < 128) ∧
      ∀ inner u, IsNode (.option inner (some u)) v ∨ IsNode (.optional inner (some u)) v →
        ¬u.isAbsent := by
  obtain ⟨typed, literal⟩ := (ofJson_eq_ok_iff.mp e).hasType full distinct
  obtain ⟨c, label⟩ := typed.conforms_and_wellLabelled
  refine ⟨c, label, fun s node => literal _ node, fun inner u node => ?_⟩
  rcases node with option | optional
  · exact literal _ option
  · exact literal _ optional

/-- A pair of an enum, by the name of its second variant, and a value that is present twice. -/
theorem wellTyped_of_ofJson_pair :
    let kind := Ty.enum "Kind" [⟨1, "Local", []⟩, ⟨0, "Bridged", [⟨"token", .primitive .token⟩]⟩]
    let t := Ty.tuple [kind, .option (.option (.primitive .u64))]
    let j := Json.array [.object [("name", .string "Bridged"), ("fields", .array [.string "A-1"])],
      .number (.integer 5)]
    let v := tuple [enum kind 0 [token "A-1"],
      present (present (int ⟨false, .eight⟩ ⟨5, by decide⟩))]
    ofJson t j = .ok v ∧ conforms t v ∧ v.All IsWellLabelled ∧
      (∀ s, IsNode (.token s) v → s ≠ "" ∧ ∀ c ∈ s.toList, c.toNat < 128) ∧
      ∀ inner u, IsNode (.option inner (some u)) v ∨ IsNode (.optional inner (some u)) v →
        ¬u.isAbsent := by
  intro kind t j v
  have e : ofJson t j = .ok v := by rfl
  exact ⟨e, wellTyped_of_ofJson (t := t) (by decide) (by decide) e⟩

-- The variant that is named is not the first one with its discriminant.
example :
    let t := Ty.enum "Kind" [⟨0, "Local", []⟩, ⟨0, "Bridged", [⟨"fee", .primitive .bool⟩]⟩]
    let j := Json.object [("name", .string "Bridged"), ("fields", .array [.bool true])]
    let v := enum t 0 [bool true]
    ofJson t j = .ok v ∧ ¬conforms t v :=
  ⟨rfl, by decide⟩

/-! ## What values are printed as -/

/-- Values are written as literals one by one. -/
lemma toJsonAll_eq (vs : List Value) : toJsonAll vs = vs.map toJson := by
  induction vs with
  | nil => rfl
  | cons v vs ih => rw [toJsonAll, ih, List.map_cons]

/-- Only an absent value is printed as `null`, where nothing present is absent. -/
lemma toJson_ne_null (literal : v.All HasLiteral) (there : ¬v.isAbsent) : v.toJson ≠ .null := by
  induction v using partsInduction with
  | step v ih =>
    cases v with
    | option inner value =>
      cases value with
      | none => exact absurd rfl there
      | some u => exact ih u (by simp [parts]) (literal.part (by simp [parts])) literal.root
    | optional inner value =>
      cases value with
      | none => exact absurd rfl there
      | some u => exact ih u (by simp [parts]) (literal.part (by simp [parts])) literal.root
    | struct t values => cases t <;> simp [toJson, Json.ofMembers]
    | enum t d values =>
      cases t with
      | enum name variants =>
        rw [toJson]
        split
        · split <;> simp [Json.ofMembers]
        · simp [Json.ofMembers]
      | _ => simp [toJson, Json.ofMembers]
    | _ => simp [toJson]

/-- The members of an object are found for fields with distinct names in any order. -/
lemma isFieldList_of_perm {members : List (String × Json)}
    (distinct : (fields.map (·.name)).Nodup) (size : js.length = fields.length)
    (perm : members.Perm ((fields.map (·.name)).zip js)) :
    IsFieldList fields (.object members) js := by
  have keys : ((fields.map (·.name)).zip js).map (·.1) = fields.map (·.name) :=
    List.map_fst_zip (by simp [size])
  have unique : (members.map (·.1)).Nodup := by
    rw [(perm.map _).nodup_iff, keys]
    exact distinct
  apply IsFieldList.byName
  · intro member h
    exact (List.of_mem_zip (perm.mem_iff.mp h)).1
  · refine List.forall₂_iff_zip.mpr ⟨size.symm, fun {field j} h => ?_⟩
    have entry : (field.name, j) ∈ (fields.map (·.name)).zip js := by
      rw [List.zip_map_left]
      exact List.mem_map_of_mem h
    exact lookup_of_mem unique (perm.mem_iff.mpr entry)

/-- The object of the names of fields and their literals gives these for the fields. -/
lemma isFieldList_ofMembers (distinct : (fields.map (·.name)).Nodup)
    (size : js.length = fields.length) :
    IsFieldList fields (Json.ofMembers ((fields.map (·.name)).zip js)) js := by
  have keys : ((fields.map (·.name)).zip js).map (·.1) = fields.map (·.name) :=
    List.map_fst_zip (by simp [size])
  exact isFieldList_of_perm distinct size (Sorted.perm_ofList (by rwa [keys]))

/-- The object of a name and fields names a variant. -/
lemma namesVariant_ofMembers (name : String) (j : Json) :
    NamesVariant (Json.ofMembers [("name", .string name), ("fields", j)]) name (some j) := by
  have distinct : ([("name", Json.string name), ("fields", j)].map (·.1)).Nodup := by simp
  have named := Sorted.lookup_ofList distinct "name"
  have given := Sorted.lookup_ofList distinct "fields"
  rw [List.lookup_cons_self] at named
  rw [List.lookup_cons, beq_false_of_ne (by decide)] at given
  have variant := NamesVariant.withFields named
  rwa [Json.find?, given, List.lookup_cons_self] at variant

/-- Items are denoted by their literals if each is. -/
lemma areLiterals_replicate (h : ∀ v ∈ vs, IsLiteral t v.toJson v) :
    AreLiterals (List.replicate (vs.map toJson).length t) (vs.map toJson) vs := by
  induction vs with
  | nil => exact .nil
  | cons v vs ih =>
    obtain ⟨first, others⟩ := List.forall_mem_cons.mp h
    exact .cons first (ih others)

/-- The literal of a value of a type denotes it, if there are literals for all its nodes and names in
the type are distinct. -/
theorem HasType.isLiteral (h : HasType t v) (literal : v.All HasLiteral)
    (fields : t.All (·.hasDistinctFields)) (variants : t.All (·.hasDistinctVariants)) :
    IsLiteral t v.toJson v := by
  -- The second motive says the same of values and types one by one.
  induction h using HasType.rec
    (motive_2 := fun ts vs _ => (∀ v ∈ vs, v.All HasLiteral) →
      (∀ t ∈ ts, t.All (·.hasDistinctFields)) → (∀ t ∈ ts, t.All (·.hasDistinctVariants)) →
        AreLiterals ts (vs.map toJson) vs) with
  | primitive made label => exact .primitive (ofJsonPrimitive_toJson made label literal.root)
  | absent => exact .absent .option
  | @present t v h ih =>
    have inner : v.All HasLiteral := literal.part (by simp [parts])
    have there : v.toJson ≠ .null := toJson_ne_null inner literal.root
    exact .present .option there (ih inner (fields.param (by simp)) (variants.param (by simp)))
  | absentOptional => exact .absent .optional
  | @presentOptional t v h ih =>
    have inner : v.All HasLiteral := literal.part (by simp [parts])
    have there : v.toJson ≠ .null := toJson_ne_null inner literal.root
    exact .present .optional there (ih inner (fields.param (by simp)) (variants.param (by simp)))
  | list h ih =>
    rw [toJson, toJsonAll_eq]
    apply IsLiteral.items .list
    exact areLiterals_replicate fun v hv =>
      ih v hv (literal.part hv) (fields.param (by simp)) (variants.param (by simp))
  | variadic h ih =>
    rw [toJson, toJsonAll_eq]
    apply IsLiteral.items .variadic
    exact areLiterals_replicate fun v hv =>
      ih v hv (literal.part hv) (fields.param (by simp)) (variants.param (by simp))
  | tuple h ih =>
    rw [toJson, toJsonAll_eq]
    apply IsLiteral.tuple
    exact ih (fun v hv => literal.part hv) (fun t => fields.param) fun t => variants.param
  | array size h ih =>
    rw [toJson, toJsonAll_eq]
    apply IsLiteral.array size
    exact areLiterals_replicate fun v hv =>
      ih v hv (literal.part hv) fields.element variants.element
  | @struct name members vs h ih =>
    have all := ih (fun v hv => literal.part hv) fields.fieldType variants.fieldType
    have size : (vs.map toJson).length = members.length := by simpa using all.length_eq.1
    have distinct : (members.map (·.name)).Nodup := of_decide_eq_true fields.root
    rw [toJson, toJsonAll_eq]
    exact .struct (isFieldList_ofMembers distinct size) all
  | @enum name cases d variant vs found h ih =>
    obtain rfl : variant.discriminant = d := by simpa using List.find?_some found
    have member := List.mem_of_find?_eq_some found
    have named := Ty.find?_name variants.root member
    have all := ih (fun v hv => literal.part hv) (fields.variantType member)
      (variants.variantType member)
    have size : (vs.map toJson).length = variant.fields.length := by simpa using all.length_eq.1
    rw [toJson, found]
    -- A variant without fields is printed as its name alone.
    cases vs with
    | nil =>
      have empty : variant.fields = [] := List.eq_nil_of_length_eq_zero size.symm
      exact .emptyVariant .alone named empty
    | cons v vs =>
      have distinct := Ty.nodup_variantFields fields.root member
      have list := isFieldList_ofMembers distinct size
      rw [← toJsonAll_eq] at list all
      exact .variant (namesVariant_ofMembers variant.name _) named list all
  | nil => exact .nil
  | cons h hs ih ihs =>
    rename_i literal fields variants
    simp only [List.forall_mem_cons] at literal fields variants
    exact .cons (ih literal.1 fields.1 variants.1) (ihs literal.2 fields.2 variants.2)

/-- Values and literals of a type where each generic has the parameters it takes, and names and
discriminants in each struct and enum are distinct. A value that conforms to it is read back from
its literal exactly if there are literals for all its nodes and every struct and enum in it carries
a type of its own kind. Every value that is read is read back. -/
theorem ofJson_toJson (full : t.All (·.hasArity)) (fields : t.All (·.hasDistinctFields))
    (variants : t.All (·.hasDistinctVariants))
    (discriminants : t.All (·.hasDistinctDiscriminants)) :
    (∀ v, conforms t v →
      (ofJson t v.toJson = .ok v ↔ v.All IsWellLabelled ∧ v.All HasLiteral)) ∧
    ∀ j v, ofJson t j = .ok v → ofJson t v.toJson = .ok v := by
  have read {j v} (e : ofJson t j = .ok v) : HasType t v ∧ v.All HasLiteral :=
    (ofJson_eq_ok_iff.mp e).hasType full discriminants
  have back {v} (typed : HasType t v) (literal : v.All HasLiteral) : ofJson t v.toJson = .ok v :=
    ofJson_eq_ok_iff.mpr (typed.isLiteral literal fields variants)
  refine ⟨fun v c => ⟨fun e => ?_, fun h => ?_⟩, fun j v e => ?_⟩
  · obtain ⟨typed, literal⟩ := read e
    exact ⟨typed.conforms_and_wellLabelled.2, literal⟩
  · exact back (hasType_iff.mpr ⟨c, h.1⟩) h.2
  · obtain ⟨typed, literal⟩ := read e
    exact back typed literal

/-- A value that is read from a literal with its fields by position is read back, one with an absent
price inside a present one is not. -/
theorem ofJson_toJson_order :
    let price := Ty.option (.primitive .bigUint)
    let state := Ty.enum "State" [⟨0, "Open", []⟩, ⟨1, "Closed", [⟨"height", .primitive .u64⟩]⟩]
    let t := Ty.struct "Order" [⟨"price", .option price⟩, ⟨"state", state⟩]
    let j := Json.array [.string " 7 ",
      .object [("name", .string "Closed"), ("fields", .array [.number (.integer 9)])]]
    let closed := enum state 1 [int ⟨false, .eight⟩ ⟨9, by decide⟩]
    let v := struct t [present (present (bigUint 7)), closed]
    let w := struct t [present (absent (.primitive .bigUint)), enum state 0 []]
    ofJson t j = .ok v ∧ ofJson t v.toJson = .ok v ∧
      conforms t w ∧ w.All IsWellLabelled ∧ ofJson t w.toJson ≠ .ok w := by
  intro price state t j closed v w
  obtain ⟨conforming, reread⟩ :=
    ofJson_toJson (t := t) (by decide) (by decide) (by decide) (by decide)
  have e : ofJson t j = .ok v := by rfl
  have c : conforms t w := by decide
  have label : w.All IsWellLabelled := by
    refine .intro ⟨_, _, rfl⟩ (List.forall_mem_cons.mpr ⟨?_, ?_⟩)
    · exact .intro trivial (List.forall_mem_singleton.mpr (.leaf trivial rfl))
    · exact List.forall_mem_singleton.mpr (.leaf ⟨_, _, rfl⟩ rfl)
  refine ⟨e, reread j v e, c, label, fun back => ?_⟩
  have literal := ((conforming w c).mp back).2
  exact (literal.part List.mem_cons_self).root rfl

/-- An enum that carries a primitive type conforms to it and has a literal at every node, but is not
read back from its own. -/
theorem mislabelled_enum_not_read_back :
    let t := Ty.primitive .u8
    let v := enum t 0 []
    conforms t v ∧ v.All HasLiteral ∧ ofJson t v.toJson ≠ .ok v := by
  refine ⟨by decide, .leaf trivial rfl, ?_⟩
  intro e
  cases e

end Value

end ContractCalls

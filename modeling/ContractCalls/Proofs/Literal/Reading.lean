import ContractCalls.Proofs.Outcome
import ContractCalls.Proofs.Value.Conforms
import ContractCalls.Value.Literal

/-!
# Literals and the values they denote

`IsLiteral` tells by rules which JSON values denote which value of a type: one rule for each form of
values, two for the fields of a struct or a variant, which come by name or by position
(`IsFieldList`), and two for an enum, whose variant comes with its fields or alone. Each form is
inverted once (`isLiteral_struct_iff` and the like). Reading gives a value exactly for its literals:
this is `ofJson_eq_ok_iff`. What a literal denotes is then shown by induction on the rules.
-/

namespace ContractCalls.Value

/-- A literal gives as many literals as there are fields, one for each. -/
inductive IsFieldList (fields : List (Field Ty)) : Json → List Json → Prop
  | byName {members : List (String × Json)} {js : List Json} :
    (∀ member ∈ members, member.1 ∈ fields.map (·.name)) →
      List.Forall₂ (fun field j => Json.find? field.name members = some j) fields js →
        IsFieldList fields (.object members) js
  | byPosition {js : List Json} : js.length = fields.length → IsFieldList fields (.array js) js

/-- A literal names a variant, with or without a literal for its fields. -/
inductive NamesVariant : Json → String → Option Json → Prop
  | alone {name : String} : NamesVariant (.string name) name none
  | withFields {members : List (String × Json)} {name : String} :
    Json.find? "name" members = some (.string name) →
      NamesVariant (.object members) name (Json.find? "fields" members)

mutual

/-- A literal denotes a value of a type. -/
inductive IsLiteral : Ty → Json → Value → Prop
  | primitive {p : Primitive} {j : Json} {v : Value} :
    ofJsonPrimitive p j = .ok v → IsLiteral (.primitive p) j v
  | absent {g : Generic} {make : Ty → Option Value → Value} {t : Ty} {ts : List Ty} :
    MayBeAbsent g make → IsLiteral (.generic g (t :: ts)) .null (make t none)
  | present {g : Generic} {make : Ty → Option Value → Value} {t : Ty} {ts : List Ty} {j : Json}
      {v : Value} :
    MayBeAbsent g make → j ≠ .null → IsLiteral t j v →
      IsLiteral (.generic g (t :: ts)) j (make t (some v))
  | items {g : Generic} {make : Ty → List Value → Value} {t : Ty} {ts : List Ty} {js : List Json}
      {vs : List Value} :
    HasItems g make → AreLiterals (List.replicate js.length t) js vs →
      IsLiteral (.generic g (t :: ts)) (.array js) (make t vs)
  | tuple {ts : List Ty} {js : List Json} {vs : List Value} :
    AreLiterals ts js vs → IsLiteral (.tuple ts) (.array js) (.tuple vs)
  | array {length : UInt64} {t : Ty} {js : List Json} {vs : List Value} :
    vs.length = length.toNat → AreLiterals (List.replicate js.length t) js vs →
      IsLiteral (.array length t) (.array js) (.array t vs)
  | struct {name : String} {fields : List (Field Ty)} {j : Json} {js : List Json}
      {vs : List Value} :
    IsFieldList fields j js → AreLiterals (fields.map (·.type)) js vs →
      IsLiteral (.struct name fields) j (.struct (.struct name fields) vs)
  | emptyVariant {name : String} {variants : List (Variant Ty)} {variant : Variant Ty} {j : Json} :
    NamesVariant j variant.name none → variants.find? (·.name = variant.name) = some variant →
      variant.fields = [] →
        IsLiteral (.enum name variants) j (.enum (.enum name variants) variant.discriminant [])
  | variant {name : String} {variants : List (Variant Ty)} {variant : Variant Ty} {j given : Json}
      {js : List Json} {vs : List Value} :
    NamesVariant j variant.name (some given) →
      variants.find? (·.name = variant.name) = some variant → IsFieldList variant.fields given js →
        AreLiterals (variant.fields.map (·.type)) js vs →
          IsLiteral (.enum name variants) j (.enum (.enum name variants) variant.discriminant vs)

/-- Literals denote values of types, one by one. -/
inductive AreLiterals : List Ty → List Json → List Value → Prop
  | nil : AreLiterals [] [] []
  | cons {t : Ty} {ts : List Ty} {j : Json} {js : List Json} {v : Value} {vs : List Value} :
    IsLiteral t j v → AreLiterals ts js vs → AreLiterals (t :: ts) (j :: js) (v :: vs)

end

/-- A literal denotes values of fields. -/
def AreFields (fields : List (Field Ty)) (j : Json) (vs : List Value) : Prop :=
  ∃ js, IsFieldList fields j js ∧ AreLiterals (fields.map (·.type)) js vs

/-- What is given for the fields of a variant denotes values of them; they may be left out if there
are none. -/
def AreVariantFields (fields : List (Field Ty)) : Option Json → List Value → Prop
  | some given, vs => AreFields fields given vs
  | none, vs => fields = [] ∧ vs = []

variable {t owner : Ty} {ts : List Ty} {fields : List (Field Ty)} {variants : List (Variant Ty)}
  {j : Json} {js : List Json} {given : Option Json} {name : String} {v : Value} {vs : List Value}
  {index : Nat}

/-! ## What literals of a form denote -/

/-- No literals denote no values of no types. -/
lemma areLiterals_nil_iff : AreLiterals [] [] vs ↔ [] = vs := by
  refine ⟨fun h => ?_, fun h => ?_⟩
  · cases h
    rfl
  · exact h ▸ .nil

/-- Literals denote values of types exactly if the first does and the others do. -/
lemma areLiterals_cons_iff :
    AreLiterals (t :: ts) (j :: js) vs ↔
      ∃ v, IsLiteral t j v ∧ ∃ others, AreLiterals ts js others ∧ v :: others = vs := by
  refine ⟨fun h => ?_, fun h => ?_⟩
  · cases h with
    | cons first others => exact ⟨_, first, _, others, rfl⟩
  · obtain ⟨v, first, vs, others, rfl⟩ := h
    exact .cons first others

/-- There are as many literals and values as types. -/
lemma AreLiterals.length_eq (h : AreLiterals ts js vs) :
    js.length = ts.length ∧ vs.length = ts.length := by
  induction ts generalizing js vs with
  | nil =>
    cases h
    exact ⟨rfl, rfl⟩
  | cons t ts ih =>
    cases h with
    | cons first others =>
      obtain ⟨sources, values⟩ := ih others
      exact ⟨congrArg Nat.succ sources, congrArg Nat.succ values⟩

/-- A literal other than null denotes a content exactly if it denotes what is present. -/
lemma isLiteral_content_iff {g : Generic} {make : Ty → Option Value → Value}
    (kind : MayBeAbsent g make) (other : j ≠ .null) :
    IsLiteral (.generic g (t :: ts)) j v ↔ ∃ u, IsLiteral t j u ∧ v = make t (some u) := by
  refine ⟨fun h => ?_, fun h => ?_⟩
  · cases h with
    | absent => exact absurd rfl other
    | present kind' _ inner => exact ⟨_, inner, by rw [kind.unique kind']⟩
    | items kind' => cases kind <;> cases kind'
    | tuple => cases kind
  · obtain ⟨u, inner, rfl⟩ := h
    exact .present kind other inner

/-- At a type that may be absent, null denotes the absent value. -/
lemma isLiteral_null_iff {g : Generic} {make : Ty → Option Value → Value}
    (kind : MayBeAbsent g make) : IsLiteral (.generic g (t :: ts)) .null v ↔ v = make t none := by
  refine ⟨fun h => ?_, fun h => h ▸ .absent kind⟩
  cases h with
  | absent kind' => rw [kind.unique kind']
  | present _ other => exact absurd rfl other

/-- A literal denotes items exactly if it is an array of literals of them. -/
lemma isLiteral_items_iff {g : Generic} {make : Ty → List Value → Value} (kind : HasItems g make) :
    IsLiteral (.generic g (t :: ts)) j v ↔
      ∃ vs, (∃ js, j = .array js ∧ AreLiterals (List.replicate js.length t) js vs) ∧
        v = make t vs := by
  refine ⟨fun h => ?_, fun h => ?_⟩
  · cases h with
    | items kind' all => exact ⟨_, ⟨_, rfl, all⟩, by rw [kind.unique kind']⟩
    | absent kind' => cases kind <;> cases kind'
    | present kind' => cases kind <;> cases kind'
    | tuple => cases kind
  · obtain ⟨vs, ⟨js, rfl, all⟩, rfl⟩ := h
    exact .items kind all

/-- A literal denotes a tuple exactly if it is an array of literals of its items, type by type. -/
lemma isLiteral_tuple_iff :
    IsLiteral (.tuple ts) j v ↔ ∃ js, j = .array js ∧ ∃ vs, AreLiterals ts js vs ∧ v = .tuple vs := by
  refine ⟨fun h => ?_, fun h => ?_⟩
  · cases h with
    | tuple all => exact ⟨_, rfl, _, all, rfl⟩
    | absent kind => cases kind
    | present kind => cases kind
    | items kind => cases kind
  · obtain ⟨js, rfl, vs, all, rfl⟩ := h
    exact .tuple all

/-- A literal denotes an array exactly if it is one of literals of the items, as many as the type
says. -/
lemma isLiteral_array_iff {length : UInt64} :
    IsLiteral (.array length t) j v ↔
      ∃ vs, (∃ js, j = .array js ∧ AreLiterals (List.replicate js.length t) js vs) ∧
        vs.length = length.toNat ∧ v = .array t vs := by
  refine ⟨fun h => ?_, fun h => ?_⟩
  · cases h with
    | array size all => exact ⟨_, ⟨_, rfl, all⟩, size, rfl⟩
  · obtain ⟨vs, ⟨js, rfl, all⟩, size, rfl⟩ := h
    exact .array size all

/-- A literal denotes a struct exactly if it denotes values of its fields. -/
lemma isLiteral_struct_iff :
    IsLiteral (.struct name fields) j v ↔
      ∃ vs, AreFields fields j vs ∧ v = .struct (.struct name fields) vs := by
  refine ⟨fun h => ?_, fun h => ?_⟩
  · cases h with
    | struct list all => exact ⟨_, ⟨_, list, all⟩, rfl⟩
  · obtain ⟨vs, ⟨js, list, all⟩, rfl⟩ := h
    exact .struct list all

/-- An object names a variant by its member for the name, and gives the member for the fields. -/
lemma namesVariant_object_iff {members : List (String × Json)} :
    NamesVariant (.object members) name given ↔
      Json.find? "name" members = some (.string name) ∧ Json.find? "fields" members = given := by
  refine ⟨fun h => ?_, fun h => ?_⟩
  · cases h with
    | withFields named => exact ⟨named, rfl⟩
  · obtain ⟨named, rfl⟩ := h
    exact .withFields named

/-- A literal denotes an enum exactly if it names a variant and gives values of its fields. -/
lemma isLiteral_enum_iff :
    IsLiteral (.enum name variants) j v ↔
      ∃ variant given, NamesVariant j variant.name given ∧
        variants.find? (·.name = variant.name) = some variant ∧
        ∃ vs, AreVariantFields variant.fields given vs ∧
          v = .enum (.enum name variants) variant.discriminant vs := by
  refine ⟨fun h => ?_, fun h => ?_⟩
  · cases h with
    | emptyVariant named found empty => exact ⟨_, none, named, found, [], ⟨empty, rfl⟩, rfl⟩
    | variant named found list all => exact ⟨_, _, named, found, _, ⟨_, list, all⟩, rfl⟩
  · obtain ⟨variant, given, named, found, vs, denoted, rfl⟩ := h
    cases given with
    | none =>
      obtain ⟨empty, rfl⟩ := denoted
      exact .emptyVariant named found empty
    | some given =>
      obtain ⟨js, list, all⟩ := denoted
      exact .variant named found list all

/-! ## Steps of reading -/

/-- A context changes refusals alone. -/
@[simp]
lemma inContext_eq_ok_iff {α : Type} {context : String} {x : Except LiteralError α} {a : α} :
    inContext context x = .ok a ↔ x = .ok a :=
  mapError_eq_ok_iff

/-- Items are read exactly if each is. -/
lemma readItems_eq_ok_iff {read : Json → Except LiteralError Value} :
    readItems read owner index js = .ok vs ↔ List.Forall₂ (fun j v => read j = .ok v) js vs := by
  induction js generalizing index vs with
  | nil => cases vs <;> simp [readItems]
  | cons j js ih =>
    simp only [readItems, bind_eq_ok_iff, inContext_eq_ok_iff, ih, pure_eq_ok_iff]
    refine ⟨fun h => ?_, fun h => ?_⟩
    · obtain ⟨v, first, vs, others, rfl⟩ := h
      exact .cons first others
    · cases h with
      | cons first others => exact ⟨_, first, _, others, rfl⟩

/-- Items are taken from an array only. -/
lemma arrayItems_eq_ok_iff : arrayItems owner j = .ok js ↔ j = .array js := by
  cases j <;> simp [arrayItems, refuse]

/-- The check of a length passes exactly for the length that is expected. -/
lemma checkLength_eq_ok_iff {expected actual : Nat} {u : Unit} :
    checkLength owner expected actual = .ok u ↔ actual = expected := by
  simp [checkLength]

/-- Items are read from an array exactly if each is. -/
lemma readArray_eq_ok_iff {read : Json → Except LiteralError Value} :
    readArray read owner j = .ok vs ↔
      ∃ js, j = .array js ∧ List.Forall₂ (fun j v => read j = .ok v) js vs := by
  simp only [readArray, bind_eq_ok_iff, arrayItems_eq_ok_iff, readItems_eq_ok_iff]

/-- The name of a variant and what is given for its fields are read exactly as the literal has them.
-/
lemma readVariantName_eq_ok_iff :
    readVariantName owner j = .ok (name, given) ↔ NamesVariant j name given := by
  refine ⟨fun e => ?_, fun h => ?_⟩
  · unfold readVariantName at e
    split at e
    · obtain ⟨rfl, rfl⟩ := Prod.mk.inj (Except.ok.inj e)
      exact .alone
    · split at e
      · next found =>
        obtain ⟨rfl, rfl⟩ := Prod.mk.inj (Except.ok.inj e)
        exact .withFields found
      · cases e
    · cases e
  · cases h with
    | alone => rfl
    | withFields found => simp [readVariantName, found]

/-- No unknown member is found exactly if all members name fields. -/
lemma find?_unknown_eq_none_iff {members : List (String × Json)} :
    members.find? (fun (key, _) => !fields.any (·.name = key)) = none ↔
      ∀ member ∈ members, member.1 ∈ fields.map (·.name) := by
  simp

/-- Fields come from an object whose members all name fields, or from an array of their number. -/
lemma fieldSource_eq_ok_iff {source : FieldSource} :
    fieldSource owner fields j = .ok source ↔
      (∃ members, j = .object members ∧ (∀ member ∈ members, member.1 ∈ fields.map (·.name)) ∧
        source = .byName members) ∨
      ∃ js, j = .array js ∧ js.length = fields.length ∧ source = .byPosition js := by
  cases j with
  | object members =>
    simp only [Json.object.injEq, exists_eq_left', reduceCtorEq, false_and, exists_false, or_false,
      ← find?_unknown_eq_none_iff]
    rw [fieldSource]
    cases members.find? fun (key, _) => !fields.any (·.name = key) with
    | some member => simp
    | none => simp [eq_comm]
  | array js =>
    by_cases size : js.length = fields.length <;> simp [fieldSource, checkLength, size, eq_comm]
  | _ => simp [fieldSource, refuse]

/-! ## Reading gives what literals denote -/

/-- Reading at a type gives a value exactly for its literals. -/
def ReadsLiterals (t : Ty) : Prop :=
  ∀ j v, ofJson t j = .ok v ↔ IsLiteral t j v

/-- Where a type reads its literals, one is read as a value exactly if it denotes it. -/
lemma ReadsLiterals.iff (h : ReadsLiterals t) : ofJson t j = .ok v ↔ IsLiteral t j v :=
  h j v

/-- Where a type reads its literals, an array of them is read as the values that they denote. -/
lemma readArray_ofJson_eq_ok_iff (h : ReadsLiterals t) :
    readArray (fun item => ofJson t item) owner j = .ok vs ↔
      ∃ js, j = .array js ∧ AreLiterals (List.replicate js.length t) js vs := by
  have items : ∀ js, List.Forall₂ (fun j v => ofJson t j = .ok v) js vs ↔
      AreLiterals (List.replicate js.length t) js vs := by
    intro js
    induction js generalizing vs with
    | nil => simp [areLiterals_nil_iff, eq_comm]
    | cons j js ih =>
      refine ⟨fun all => ?_, fun all => ?_⟩
      · cases all with
        | cons first others => exact .cons (h.iff.mp first) (ih.mp others)
      · cases all with
        | cons first others => exact .cons (h.iff.mpr first) (ih.mpr others)
  simp only [readArray_eq_ok_iff, items]

/-- Where types read their literals, as many literals are read as the values that they denote. -/
lemma ofJsonAll_eq_ok_iff (h : ∀ t ∈ ts, ReadsLiterals t) (size : js.length = ts.length) :
    ofJsonAll owner index ts js = .ok vs ↔ AreLiterals ts js vs := by
  induction ts generalizing index js vs with
  | nil =>
    obtain rfl := List.length_eq_zero_iff.mp size
    simp [ofJsonAll, areLiterals_nil_iff]
  | cons t ts ih =>
    cases js with
    | nil => simp at size
    | cons j js =>
      obtain ⟨here, below⟩ := List.forall_mem_cons.mp h
      simp only [ofJsonAll, bind_eq_ok_iff, inContext_eq_ok_iff, here.iff,
        ih below (Nat.succ.inj size), pure_eq_ok_iff, areLiterals_cons_iff]

/-- Where the types of fields read their literals, these are read by position as what they
denote. -/
lemma ofJsonFields_byPosition_eq_ok_iff (h : ∀ field ∈ fields, ReadsLiterals field.type)
    (size : js.length = fields.length) :
    ofJsonFields owner (.byPosition js) fields = .ok vs ↔
      AreLiterals (fields.map (·.type)) js vs := by
  induction fields generalizing js vs with
  | nil =>
    obtain rfl := List.length_eq_zero_iff.mp size
    simp [ofJsonFields, areLiterals_nil_iff]
  | cons field fields ih =>
    cases js with
    | nil => simp at size
    | cons j js =>
      obtain ⟨here, below⟩ := List.forall_mem_cons.mp h
      simp only [ofJsonFields, FieldSource.next, ok_bind, bind_eq_ok_iff, inContext_eq_ok_iff,
        here.iff, ih below (Nat.succ.inj size), pure_eq_ok_iff, List.map_cons, areLiterals_cons_iff]

/-- Where the types of fields read their literals, these are read by name as what they denote. -/
lemma ofJsonFields_byName_eq_ok_iff {members : List (String × Json)}
    (h : ∀ field ∈ fields, ReadsLiterals field.type) :
    ofJsonFields owner (.byName members) fields = .ok vs ↔
      ∃ js, List.Forall₂ (fun field j => Json.find? field.name members = some j) fields js ∧
        AreLiterals (fields.map (·.type)) js vs := by
  induction fields generalizing vs with
  | nil => simp [ofJsonFields, areLiterals_nil_iff]
  | cons field fields ih =>
    obtain ⟨here, below⟩ := List.forall_mem_cons.mp h
    cases found : Json.find? field.name members with
    | none => simp [ofJsonFields, FieldSource.next, found, List.forall₂_cons_left_iff]
    | some j =>
      simp only [ofJsonFields, FieldSource.next, found, ok_bind, bind_eq_ok_iff, ih below,
        inContext_eq_ok_iff, here.iff, pure_eq_ok_iff]
      refine ⟨fun h => ?_, fun h => ?_⟩
      · obtain ⟨v, first, vs, ⟨js, given, others⟩, rfl⟩ := h
        exact ⟨j :: js, .cons found given, .cons first others⟩
      · obtain ⟨_, given, all⟩ := h
        cases given with
        | cons given others =>
          obtain rfl := Option.some.inj (found.symm.trans given)
          obtain ⟨v, first, vs, rest, rfl⟩ := areLiterals_cons_iff.mp all
          exact ⟨v, first, vs, ⟨_, others, rest⟩, rfl⟩

/-- A literal is read as values of fields exactly if it denotes them. -/
lemma readFieldList_eq_ok_iff (h : ∀ field ∈ fields, ReadsLiterals field.type) :
    (fieldSource owner fields j >>= fun source => ofJsonFields owner source fields) = .ok vs ↔
      AreFields fields j vs := by
  rw [bind_eq_ok_iff]
  refine ⟨fun e => ?_, fun e => ?_⟩
  · obtain ⟨source, chosen, e⟩ := e
    rcases fieldSource_eq_ok_iff.mp chosen with
      ⟨members, rfl, known, rfl⟩ | ⟨js, rfl, size, rfl⟩
    · obtain ⟨js, given, all⟩ := (ofJsonFields_byName_eq_ok_iff h).mp e
      exact ⟨js, .byName known given, all⟩
    · exact ⟨js, .byPosition size, (ofJsonFields_byPosition_eq_ok_iff h size).mp e⟩
  · obtain ⟨js, list, all⟩ := e
    cases list with
    | byName known given =>
      refine ⟨_, fieldSource_eq_ok_iff.mpr (.inl ⟨_, rfl, known, rfl⟩), ?_⟩
      exact (ofJsonFields_byName_eq_ok_iff h).mpr ⟨js, given, all⟩
    | byPosition size =>
      refine ⟨_, fieldSource_eq_ok_iff.mpr (.inr ⟨js, rfl, size, rfl⟩), ?_⟩
      exact (ofJsonFields_byPosition_eq_ok_iff h size).mpr all

/-- What is given for the fields of a variant is read as values exactly if it denotes them. -/
lemma readVariantFields_eq_ok_iff (h : ∀ field ∈ fields, ReadsLiterals field.type) :
    (variantSource owner name fields given >>= fun source => ofJsonFields owner source fields) =
        .ok vs ↔
      AreVariantFields fields given vs := by
  cases given with
  | none =>
    cases fields with
    | nil => simp [variantSource, ofJsonFields, AreVariantFields, eq_comm]
    | cons field fields => simp [variantSource, AreVariantFields]
  | some j => exact readFieldList_eq_ok_iff h

/-- A variant is read at the first one with its name. -/
lemma ofJsonVariant_eq_ok_iff :
    ofJsonVariant owner name given variants = .ok v ↔
      ∃ variant, variants.find? (·.name = name) = some variant ∧ ∃ vs,
        (variantSource owner name variant.fields given >>= fun source =>
          ofJsonFields owner source variant.fields) = .ok vs ∧
        v = .enum owner variant.discriminant vs := by
  induction variants with
  | nil => simp [ofJsonVariant]
  | cons variant variants ih =>
    by_cases h : variant.name = name
    · have unfolded : ofJsonVariant owner name given (variant :: variants) =
          (variantSource owner name variant.fields given >>= fun source =>
            ofJsonFields owner source variant.fields) >>= fun vs =>
              .ok (.enum owner variant.discriminant vs) := by
        rw [ofJsonVariant, if_pos h, bind_assoc]
        rfl
      rw [unfolded, bind_eq_ok_iff, List.find?_cons_of_pos (by simpa using h)]
      simp [eq_comm]
    · rw [ofJsonVariant, if_neg h, ih, List.find?_cons_of_neg (by simpa using h)]

/-- A primitive type reads its literals. -/
lemma readsLiterals_primitive (p : Primitive) : ReadsLiterals (.primitive p) := by
  intro j v
  refine ⟨fun e => .primitive e, fun literal => ?_⟩
  cases literal with
  | primitive e => exact e

/-- Without its parameter a generic has no values. -/
lemma readsLiterals_noParameter {g : Generic} (h : g ≠ .tuple) : ReadsLiterals (.generic g []) := by
  intro j v
  refine ⟨fun e => ?_, fun literal => ?_⟩
  · cases g with
    | tuple => exact absurd rfl h
    | _ => simp [ofJson] at e
  · cases literal with
    | tuple => exact absurd rfl h

/-- A type that may be absent reads its literals if that of the content does. -/
lemma readsLiterals_mayBeAbsent {g : Generic} {make : Ty → Option Value → Value}
    (kind : MayBeAbsent g make) (h : ReadsLiterals t) : ReadsLiterals (.generic g (t :: ts)) := by
  intro j v
  -- `null` is the absent value, every other literal is one of the inner type.
  by_cases null : j = .null
  · subst null
    have unfolded : ofJson (.generic g (t :: ts)) .null = .ok (make t none) := by cases kind <;> rfl
    rw [unfolded, isLiteral_null_iff kind, Except.ok.injEq, eq_comm]
  · have unfolded :
        ofJson (.generic g (t :: ts)) j = ofJson t j >>= fun u => .ok (make t (some u)) := by
      cases kind <;> cases j <;> first | rfl | exact absurd rfl null
    simp only [unfolded, bind_eq_ok_iff, h.iff, isLiteral_content_iff kind null, Except.ok.injEq,
      eq_comm (a := v)]

/-- A type of several items reads its literals if that of the items does. -/
lemma readsLiterals_hasItems {g : Generic} {make : Ty → List Value → Value}
    (kind : HasItems g make) (h : ReadsLiterals t) : ReadsLiterals (.generic g (t :: ts)) := by
  intro j v
  have unfolded : ofJson (.generic g (t :: ts)) j =
      readArray (fun item => ofJson t item) (.generic g (t :: ts)) j >>=
        fun vs => .ok (make t vs) := by
    cases kind <;> rfl
  simp only [unfolded, bind_eq_ok_iff, readArray_ofJson_eq_ok_iff h, isLiteral_items_iff kind,
    Except.ok.injEq, eq_comm (a := v)]

/-- A tuple reads its literals if the types of its items do. -/
lemma readsLiterals_tuple (h : ∀ t ∈ ts, ReadsLiterals t) : ReadsLiterals (.tuple ts) := by
  intro j v
  simp only [ofJson, bind_eq_ok_iff, arrayItems_eq_ok_iff, checkLength_eq_ok_iff, pure_eq_ok_iff,
    isLiteral_tuple_iff]
  refine ⟨fun e => ?_, fun literal => ?_⟩
  · obtain ⟨js, rfl, _, size, vs, e, rfl⟩ := e
    exact ⟨js, rfl, vs, (ofJsonAll_eq_ok_iff h size).mp e, rfl⟩
  · obtain ⟨js, rfl, vs, all, rfl⟩ := literal
    have size := all.length_eq.1
    exact ⟨js, rfl, (), size, vs, (ofJsonAll_eq_ok_iff h size).mpr all, rfl⟩

/-- An array reads its literals if the type of its items does. -/
lemma readsLiterals_array {length : UInt64} (h : ReadsLiterals t) :
    ReadsLiterals (.array length t) := by
  intro j v
  simp only [ofJson, bind_eq_ok_iff, readArray_ofJson_eq_ok_iff h, checkLength_eq_ok_iff,
    pure_eq_ok_iff, isLiteral_array_iff, exists_const, eq_comm (a := v)]

/-- A struct reads its literals if the types of its fields do. -/
lemma readsLiterals_struct (h : ∀ field ∈ fields, ReadsLiterals field.type) :
    ReadsLiterals (.struct name fields) := by
  intro j v
  have unfolded : ofJson (.struct name fields) j =
      (fieldSource (.struct name fields) fields j >>= fun source =>
        ofJsonFields (.struct name fields) source fields) >>= fun vs =>
          .ok (.struct (.struct name fields) vs) := by
    rw [ofJson, bind_assoc]
    rfl
  rw [unfolded, bind_eq_ok_iff, isLiteral_struct_iff]
  simp only [readFieldList_eq_ok_iff h, Except.ok.injEq, eq_comm (a := v)]

/-- An enum reads its literals if the types of the fields of its variants do. -/
lemma readsLiterals_enum
    (h : ∀ variant ∈ variants, ∀ field ∈ variant.fields, ReadsLiterals field.type) :
    ReadsLiterals (.enum name variants) := by
  intro j v
  rw [ofJson, bind_eq_ok_iff, isLiteral_enum_iff]
  simp only [Prod.exists, readVariantName_eq_ok_iff, ofJsonVariant_eq_ok_iff]
  refine ⟨fun e => ?_, fun literal => ?_⟩
  · obtain ⟨n, given, named, variant, found, vs, e, rfl⟩ := e
    have member := List.mem_of_find?_eq_some found
    obtain rfl : variant.name = n := by simpa using List.find?_some found
    exact ⟨variant, given, named, found, vs,
      (readVariantFields_eq_ok_iff (h variant member)).mp e, rfl⟩
  · obtain ⟨variant, given, named, found, vs, denoted, rfl⟩ := literal
    have member := List.mem_of_find?_eq_some found
    exact ⟨variant.name, given, named, variant, found, vs,
      (readVariantFields_eq_ok_iff (h variant member)).mpr denoted, rfl⟩

/-- A literal is read as a value exactly if it denotes it. -/
theorem ofJson_eq_ok_iff : ofJson t j = .ok v ↔ IsLiteral t j v := by
  have reads : ReadsLiterals t := by
    induction t with
    | primitive p => exact readsLiterals_primitive p
    | generic g params ih =>
      cases g with
      | tuple => exact readsLiterals_tuple ih
      | option =>
        cases params with
        | nil => exact readsLiterals_noParameter (by decide)
        | cons t ts => exact readsLiterals_mayBeAbsent .option (ih t (by simp))
      | optional =>
        cases params with
        | nil => exact readsLiterals_noParameter (by decide)
        | cons t ts => exact readsLiterals_mayBeAbsent .optional (ih t (by simp))
      | list =>
        cases params with
        | nil => exact readsLiterals_noParameter (by decide)
        | cons t ts => exact readsLiterals_hasItems .list (ih t (by simp))
      | variadic =>
        cases params with
        | nil => exact readsLiterals_noParameter (by decide)
        | cons t ts => exact readsLiterals_hasItems .variadic (ih t (by simp))
    | array length t ih => exact readsLiterals_array ih
    | struct name fields ih => exact readsLiterals_struct ih
    | enum name variants ih => exact readsLiterals_enum ih
  exact @reads j v

end ContractCalls.Value

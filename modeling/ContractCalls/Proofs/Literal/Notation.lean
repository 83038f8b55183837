import ContractCalls.Proofs.Literal.RoundTrip

/-!
# Fields by name and by position

The fields of a struct or of a variant are given by position, in an array, or by name, in an object
whose members are in any order. `Renotes` is one change of notation, anywhere in a literal of a type:
a list of fields is given by name instead of by position, or the members of an object are put in
another order. A literal denotes the same values before and after it (`Renotes.isLiteral_iff`), so any
number of changes, in both directions, makes no difference to what is read (`ofJson_renotes_iff`).
-/

namespace ContractCalls.Value

mutual

/-- Of two literals of a type the second is the first with one list of fields by name instead of by
position, or with the members of one object in another order. -/
inductive Renotes : Ty → Json → Json → Prop
  | content {g : Generic} {make : Ty → Option Value → Value} {t : Ty} {ts : List Ty}
      {j j' : Json} :
    MayBeAbsent g make → Renotes t j j' → Renotes (.generic g (t :: ts)) j j'
  | item {g : Generic} {make : Ty → List Value → Value} {t : Ty} {ts : List Ty}
      {front back : List Json} {j j' : Json} :
    HasItems g make → Renotes t j j' →
      Renotes (.generic g (t :: ts)) (.array (front ++ j :: back)) (.array (front ++ j' :: back))
  | tupleItem {before behind : List Ty} {t : Ty} {front back : List Json} {j j' : Json} :
    front.length = before.length → Renotes t j j' →
      Renotes (.tuple (before ++ t :: behind)) (.array (front ++ j :: back))
        (.array (front ++ j' :: back))
  | arrayItem {length : UInt64} {t : Ty} {front back : List Json} {j j' : Json} :
    Renotes t j j' →
      Renotes (.array length t) (.array (front ++ j :: back)) (.array (front ++ j' :: back))
  | struct {name : String} {fields : List (Field Ty)} {j j' : Json} :
    RenotesFields fields j j' → Renotes (.struct name fields) j j'
  | variant {name : String} {variants : List (Variant Ty)} {variant : Variant Ty}
      {front back : List (String × Json)} {given given' : Json} :
    Json.find? "name" (front ++ ("fields", given) :: back) = some (.string variant.name) →
      variants.find? (·.name = variant.name) = some variant →
        RenotesFields variant.fields given given' →
          Renotes (.enum name variants) (.object (front ++ ("fields", given) :: back))
            (.object (front ++ ("fields", given') :: back))
  | reordered {t : Ty} {members members' : List (String × Json)} :
    (members.map (·.1)).Nodup → members.Perm members' →
      Renotes t (.object members) (.object members')

/-- Of two literals for a list of fields the second is the first with this list, or one inside it,
by name instead of by position, or with the members of one object in another order. -/
inductive RenotesFields : List (Field Ty) → Json → Json → Prop
  | byName {fields : List (Field Ty)} {js : List Json} {members : List (String × Json)} :
    js.length = fields.length → members.Perm ((fields.map (·.name)).zip js) →
      RenotesFields fields (.array js) (.object members)
  | position {before behind : List (Field Ty)} {field : Field Ty} {front back : List Json}
      {j j' : Json} :
    front.length = before.length → Renotes field.type j j' →
      RenotesFields (before ++ field :: behind) (.array (front ++ j :: back))
        (.array (front ++ j' :: back))
  | member {fields : List (Field Ty)} {field : Field Ty} {front back : List (String × Json)}
      {j j' : Json} :
    field ∈ fields → Renotes field.type j j' →
      RenotesFields fields (.object (front ++ (field.name, j) :: back))
        (.object (front ++ (field.name, j') :: back))
  | inOtherOrder {fields : List (Field Ty)} {members members' : List (String × Json)} :
    (members.map (·.1)).Nodup → members.Perm members' →
      RenotesFields fields (.object members) (.object members')

end

variable {t : Ty} {ts before behind : List Ty} {name : String} {fields : List (Field Ty)}
  {variants : List (Variant Ty)} {j j' : Json} {js front back : List Json}
  {members members' : List (String × Json)} {v : Value} {vs : List Value}

/-- An object that names a variant denotes a value of it, by what it gives for the fields. -/
lemma isLiteral_variant_iff {variant : Variant Ty}
    (names : Json.find? "name" members = some (.string variant.name))
    (found : variants.find? (·.name = variant.name) = some variant) :
    IsLiteral (.enum name variants) (.object members) v ↔
      ∃ vs, AreVariantFields variant.fields (Json.find? "fields" members) vs ∧
        v = .enum (.enum name variants) variant.discriminant vs := by
  simp only [isLiteral_enum_iff, namesVariant_object_iff]
  refine ⟨fun h => ?_, fun h => ?_⟩
  · obtain ⟨other, _, ⟨names', rfl⟩, found', denoted⟩ := h
    obtain same : variant.name = other.name := by simpa [names] using names'
    rw [same, found'] at found
    obtain rfl := Option.some.inj found
    exact denoted
  · exact ⟨variant, _, ⟨names, rfl⟩, found, h⟩

/-! ## Fields in an array and in an object -/

/-- An array denotes values of fields exactly if its items are as many and denote them by
position. -/
lemma areFields_array_iff :
    AreFields fields (.array js) vs ↔
      js.length = fields.length ∧ AreLiterals (fields.map (·.type)) js vs := by
  refine ⟨fun h => ?_, fun h => ⟨js, .byPosition h.1, h.2⟩⟩
  obtain ⟨_, list, all⟩ := h
  cases list with
  | byPosition size => exact ⟨size, all⟩

/-- The literals that are found for fields denote values of them exactly if each does. -/
lemma exists_found_iff :
    (∃ js, List.Forall₂ (fun field j => Json.find? field.name members = some j) fields js ∧
      AreLiterals (fields.map (·.type)) js vs) ↔
      List.Forall₂ (fun field v => ∃ j, Json.find? field.name members = some j ∧
        IsLiteral field.type j v) fields vs := by
  induction fields generalizing vs with
  | nil => simp [areLiterals_nil_iff, eq_comm]
  | cons field fields ih =>
    refine ⟨fun h => ?_, fun h => ?_⟩
    · obtain ⟨_, given, all⟩ := h
      cases given with
      | cons found others =>
        obtain ⟨v, denoted, vs, rest, rfl⟩ := areLiterals_cons_iff.mp all
        exact .cons ⟨_, found, denoted⟩ (ih.mp ⟨_, others, rest⟩)
    · cases h with
      | cons here below =>
        obtain ⟨j, found, denoted⟩ := here
        obtain ⟨js, others, rest⟩ := ih.mpr below
        exact ⟨j :: js, .cons found others, .cons denoted rest⟩

/-- An object denotes values of fields exactly if it has no other members and one for each field
that denotes its value. -/
lemma areFields_object_iff :
    AreFields fields (.object members) vs ↔
      (∀ key ∈ members.map (·.1), key ∈ fields.map (·.name)) ∧
      List.Forall₂ (fun field v => ∃ j, Json.find? field.name members = some j ∧
        IsLiteral field.type j v) fields vs := by
  rw [← exists_found_iff, List.forall_mem_map]
  refine ⟨fun h => ?_, fun h => ?_⟩
  · obtain ⟨js, list, all⟩ := h
    cases list with
    | byName known found => exact ⟨known, js, found, all⟩
  · obtain ⟨known, js, found, all⟩ := h
    exact ⟨js, .byName known found, all⟩

/-- Fields may be given by position or by name, in any order. -/
lemma areFields_byName_iff (distinct : (fields.map (·.name)).Nodup)
    (size : js.length = fields.length) (perm : members.Perm ((fields.map (·.name)).zip js)) :
    AreFields fields (.array js) vs ↔ AreFields fields (.object members) vs := by
  have list := isFieldList_of_perm distinct size perm
  rw [areFields_array_iff, and_iff_right size]
  refine ⟨fun all => ⟨js, list, all⟩, fun h => ?_⟩
  obtain ⟨js', list', all⟩ := h
  cases list with
  | byName _ found =>
    cases list' with
    | byName _ found' =>
      -- Under one name one literal is found.
      obtain rfl : js = js' := by
        refine List.right_unique_forall₂' ?_ found found'
        intro field j j' h h'
        exact Option.some.inj (h.symm.trans h')
      exact all

/-- Members of an object with distinct names denote the same values of fields in any order. -/
lemma areFields_reordered_iff (distinct : (members.map (·.1)).Nodup)
    (perm : members.Perm members') :
    AreFields fields (.object members) vs ↔ AreFields fields (.object members') vs := by
  rw [areFields_object_iff, areFields_object_iff]
  have keys (key : String) : key ∈ members.map (·.1) ↔ key ∈ members'.map (·.1) :=
    (perm.map _).mem_iff
  simp only [keys, Json.find?, lookup_eq_of_perm distinct perm]

/-! ## Changes of notation -/

/-- Where the content of a member is replaced, a name finds what it found before, or the new content
instead of the old one. -/
lemma find?_replaced (key k : String) (j j' : Json) (front back : List (String × Json)) :
    Json.find? key (front ++ (k, j) :: back) = Json.find? key (front ++ (k, j') :: back) ∨
      key = k ∧ Json.find? key (front ++ (k, j) :: back) = some j ∧
        Json.find? key (front ++ (k, j') :: back) = some j' := by
  simp only [Json.find?, List.lookup_append, List.lookup_cons]
  cases front.lookup key with
  | some other => exact .inl rfl
  | none =>
    by_cases h : key = k
    · exact .inr (by simp [h])
    · exact .inl (by simp [beq_false_of_ne h])

/-- A literal among others may be replaced by one that denotes the same value. -/
lemma areLiterals_replaced_iff (size : front.length = before.length)
    (same : ∀ v, IsLiteral t j v ↔ IsLiteral t j' v) :
    AreLiterals (before ++ t :: behind) (front ++ j :: back) vs ↔
      AreLiterals (before ++ t :: behind) (front ++ j' :: back) vs := by
  induction before generalizing front vs with
  | nil =>
    obtain rfl := List.eq_nil_of_length_eq_zero size
    simp only [List.nil_append, areLiterals_cons_iff, same]
  | cons s before ih =>
    cases front with
    | nil => simp at size
    | cons first front =>
      simp only [List.cons_append, areLiterals_cons_iff, ih (Nat.succ.inj size)]

/-- An item may be replaced by one that denotes the same value. -/
lemma areItems_replaced_iff (same : ∀ v, IsLiteral t j v ↔ IsLiteral t j' v) :
    AreLiterals (List.replicate (front ++ j :: back).length t) (front ++ j :: back) vs ↔
      AreLiterals (List.replicate (front ++ j' :: back).length t) (front ++ j' :: back) vs := by
  have types (k : Json) : List.replicate (front ++ k :: back).length t =
      List.replicate front.length t ++ t :: List.replicate back.length t := by
    simp [List.replicate_add, List.replicate_succ]
  rw [types, types]
  exact areLiterals_replaced_iff (by simp) same

/-- Two relations that agree on the members of a list relate the same lists to it. -/
lemma forall₂_iff_of_mem {α β : Type} {R S : α → β → Prop} {as : List α} {bs : List β}
    (h : ∀ a ∈ as, ∀ b, R a b ↔ S a b) : List.Forall₂ R as bs ↔ List.Forall₂ S as bs := by
  induction as generalizing bs with
  | nil => simp
  | cons a as ih =>
    rw [List.forall_mem_cons] at h
    cases bs <;> simp [h.1, ih h.2]

/-- The literal of a field may be replaced by one that denotes the same value. -/
lemma areFields_replaced_iff {field : Field Ty} {front back : List (String × Json)}
    (distinct : (fields.map (·.name)).Nodup) (member : field ∈ fields)
    (same : ∀ v, IsLiteral field.type j v ↔ IsLiteral field.type j' v) :
    AreFields fields (.object (front ++ (field.name, j) :: back)) vs ↔
      AreFields fields (.object (front ++ (field.name, j') :: back)) vs := by
  rw [areFields_object_iff, areFields_object_iff]
  refine and_congr (by rw [List.map_append, List.map_append]; rfl) ?_
  refine forall₂_iff_of_mem fun other hother v => ?_
  rcases find?_replaced other.name field.name j j' front back with kept | ⟨names, found, found'⟩
  · rw [kept]
  · -- The field of the name is the only one.
    obtain rfl : other = field := List.inj_on_of_nodup_map distinct hother member names
    simp [found, found', same]

/-- No object denotes a value of a primitive type. -/
lemma not_isLiteral_primitive_object {p : Primitive} :
    ¬IsLiteral (.primitive p) (.object members) v := by
  intro h
  cases h with
  | primitive e =>
    cases p <;>
      simp [ofJsonPrimitive, integerText?, readKey, readHex, readText, refuse, require,
        Except.map] at e

/-- An object with distinct names denotes the same value in any order of its members. -/
lemma IsLiteral.reordered (h : IsLiteral t (.object members) v)
    (distinct : (members.map (·.1)).Nodup) (perm : members.Perm members') :
    IsLiteral t (.object members') v := by
  induction t generalizing v with
  | primitive p => exact absurd h not_isLiteral_primitive_object
  | generic g params ih =>
    cases h with
    | present kind _ inner => exact .present kind (by simp) (ih _ (by simp) inner)
  | array length t ih => cases h
  | struct name fields ih =>
    rw [isLiteral_struct_iff] at h ⊢
    simpa only [areFields_reordered_iff distinct perm] using h
  | enum name variants ih =>
    simp only [isLiteral_enum_iff, namesVariant_object_iff, Json.find?,
      lookup_eq_of_perm distinct perm] at h ⊢
    exact h

/-- No change of notation concerns the literal of an absent value. -/
lemma Renotes.ne_null (h : Renotes t j j') : j ≠ .null ∧ j' ≠ .null := by
  induction h using Renotes.rec (motive_2 := fun _ j j' _ => j ≠ .null ∧ j' ≠ .null) with
  | content kind h ih => exact ih
  | struct h ih => exact ih
  | _ => simp

/-- A change of notation keeps what a literal denotes. -/
theorem Renotes.isLiteral_iff (h : Renotes t j j') (distinct : t.All (·.hasDistinctFields))
    (v : Value) : IsLiteral t j v ↔ IsLiteral t j' v := by
  -- The second motive says the same of literals for fields.
  induction h using Renotes.rec
    (motive_2 := fun fields j j' _ => (fields.map (·.name)).Nodup →
      (∀ u ∈ fields.map (·.type), u.All (·.hasDistinctFields)) →
        ∀ vs, AreFields fields j vs ↔ AreFields fields j' vs) generalizing v with
  | content kind h ih =>
    have same := ih (distinct.param (by simp))
    simp only [isLiteral_content_iff kind h.ne_null.1, isLiteral_content_iff kind h.ne_null.2, same]
  | item kind h ih =>
    have same := ih (distinct.param (by simp))
    simp only [isLiteral_items_iff kind, Json.array.injEq, exists_eq_left',
      areItems_replaced_iff same]
  | tupleItem size h ih =>
    have same := ih (distinct.param (by simp))
    simp only [isLiteral_tuple_iff, Json.array.injEq, exists_eq_left',
      areLiterals_replaced_iff size same]
  | arrayItem h ih =>
    have same := ih distinct.element
    simp only [isLiteral_array_iff, Json.array.injEq, exists_eq_left', areItems_replaced_iff same]
  | struct h ih =>
    have same := ih (of_decide_eq_true distinct.root) distinct.fieldType
    simp only [isLiteral_struct_iff, same]
  | @variant name variants variant front back given given' names found h ih =>
    have member := List.mem_of_find?_eq_some found
    have same := ih (Ty.nodup_variantFields distinct.root member) (distinct.variantType member)
    have names' : Json.find? "name" (front ++ ("fields", given') :: back) =
        some (.string variant.name) := by
      rcases find?_replaced "name" "fields" given given' front back with kept | ⟨other, -, -⟩
      · rw [← kept, names]
      · exact absurd other (by decide)
    rw [isLiteral_variant_iff names found, isLiteral_variant_iff names' found]
    rcases find?_replaced "fields" "fields" given given' front back with kept | ⟨-, here, here'⟩
    · rw [kept]
    · simp only [here, here', AreVariantFields, same]
  | reordered unique perm =>
    have unique' := (perm.map Prod.fst).nodup_iff.mp unique
    exact ⟨fun h => h.reordered unique perm, fun h => h.reordered unique' perm.symm⟩
  | byName size perm =>
    rename_i names _ vs
    exact areFields_byName_iff names size perm
  | @position before behind field front back j j' size h ih =>
    rename_i _ below vs
    have same := ih (below field.type (by simp))
    have types : (before ++ field :: behind).map (·.type) =
        before.map (·.type) ++ field.type :: behind.map (·.type) := by simp
    have counts (k : Json) : (front ++ k :: back).length = front.length + back.length + 1 := by
      simp only [List.length_append, List.length_cons, Nat.add_assoc]
    simp only [areFields_array_iff, types, counts]
    rw [areLiterals_replaced_iff (by simpa using size) same]
  | member hfield h ih =>
    rename_i names below vs
    exact areFields_replaced_iff names hfield (ih (below _ (List.mem_map_of_mem hfield)))
  | inOtherOrder unique perm => exact areFields_reordered_iff unique perm

/-- Fields by name and fields by position are read alike, for a type with distinct names in every
struct and variant. Literals that differ in any number of changes of notation, at any depth, are
read as the same value, or neither is read. -/
theorem ofJson_renotes_iff (distinct : t.All (·.hasDistinctFields))
    (h : Relation.EqvGen (Renotes t) j j') (v : Value) :
    ofJson t j = .ok v ↔ ofJson t j' = .ok v := by
  induction h with
  | rel j j' step =>
    rw [ofJson_eq_ok_iff, ofJson_eq_ok_iff]
    exact step.isLiteral_iff distinct v
  | refl j => rfl
  | symm j j' _ ih => exact ih.symm
  | trans j k j' _ _ ih ih' => exact ih.trans ih'

/-- In a list the fields of a variant are given by position, or by name and those of a struct inside
it too, in the other order. -/
theorem ofJson_renotes_shape :
    let flag := Ty.primitive .bool
    let pair := Ty.struct "Pair" [⟨"left", flag⟩, ⟨"right", flag⟩]
    let dot := Variant.mk 0 "Dot" [⟨"at", pair⟩]
    let shape := Ty.enum "Shape" [dot]
    let kind := ("name", Json.string "Dot")
    let left := Json.bool true
    let right := Json.bool false
    let j := Json.array [.object [kind, ("fields", .array [.array [left, right]])]]
    let j' := Json.array [.object [kind,
      ("fields", .object [("at", .object [("right", right), ("left", left)])])]]
    let v := list shape [enum shape 0 [struct pair [bool true, bool false]]]
    ofJson (.list shape) j = .ok v ∧ ofJson (.list shape) j' = .ok v := by
  intro flag pair dot shape kind left right j j' v
  let k := Json.array [.object [kind, ("fields", .object [("at", .array [left, right])])]]
  have inList {i i' : Json} (h : Renotes shape i i') :
      Renotes (.list shape) (.array [i]) (.array [i']) :=
    @Renotes.item _ _ _ [] [] [] _ _ .list h
  have inVariant {i i' : Json} (h : RenotesFields dot.fields i i') :
      Renotes shape (.object [kind, ("fields", i)]) (.object [kind, ("fields", i')]) :=
    @Renotes.variant "Shape" [dot] dot [kind] [] _ _ rfl rfl h
  have outer : Renotes (.list shape) j k := inList (inVariant (.byName rfl (.refl _)))
  have pairs : Renotes pair (.array [left, right])
      (.object [("right", right), ("left", left)]) :=
    .struct (.byName rfl (.swap _ _ _))
  have inner : Renotes (.list shape) k j' :=
    inList (inVariant (@RenotesFields.member _ ⟨"at", pair⟩ [] [] _ _ List.mem_cons_self pairs))
  have both : Relation.EqvGen (Renotes (.list shape)) j j' :=
    .trans _ _ _ (.rel _ _ outer) (.rel _ _ inner)
  have e : ofJson (.list shape) j = .ok v := rfl
  exact ⟨e, (ofJson_renotes_iff (by decide) both v).mp e⟩

end ContractCalls.Value

import ContractCalls.Proofs.Value.Conforms

/-!
# The types declared inside a value

A place in a value is the way to it from the root, by the indices of parts. `nodeAt?` gives the value
that stands there, and `typeAt?` the type that the type of the whole value declares for it. The main
statement is that conformance leaves no choice: a value conforms to at most one type, the one it
reports, and so does everything inside it for which a type is declared (`type_unique_of_conforms`).

A type is declared for every place except inside a struct or an enum that claims to be of a primitive
type: `partType?_of_conforms` says so of one step and `typeAt?_of_conforms` of the whole way.
-/

namespace ContractCalls.Value

/-- The value at a place in a value. -/
def nodeAt? (v : Value) : List Nat → Option Value
  | [] => some v
  | i :: path => v.parts[i]?.bind (nodeAt? · path)

/-- The type that a type declares for the part of one of its values with an index. For an enum it
depends on the variant that the value is of. -/
def partType? : Ty → Value → Nat → Option Ty
  | .primitive _, _, _ => none
  | .generic .tuple params, _, i => params[i]?
  | .generic _ params, _, _ => params.head?
  | .array _ element, _, _ => some element
  | .struct _ fields, _, i => (fields.map (·.type))[i]?
  | .enum _ variants, .enum _ discriminant _, i =>
    (variants.find? (·.discriminant = discriminant)).bind fun variant =>
      (variant.fields.map (·.type))[i]?
  | .enum _ _, _, _ => none

/-- The type that a type declares for a place in one of its values. -/
def typeAt? (t : Ty) (v : Value) : List Nat → Option Ty
  | [] => some t
  | i :: path =>
    (partType? t v i).bind fun s => v.parts[i]?.bind fun u => typeAt? s u path

/-- Whether all structs and enums on the way to a place carry a type of their own kind. -/
def LabelledAbove (v : Value) : List Nat → Prop
  | [] => True
  | i :: path => v.IsWellLabelled ∧ ∀ u ∈ v.parts[i]?, u.LabelledAbove path

variable {s t : Ty} {u v : Value} {i : Nat} {path : List Nat}

/-! ## Parts -/

/-- A part of a conforming value conforms to the type declared for it. There is none exactly if the
value carries a type of the wrong kind. -/
lemma partType?_of_conforms (c : conforms t v) (hu : v.parts[i]? = some u) :
    (v.IsWellLabelled ∧ ∃ s, partType? t v i = some s ∧ conforms s u) ∨
      (¬v.IsWellLabelled ∧ partType? t v i = none) := by
  have part := List.mem_of_getElem? hu
  cases t with
  | primitive p =>
    right
    refine ⟨fun label => ?_, rfl⟩
    simp [parts_eq_nil_of_type (conforms_primitive_iff.mp c) label] at part
  | generic g params =>
    left
    cases g with
    | option =>
      obtain ⟨p, value, rfl, rfl, below⟩ := (conforms_mayBeAbsent_iff .option).mp c
      exact ⟨trivial, p, rfl, below u (by simpa [parts] using part)⟩
    | optional =>
      obtain ⟨p, value, rfl, rfl, below⟩ := (conforms_mayBeAbsent_iff .optional).mp c
      exact ⟨trivial, p, rfl, below u (by simpa [parts] using part)⟩
    | list =>
      obtain ⟨p, items, rfl, rfl, below⟩ := (conforms_hasItems_iff .list).mp c
      exact ⟨trivial, p, rfl, below u part⟩
    | variadic =>
      obtain ⟨p, items, rfl, rfl, below⟩ := (conforms_hasItems_iff .variadic).mp c
      exact ⟨trivial, p, rfl, below u part⟩
    | tuple =>
      obtain ⟨items, rfl, below⟩ := conforms_tuple_iff.mp c
      exact ⟨trivial, exists_getElem?_of_conformsAll below hu⟩
  | array length element =>
    left
    obtain ⟨items, rfl, size, below⟩ := conforms_array_iff.mp c
    exact ⟨trivial, element, rfl, below u part⟩
  | struct name fields =>
    left
    obtain ⟨values, rfl, below⟩ := conforms_struct_iff.mp c
    exact ⟨⟨name, fields, rfl⟩, exists_getElem?_of_conformsAll below hu⟩
  | enum name variants =>
    left
    obtain ⟨d, values, variant, rfl, found, below⟩ := conforms_enum_iff.mp c
    obtain ⟨s, hs, conforming⟩ := exists_getElem?_of_conformsAll below hu
    refine ⟨⟨name, variants, rfl⟩, s, ?_, conforming⟩
    rw [partType?, found, Option.bind_some, hs]

/-! ## Places -/

/-- Above a place in a part, the value and those in the part carry types of their kind. -/
lemma labelledAbove_cons (hu : v.parts[i]? = some u) :
    v.LabelledAbove (i :: path) ↔ v.IsWellLabelled ∧ u.LabelledAbove path := by
  simp [LabelledAbove, hu]

/-- What stands at a place in a conforming value conforms to the type declared for the place. There
is none exactly if a struct or an enum on the way carries a type of the wrong kind. -/
lemma typeAt?_of_conforms (c : conforms t v) (hu : v.nodeAt? path = some u) :
    (v.LabelledAbove path ∧ ∃ s, typeAt? t v path = some s ∧ conforms s u) ∨
      (¬v.LabelledAbove path ∧ typeAt? t v path = none) := by
  induction path generalizing t v with
  | nil =>
    obtain rfl : v = u := by simpa [nodeAt?] using hu
    exact .inl ⟨trivial, t, rfl, c⟩
  | cons i path ih =>
    obtain ⟨w, hw, below⟩ := Option.bind_eq_some_iff.mp hu
    rw [labelledAbove_cons hw]
    rcases partType?_of_conforms c hw with ⟨label, s, declared, inner⟩ | ⟨wrong, declared⟩
    · have next : typeAt? t v (i :: path) = typeAt? s w path := by simp [typeAt?, declared, hw]
      rw [next]
      simpa [label] using ih inner below
    · exact .inr ⟨fun label => wrong label.1, by simp [typeAt?, declared]⟩

/-- A value conforms to one type. -/
lemma eq_of_conforms (c : conforms s v) (other : conforms t v) : s = t :=
  calc
    s = v.type := (type_of_conforms c).symm
    _ = t := type_of_conforms other

/-- A value conforms to at most one type, the one it reports. At every depth the type that is declared
for a place is the one that the value there reports, and that value conforms to it and to no other.
Types are declared for all places except inside a struct or an enum that carries a type of the wrong
kind. -/
theorem type_unique_of_conforms (c : conforms t v) :
    v.type = t ∧ (∀ r, conforms r v → r = t) ∧
      ∀ path u, v.nodeAt? path = some u →
        (∀ s, typeAt? t v path = some s →
          u.type = s ∧ conforms s u ∧ ∀ r, conforms r u → r = s) ∧
        ((typeAt? t v path).isSome ↔ v.LabelledAbove path) := by
  refine ⟨type_of_conforms c, fun r other => eq_of_conforms other c, fun path u hu => ?_⟩
  rcases typeAt?_of_conforms c hu with ⟨label, s, declared, inner⟩ | ⟨wrong, declared⟩
  · refine ⟨fun r hr => ?_, by simp [declared, label]⟩
    obtain rfl : s = r := by simpa [declared] using hr
    exact ⟨type_of_conforms inner, inner, fun r other => eq_of_conforms other inner⟩
  · simp [declared, wrong]

/-- The field of an enum inside a tuple. -/
theorem type_unique_of_conforms_variant_field :
    let bool := Ty.primitive .bool
    let phase := Ty.enum "Phase" [⟨0, "Closed", []⟩, ⟨1, "Open", [⟨"paid", bool⟩]⟩]
    let t := Ty.tuple [.array 2 bool, .option phase]
    let v := Value.tuple
      [.array bool [.bool true, .bool false], .option phase (some (.enum phase 1 [.bool true]))]
    conforms t v ∧ v.type = t ∧ typeAt? t v [1, 0, 0] = some bool ∧
      ∀ r, conforms r (.bool true) → r = bool := by
  intro bool phase t v
  have c : conforms t v := rfl
  have declared : typeAt? t v [1, 0, 0] = some bool := rfl
  obtain ⟨made, -, places⟩ := type_unique_of_conforms c
  have field := (places [1, 0, 0] (.bool true) rfl).1 bool declared
  exact ⟨c, made, declared, field.2.2⟩

end ContractCalls.Value

import Mathlib
import ContractCalls.Ty.Basic

/-!
# The nodes of a type

A type is a tree whose nodes are types. `Ty.nodes` lists them and `Ty.All` says that every one has a
property; by `all_iff` it is the property of the root and of everything below. The properties of
types that the theorems ask for are defined here: whether a generic has as many parameters as it
takes, whether integers may be of any size, the name of a struct or an enum, and whether the names
and the discriminants in it are distinct.
-/

namespace ContractCalls.Ty

mutual

/-- A type and the types in it, at every depth. -/
def nodes : Ty → List Ty
  | .primitive p => [.primitive p]
  | .generic g params => .generic g params :: nodesAll params
  | .array length element => .array length element :: element.nodes
  | .struct name fields => .struct name fields :: nodesFields fields
  | .enum name variants => .enum name variants :: nodesVariants variants

/-- The nodes of several types. -/
def nodesAll : List Ty → List Ty
  | [] => []
  | t :: ts => t.nodes ++ nodesAll ts

/-- The nodes of the types of several fields. -/
def nodesFields : List (Field Ty) → List Ty
  | [] => []
  | ⟨_, t⟩ :: fields => t.nodes ++ nodesFields fields

/-- The nodes of the types of the fields of several variants. -/
def nodesVariants : List (Variant Ty) → List Ty
  | [] => []
  | ⟨_, _, fields⟩ :: variants => nodesFields fields ++ nodesVariants variants

end

/-- The types that stand directly inside a type. -/
def parts : Ty → List Ty
  | .primitive _ => []
  | .generic _ params => params
  | .array _ element => [element]
  | .struct _ fields => fields.map (·.type)
  | .enum _ variants => variants.flatMap fun variant => variant.fields.map (·.type)

/-- The nodes of several types are those of each. -/
lemma nodesAll_eq (ts : List Ty) : nodesAll ts = ts.flatMap nodes := by
  induction ts with
  | nil => rfl
  | cons t ts ih => rw [nodesAll, ih, List.flatMap_cons]

/-- The nodes of fields are those of their types. -/
lemma nodesFields_eq (fields : List (Field Ty)) :
    nodesFields fields = (fields.map (·.type)).flatMap nodes := by
  induction fields with
  | nil => rfl
  | cons field fields ih => rw [nodesFields, ih, List.map_cons, List.flatMap_cons]

/-- The nodes of variants are those of the types of their fields. -/
lemma nodesVariants_eq (variants : List (Variant Ty)) :
    nodesVariants variants
      = (variants.flatMap fun variant => variant.fields.map (·.type)).flatMap nodes := by
  induction variants with
  | nil => rfl
  | cons variant variants ih =>
    rw [nodesVariants, ih, nodesFields_eq, List.flatMap_cons, List.flatMap_append]

/-- The nodes of a type are the type and the nodes of its parts. -/
lemma nodes_eq (t : Ty) : t.nodes = t :: t.parts.flatMap nodes := by
  cases t with
  | primitive p => rfl
  | generic g params => rw [nodes, nodesAll_eq, parts]
  | array length element => rw [nodes, parts, List.flatMap_singleton]
  | struct name fields => rw [nodes, nodesFields_eq, parts]
  | enum name variants => rw [nodes, nodesVariants_eq, parts]

/-- Every node of a type has a property. -/
def All (P : Ty → Prop) (t : Ty) : Prop :=
  ∀ u ∈ t.nodes, P u

/-- Whether every node has a property can be tested if the property can. -/
instance (P : Ty → Prop) [DecidablePred P] (t : Ty) : Decidable (t.All P) :=
  inferInstanceAs (Decidable (∀ u ∈ t.nodes, P u))

section

variable {P : Ty → Prop} {t u : Ty}

/-- A property of all nodes is one of the root and of all nodes of the parts. -/
lemma all_iff : t.All P ↔ P t ∧ ∀ u ∈ t.parts, u.All P := by
  simp only [All, nodes_eq t, List.forall_mem_cons, List.mem_flatMap]
  refine and_congr_right fun _ => ?_
  constructor
  · intro below u hu w hw
    exact below w ⟨u, hu, hw⟩
  · rintro below w ⟨u, hu, hw⟩
    exact below u hu w hw

/-- A property of all nodes is one of the root. -/
lemma All.root (all : t.All P) : P t :=
  (all_iff.mp all).1

/-- A property of all nodes is one of all nodes of a part. -/
lemma All.part (all : t.All P) (hu : u ∈ t.parts) : u.All P :=
  (all_iff.mp all).2 u hu

/-- A property of all nodes of a generic is one of all nodes of a parameter. -/
lemma All.param {g : Generic} {params : List Ty} (all : (generic g params).All P)
    (hu : u ∈ params) : u.All P :=
  all.part hu

/-- A property of all nodes of an array is one of all nodes of the type of its items. -/
lemma All.element {length : UInt64} (all : (array length t).All P) : t.All P :=
  all.part (by simp [parts])

/-- A property of all nodes of a struct is one of all nodes of the types of its fields. -/
lemma All.fieldType {name : String} {fields : List (Field Ty)} (all : (struct name fields).All P) :
    ∀ u ∈ fields.map (·.type), u.All P := by
  intro u hu
  exact all.part hu

/-- A property of all nodes of an enum is one of all nodes of the types of the fields of a
variant. -/
lemma All.variantType {name : String} {variants : List (Variant Ty)} {variant : Variant Ty}
    (all : (enum name variants).All P) (h : variant ∈ variants) :
    ∀ u ∈ variant.fields.map (·.type), u.All P := by
  intro u hu
  exact all.part (List.mem_flatMap.mpr ⟨variant, h, hu⟩)

end

/-- Whether a generic that takes a fixed number of parameters has so many. -/
def hasArity : Ty → Bool
  | .generic g params => g.arity?.all (params.length = ·)
  | _ => true

/-- Whether a type is that of integers of any size. -/
def isBig : Ty → Bool
  | .primitive .bigUint => true
  | .primitive .bigInt => true
  | _ => false

/-- The name of a struct or an enum. -/
def customName? : Ty → Option String
  | .struct name _ => some name
  | .enum name _ => some name
  | _ => none

/-- Whether the fields of a struct, and of each variant of an enum, have distinct names. -/
def hasDistinctFields : Ty → Bool
  | .struct _ fields => (fields.map (·.name)).Nodup
  | .enum _ variants => variants.all fun variant => (variant.fields.map (·.name)).Nodup
  | _ => true

/-- Whether the variants of an enum have distinct names. -/
def hasDistinctVariants : Ty → Bool
  | .enum _ variants => (variants.map (·.name)).Nodup
  | _ => true

/-- Whether the variants of an enum have distinct discriminants. -/
def hasDistinctDiscriminants : Ty → Bool
  | .enum _ variants => (variants.map (·.discriminant)).Nodup
  | _ => true

section

variable {g : Generic} {t u : Ty} {ts : List Ty}

/-- A generic that takes one parameter has no others. -/
lemma eq_nil_of_hasArity (single : g.arity? = some 1) (h : (generic g (t :: ts)).hasArity) :
    ts = [] := by
  rw [hasArity, single] at h
  simpa using h

/-- A type has a first parameter of a generic if it is that generic. -/
lemma firstParameter?_eq_some_iff :
    t.firstParameter? g = some u ↔ ∃ ts, t = .generic g (u :: ts) := by
  constructor
  · intro h
    cases t with
    | generic g' params =>
      cases params <;> by_cases same : g' = g <;> simp_all [firstParameter?, parameters?]
    | _ => simp [firstParameter?, parameters?] at h
  · rintro ⟨ts, rfl⟩
    simp [firstParameter?, parameters?]

end

end ContractCalls.Ty

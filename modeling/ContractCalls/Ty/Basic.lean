import ContractCalls.Text.Join
import ContractCalls.Ty.Primitive

/-!
# Types of contract interfaces

Types are pure data: two types are the same exactly when they are built alike, and equality is
decided by comparing them part by part. The module also gives the spelling of a type and the
induction over types in which the parts of a type are members of lists.
-/

namespace ContractCalls

/-- A named part of a struct or of an enum variant. -/
structure Field (τ : Type) where
  name : String
  type : τ
  deriving DecidableEq, Repr

/-- A case of an enum, with the byte that marks it. -/
structure Variant (τ : Type) where
  discriminant : UInt8
  name : String
  fields : List (Field τ)
  deriving DecidableEq, Repr

/-- A type of a contract interface. The number of parameters of a generic is not restricted, nor
are the discriminants of an enum distinct. -/
inductive Ty where
  | primitive (p : Primitive)
  | generic (g : Generic) (params : List Ty)
  | array (length : UInt64) (element : Ty)
  | struct (name : String) (fields : List (Field Ty))
  | enum (name : String) (variants : List (Variant Ty))
  deriving Repr

namespace Ty

/-- The type `Option<inner>`. -/
abbrev option (inner : Ty) : Ty := .generic .option [inner]

/-- The type `List<element>`. -/
abbrev list (element : Ty) : Ty := .generic .list [element]

/-- The type `tuple<items>`. -/
abbrev tuple (items : List Ty) : Ty := .generic .tuple items

/-- The type `optional<inner>`. -/
abbrev optional (inner : Ty) : Ty := .generic .optional [inner]

/-- The type `variadic<element>`. -/
abbrev variadic (element : Ty) : Ty := .generic .variadic [element]

/-- The parameters of a type made by the given constructor. -/
def parameters? (g : Generic) : Ty → Option (List Ty)
  | .generic g' params => if g' = g then some params else none
  | _ => none

/-- The first parameter of a type made by the given constructor. -/
def firstParameter? (g : Generic) (t : Ty) : Option Ty :=
  (t.parameters? g).bind List.head?

/-- Whether values of a type may span several arguments of a call, or none. -/
def isMultiValue : Ty → Bool
  | .generic g _ => g.isMultiValue
  | _ => false

/-! ## Spelling -/

mutual

/-- The spelling of a type; a struct or enum is spelled by its name. -/
def spell : Ty → List Char
  | .primitive p => p.name.toList
  | .generic g params => g.name.toList ++ '<' :: Text.join [','] (spellAll params) ++ ['>']
  | .array length element =>
    "array".toList ++ Nat.toDigits 10 length.toNat ++ '<' :: element.spell ++ ['>']
  | .struct name _ => name.toList
  | .enum name _ => name.toList

/-- The spellings of several types. -/
def spellAll : List Ty → List (List Char)
  | [] => []
  | t :: ts => t.spell :: spellAll ts

end

/-- The spelling of a type as a string. -/
def display (t : Ty) : String :=
  String.ofList t.spell

/-- A type is shown by its spelling. -/
instance : ToString Ty := ⟨display⟩

/-! ## Induction -/

/-- A property of all types holds if it passes from the parts of a type, wherever they stand, to
the type. -/
@[elab_as_elim, induction_eliminator]
theorem induction {motive : Ty → Prop}
    (primitive : ∀ p, motive (.primitive p))
    (generic : ∀ g params, (∀ t ∈ params, motive t) → motive (.generic g params))
    (array : ∀ length element, motive element → motive (.array length element))
    (struct : ∀ name fields, (∀ f ∈ fields, motive f.type) → motive (.struct name fields))
    (enum : ∀ name variants, (∀ v ∈ variants, ∀ f ∈ v.fields, motive f.type) →
      motive (.enum name variants)) (t : Ty) : motive t :=
  Ty.rec (motive_1 := motive)
    (motive_2 := fun ts => ∀ t ∈ ts, motive t)
    (motive_3 := fun fs => ∀ f ∈ fs, motive f.type)
    (motive_4 := fun vs => ∀ v ∈ vs, ∀ f ∈ v.fields, motive f.type)
    (motive_5 := fun f => motive f.type)
    (motive_6 := fun v => ∀ f ∈ v.fields, motive f.type)
    primitive generic array struct enum
    (by simp) (fun t ts ht hts => by simpa using ⟨ht, hts⟩)
    (by simp) (fun f fs hf hfs => by simpa using ⟨hf, hfs⟩)
    (by simp) (fun v vs hv hvs => by simpa using ⟨hv, hvs⟩)
    (fun _ _ h => h) (fun _ _ _ h => h) t

/-! ## Equality -/

mutual

/-- Whether two types are built alike. -/
def same : Ty → Ty → Bool
  | .primitive p, .primitive q => p = q
  | .generic g ps, .generic h qs => g = h && sameAll ps qs
  | .array m s, .array n t => m = n && s.same t
  | .struct a fs, .struct b gs => a = b && sameFields fs gs
  | .enum a vs, .enum b ws => a = b && sameVariants vs ws
  | _, _ => false
termination_by structural t => t

/-- Whether two lists of types are built alike. -/
def sameAll : List Ty → List Ty → Bool
  | [], [] => true
  | s :: ss, t :: ts => s.same t && sameAll ss ts
  | _, _ => false
termination_by structural ts => ts

/-- Whether two lists of fields are built alike. -/
def sameFields : List (Field Ty) → List (Field Ty) → Bool
  | [], [] => true
  | ⟨a, s⟩ :: fs, ⟨b, t⟩ :: gs => a = b && s.same t && sameFields fs gs
  | _, _ => false
termination_by structural fs => fs

/-- Whether two lists of variants are built alike. -/
def sameVariants : List (Variant Ty) → List (Variant Ty) → Bool
  | [], [] => true
  | ⟨c, a, fs⟩ :: vs, ⟨d, b, gs⟩ :: ws =>
    c = d && a = b && sameFields fs gs && sameVariants vs ws
  | _, _ => false
termination_by structural vs => vs

end

mutual

/-- The test for the same type is equality. -/
theorem same_iff : (s t : Ty) → (s.same t ↔ s = t)
  | .primitive p, t => by cases t <;> simp [same]
  | .generic g ps, t => by cases t <;> simp [same, sameAll_iff ps]
  | .array m s, t => by cases t <;> simp [same, same_iff s]
  | .struct a fs, t => by cases t <;> simp [same, sameFields_iff fs]
  | .enum a vs, t => by cases t <;> simp [same, sameVariants_iff vs]

/-- The test for the same types is equality. -/
theorem sameAll_iff : (ss ts : List Ty) → (sameAll ss ts ↔ ss = ts)
  | [], ts => by cases ts <;> simp [sameAll]
  | s :: ss, ts => by cases ts <;> simp [sameAll, same_iff s, sameAll_iff ss]

/-- The test for the same fields is equality. -/
theorem sameFields_iff : (fs gs : List (Field Ty)) → (sameFields fs gs ↔ fs = gs)
  | [], gs => by cases gs <;> simp [sameFields]
  | ⟨a, s⟩ :: fs, gs => by
    rcases gs with _ | ⟨⟨b, t⟩, gs⟩ <;> simp [sameFields, same_iff s, sameFields_iff fs]

/-- The test for the same variants is equality. -/
theorem sameVariants_iff : (vs ws : List (Variant Ty)) → (sameVariants vs ws ↔ vs = ws)
  | [], ws => by cases ws <;> simp [sameVariants]
  | ⟨c, a, fs⟩ :: vs, ws => by
    rcases ws with _ | ⟨⟨d, b, gs⟩, ws⟩ <;>
      simp [sameVariants, sameFields_iff fs, sameVariants_iff vs, and_assoc]

end

/-- Equality of types is decided by the test. -/
instance : DecidableEq Ty := fun s t => decidable_of_iff _ (same_iff s t)

end Ty

end ContractCalls

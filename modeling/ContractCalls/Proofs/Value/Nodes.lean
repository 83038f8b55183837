import Mathlib
import ContractCalls.Codec.Reader
import ContractCalls.Codec.Encode

/-!
# The nodes of a value

A value is a tree whose nodes are values. `Value.All` says that every node has a property; by
`all_iff` it is the property of the root and of everything below, and `partsInduction` is the
induction over values that goes with it. The properties of nodes that the theorems about the codec
speak of are defined here: whether a node can be nested, which length is written in front of it,
whether it holds few items where items take no bytes, and whether the type it carries is of its own
kind.
-/

namespace ContractCalls.Value

/-- The values that stand directly inside a value. -/
def parts : Value → List Value
  | .option _ value => value.toList
  | .optional _ value => value.toList
  | .list _ items => items
  | .variadic _ items => items
  | .tuple items => items
  | .array _ items => items
  | .struct _ fields => fields
  | .enum _ _ fields => fields
  | _ => []

/-- A property of all values holds if it passes from the parts of a value to the value. -/
@[elab_as_elim]
theorem partsInduction {motive : Value → Prop}
    (step : ∀ v, (∀ u ∈ v.parts, motive u) → motive v) (v : Value) : motive v :=
  Value.rec (motive_1 := motive)
    (motive_2 := fun value => ∀ u ∈ value.toList, motive u)
    (motive_3 := fun items => ∀ u ∈ items, motive u)
    (fun t n => step (.int t n) (by simp [parts])) (fun n => step (.bigUint n) (by simp [parts]))
    (fun i => step (.bigInt i) (by simp [parts])) (fun b => step (.bool b) (by simp [parts]))
    (fun key => step (.address key) (by simp [parts]))
    (fun bs => step (.bytes bs) (by simp [parts]))
    (fun s => step (.text s) (by simp [parts])) (fun s => step (.token s) (by simp [parts]))
    (fun key => step (.hash key) (by simp [parts]))
    (fun inner value ih => step (.option inner value) ih)
    (fun inner value ih => step (.optional inner value) ih)
    (fun element items ih => step (.list element items) ih)
    (fun element items ih => step (.variadic element items) ih)
    (fun items ih => step (.tuple items) ih)
    (fun element items ih => step (.array element items) ih)
    (fun t fields ih => step (.struct t fields) ih)
    (fun t discriminant fields ih => step (.enum t discriminant fields) ih)
    (by simp) (fun v hv => by simpa using hv)
    (by simp) (fun v vs hv hvs => by simpa using ⟨hv, hvs⟩) v

/-- A value is a node of itself, and the nodes of its parts are nodes of it. -/
inductive IsNode (u : Value) : Value → Prop
  | root : IsNode u u
  | part {v w : Value} : v ∈ w.parts → IsNode u v → IsNode u w

/-- Every node of a value has a property. -/
def All (P : Value → Prop) (v : Value) : Prop :=
  ∀ u, IsNode u v → P u

section

variable {P : Value → Prop} {u v : Value}

/-- A property of all nodes is one of the root and of all nodes of the parts. -/
lemma all_iff : v.All P ↔ P v ∧ ∀ u ∈ v.parts, u.All P := by
  refine ⟨fun all => ?_, fun h => ?_⟩
  · exact ⟨all v .root, fun u hu w hw => all w (.part hu hw)⟩
  · obtain ⟨here, below⟩ := h
    intro u hu
    cases hu with
    | root => exact here
    | part hw hu => exact below _ hw u hu

/-- A property of the root and of all nodes of the parts is one of all nodes. -/
lemma All.intro (here : P v) (below : ∀ u ∈ v.parts, u.All P) : v.All P :=
  all_iff.mpr ⟨here, below⟩

/-- A property of the root is one of all nodes if there are no others. -/
lemma All.leaf (here : P v) (single : v.parts = []) : v.All P :=
  .intro here (by simp [single])

/-- A property of all nodes is one of the root. -/
lemma All.root (all : v.All P) : P v :=
  (all_iff.mp all).1

/-- A property of all nodes is one of all nodes of a part. -/
lemma All.part (all : v.All P) (hu : u ∈ v.parts) : u.All P :=
  (all_iff.mp all).2 u hu

end

/-- Whether a value spans several arguments of a call, or none. -/
def isMultiValue : Value → Bool
  | .optional _ _ => true
  | .variadic _ _ => true
  | _ => false

/-- The length that is written in front of the nested form of a value: the number of bytes of a
payload, or the number of items of a list. -/
def prefixedLength? : Value → Option Nat
  | .bigUint n => some (Bytes.ofNat n).length
  | .bigInt i => some (Bytes.ofInt i).length
  | .bytes bs => some bs.length
  | .text s => some (Bytes.ofText s).length
  | .token s => some (Bytes.ofText s).length
  | .list _ items => some items.length
  | _ => none

/-- Whether a value may stand inside another and the length in front of it fits its four bytes. -/
def IsNestable (v : Value) : Prop :=
  ¬v.isMultiValue ∧ ∀ n ∈ v.prefixedLength?, n < lengthBound

/-- Whether a list or an array whose elements may take no bytes holds few items. -/
def HasFewEmptyItems : Value → Prop
  | .list element items => element.minWidth = 0 → items.length ≤ Reader.maxEmptyItems
  | .array element items => element.minWidth = 0 → items.length ≤ Reader.maxEmptyItems
  | _ => True

/-- Whether a struct carries the type of a struct, and an enum that of an enum. -/
def IsWellLabelled : Value → Prop
  | .struct t _ => ∃ name fields, t = .struct name fields
  | .enum t _ _ => ∃ name variants, t = .enum name variants
  | _ => True

/-- A value that was made for a primitive type has no parts, unless it carries a type of the wrong
kind. -/
lemma parts_eq_nil_of_type {p : Primitive} {v : Value} (made : v.type = .primitive p)
    (label : v.IsWellLabelled) : v.parts = [] := by
  cases v <;> simp_all [type, parts, IsWellLabelled]

end ContractCalls.Value

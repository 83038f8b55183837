import ContractCalls.Proofs.Outcome
import ContractCalls.Ty.Resolve

/-!
# What type expressions denote

Resolving an expression, said by rules: `Resolves` has one rule for each kind of name, and it relates
an expression to the type that it denotes where names of custom types stand for given ones. Resolving
has exactly these results (`resolve_eq_ok_iff_resolves`). No name is of two kinds, so the order in
which the kinds are tried does not show in the rules.
-/

namespace ContractCalls.Ty

/-! ## Kinds of names -/

/-- A name that is of no other kind than that of custom types. -/
structure IsCustomName (name : String) : Prop where
  primitive : Primitive.ofName? name = none
  generic : Generic.ofName? name = none
  array : arrayLength? name = none

variable {name : String} {p : Primitive} {g : Generic} {length : UInt64}

/-- The name of a generic is not that of a primitive type. -/
lemma primitive_eq_none_of_generic (h : Generic.ofName? name = some g) :
    Primitive.ofName? name = none := by
  unfold Generic.ofName? at h
  split at h
  all_goals first | contradiction | rfl

/-- The name of an array is not that of a primitive type. -/
lemma primitive_eq_none_of_array (h : arrayLength? name = some length) :
    Primitive.ofName? name = none := by
  cases found : Primitive.ofName? name with
  | none => rfl
  | some p =>
    unfold Primitive.ofName? at found
    split at found <;> contradiction

/-- The name of an array is not that of a generic. -/
lemma generic_eq_none_of_array (h : arrayLength? name = some length) :
    Generic.ofName? name = none := by
  cases found : Generic.ofName? name with
  | none => rfl
  | some g =>
    unfold Generic.ofName? at found
    split at found <;> contradiction

/-! ## Rules -/

mutual

/-- An expression denotes a type, where custom names stand for types as `custom` says. -/
inductive Resolves (custom : String → Ty → Prop) : Expression → Ty → Prop
  | primitive {name : String} {p : Primitive} :
    Primitive.ofName? name = some p → Resolves custom (.mk name []) (.primitive p)
  | generic {name : String} {g : Generic} {es : List Expression} {ts : List Ty} :
    Generic.ofName? name = some g → g.admits es.length → ResolveAll custom es ts →
      Resolves custom (.mk name es) (.generic g ts)
  | array {name : String} {length : UInt64} {e : Expression} {t : Ty} :
    arrayLength? name = some length → Resolves custom e t →
      Resolves custom (.mk name [e]) (.array length t)
  | custom {name : String} {t : Ty} :
    IsCustomName name → custom name t → Resolves custom (.mk name []) t

/-- Expressions denote types one by one. -/
inductive ResolveAll (custom : String → Ty → Prop) : List Expression → List Ty → Prop
  | nil : ResolveAll custom [] []
  | cons {e : Expression} {es : List Expression} {t : Ty} {ts : List Ty} :
    Resolves custom e t → ResolveAll custom es ts → ResolveAll custom (e :: es) (t :: ts)

end

variable {lookup : Lookup (Except MalformedType)} {source : String} {t : Ty} {ts : List Ty}
  {e : Expression} {es : List Expression}

/-- There are as many types as expressions. -/
lemma ResolveAll.length_eq {custom : String → Ty → Prop} (h : ResolveAll custom es ts) :
    es.length = ts.length := by
  induction ts generalizing es with
  | nil =>
    cases h
    rfl
  | cons t ts ih =>
    cases h with
    | cons _ others => rw [List.length_cons, List.length_cons, ih others]

/-- What is found under a name by a search. -/
abbrev Found (lookup : Lookup (Except MalformedType)) (name : String) (t : Ty) : Prop :=
  lookup name = .ok (some t)

mutual

/-- An expression is resolved to a type that it denotes. -/
lemma resolves_of_resolve : (e : Expression) → (t : Ty) →
    resolve lookup source e = .ok t → Resolves (Found lookup) e t
  | .mk name arguments, t, r => by
    rw [resolve] at r
    cases hp : Primitive.ofName? name with
    | some p =>
      simp only [hp] at r
      split_ifs at r with empty
      obtain rfl := pure_eq_ok_iff.mp r
      obtain rfl := List.isEmpty_iff.mp empty
      exact .primitive hp
    | none =>
      cases hg : Generic.ofName? name with
      | some g =>
        simp only [hp, hg] at r
        split_ifs at r with admitted
        obtain ⟨ts, hts, r⟩ := bind_eq_ok_iff.mp r
        obtain rfl := pure_eq_ok_iff.mp r
        exact .generic hg admitted (resolveAll_of_resolveAll arguments ts hts)
      | none =>
        cases ha : arrayLength? name with
        | some length =>
          match arguments with
          | [argument] =>
            simp only [hp, hg, ha] at r
            obtain ⟨u, hu, r⟩ := bind_eq_ok_iff.mp r
            obtain rfl := pure_eq_ok_iff.mp r
            exact .array ha (resolves_of_resolve argument u hu)
          | [] =>
            simp only [hp, hg, ha] at r
            cases r
          | _ :: _ :: _ =>
            simp only [hp, hg, ha] at r
            cases r
        | none =>
          simp only [hp, hg, ha, resolveCustom] at r
          obtain ⟨found, hfound, r⟩ := bind_eq_ok_iff.mp r
          cases found with
          | none => cases r
          | some u =>
            dsimp only at r
            split_ifs at r with empty
            obtain rfl := pure_eq_ok_iff.mp r
            obtain rfl := List.isEmpty_iff.mp empty
            exact .custom ⟨hp, hg, ha⟩ hfound

/-- Expressions are resolved to types that they denote. -/
lemma resolveAll_of_resolveAll : (es : List Expression) → (ts : List Ty) →
    resolveAll lookup source es = .ok ts → ResolveAll (Found lookup) es ts
  | [], ts, r => by
    obtain rfl := pure_eq_ok_iff.mp r
    exact .nil
  | e :: es, ts, r => by
    obtain ⟨t, ht, r⟩ := bind_eq_ok_iff.mp r
    obtain ⟨ts, hts, r⟩ := bind_eq_ok_iff.mp r
    obtain rfl := pure_eq_ok_iff.mp r
    exact .cons (resolves_of_resolve e t ht) (resolveAll_of_resolveAll es ts hts)

end

/-- An expression that denotes a type is resolved to it. -/
lemma Resolves.resolve_eq_ok (h : Resolves (Found lookup) e t) (source : String) :
    resolve lookup source e = .ok t := by
  induction h using Resolves.rec
    (motive_2 := fun es ts _ => resolveAll lookup source es = .ok ts) with
  | primitive hp => simp [resolve, hp]
  | generic hg admitted _ ih =>
    simp [resolve, primitive_eq_none_of_generic hg, hg, admitted, ih]
  | array ha _ ih =>
    simp [resolve, primitive_eq_none_of_array ha, generic_eq_none_of_array ha, ha, ih]
  | custom kind found =>
    simp [resolve, kind.primitive, kind.generic, kind.array, resolveCustom, found]
  | nil => rfl
  | cons _ _ ih ihs => simp [resolveAll, ih, ihs]

/-- An expression is resolved to what it denotes by the rules. -/
theorem resolve_eq_ok_iff_resolves :
    resolve lookup source e = .ok t ↔ Resolves (Found lookup) e t :=
  ⟨resolves_of_resolve e t, fun h => h.resolve_eq_ok source⟩

/-- A spelling denotes what the expression that it spells denotes. -/
lemma parseWith_eq_ok_iff :
    parseWith lookup source = .ok t ↔
      ∃ e, Expression.parse source = .ok e ∧ Resolves (Found lookup) e t := by
  have passed (e : Expression) : MonadExcept.ofExcept (Expression.parse source) =
      (Except.ok e : Except MalformedType Expression) ↔ Expression.parse source = .ok e := by
    cases Expression.parse source <;> exact Iff.rfl
  simp only [parseWith, bind_eq_ok_iff, passed, resolve_eq_ok_iff_resolves]

end ContractCalls.Ty

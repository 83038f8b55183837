import ContractCalls.Proofs.Codec.Arguments
import ContractCalls.Proofs.Codec.Form
import ContractCalls.Proofs.Ty.Nodes

/-!
# Decoded values conform to their types

The decoders build a value in three ways: from a nested form, from the bytes of one argument, and as
the absent value of a type for which no argument is left. All of them conform to the declared type
if no generic in it has more parameters than it takes (`conforms_of_decode`). Such parameters would be
overlooked by a decoder, while no value conforms to a type that has them.
-/

namespace ContractCalls.Value

variable {t : Ty} {ts : List Ty} {p : Primitive} {v : Value} {vs : List Value} {bs : Bytes}
  {args : List Bytes} {index : Nat}

/-- Items conform to a type if they conform to it as often as there are items. -/
lemma forall_of_conformsAll {n : Nat} (c : conformsAll (List.replicate n t) vs) :
    ∀ v ∈ vs, conforms t v := by
  intro v hv
  obtain ⟨u, hu, here⟩ := exists_of_conformsAll c hv
  rwa [← List.eq_of_mem_replicate hu]

/-- A value conforms to a type if it has a form there, and each generic its parameters. -/
theorem IsForm.conforms (h : IsForm t bs v) (full : t.All (·.hasArity)) : conforms t v := by
  -- The second motive says the same of values and types one by one.
  induction h using IsForm.rec
    (motive_2 := fun ts _ vs _ => (∀ t ∈ ts, t.All (·.hasArity)) → conformsAll ts vs) with
  | fixed sized leaf written => exact conforms_primitive_iff.mpr leaf.type_and_wellLabelled.1
  | payload sizeless small content =>
    exact conforms_primitive_iff.mpr (type_of_ofPayload sizeless content).1
  | absent =>
    obtain rfl := Ty.eq_nil_of_hasArity rfl full.root
    exact (conforms_mayBeAbsent_iff .option).mpr ⟨_, none, rfl, rfl, by simp⟩
  | @present t ts bs v form ih =>
    obtain rfl := Ty.eq_nil_of_hasArity rfl full.root
    have inner := ih (full.param (by simp))
    exact (conforms_mayBeAbsent_iff .option).mpr ⟨t, some v, rfl, rfl, by simpa using inner⟩
  | @list t ts bs vs small forms ih =>
    obtain rfl := Ty.eq_nil_of_hasArity rfl full.root
    have items := ih fun u hu => List.eq_of_mem_replicate hu ▸ full.param (by simp)
    exact (conforms_hasItems_iff .list).mpr ⟨t, vs, rfl, rfl, forall_of_conformsAll items⟩
  | tuple forms ih =>
    exact conforms_tuple_iff.mpr ⟨_, rfl, ih fun u hu => full.param hu⟩
  | array size forms ih =>
    have items := ih fun u hu => List.eq_of_mem_replicate hu ▸ full.element
    exact conforms_array_iff.mpr ⟨_, rfl, size, forall_of_conformsAll items⟩
  | struct forms ih => exact conforms_struct_iff.mpr ⟨_, rfl, ih full.fieldType⟩
  | enum found forms ih =>
    have values := ih (full.variantType (List.mem_of_find?_eq_some found))
    exact conforms_enum_iff.mpr ⟨_, _, _, rfl, found, values⟩
  | nil => simp [conformsAll]
  | cons form forms ih ihs full =>
    simp only [List.forall_mem_cons] at full
    simp [conformsAll, ih full.1, ihs full.2]

/-- A value that is read conforms to its type. -/
lemma read_gives_conforms (full : t.All (·.hasArity)) : (read t).Gives fun v => conforms t v := by
  intro bs v rest e
  obtain ⟨front, -, form, -⟩ := readsForms t e
  exact form.conforms full

/-- A value that is decoded from a nested form conforms to its type. -/
lemma conforms_of_decodeNested (full : t.All (·.hasArity)) (e : decodeNested t bs = .ok v) :
    conforms t v :=
  read_gives_conforms full (decodeNested_eq_ok_iff.mp e)

/-- The rules of decoding one argument make values that conform to their type. -/
lemma DecodesTop.conforms (h : DecodesTop t bs v) (full : t.All (·.hasArity)) : conforms t v := by
  induction h with
  | primitive e => exact conforms_primitive_iff.mpr (type_of_decodeTopPrimitive e).1
  | absent =>
    obtain rfl := Ty.eq_nil_of_hasArity rfl full.root
    exact (conforms_mayBeAbsent_iff .option).mpr ⟨_, none, rfl, rfl, by simp⟩
  | @present t ts b bs v _ ih =>
    obtain rfl := Ty.eq_nil_of_hasArity rfl full.root
    have inner := ih (full.param (by simp))
    exact (conforms_mayBeAbsent_iff .option).mpr ⟨t, some v, rfl, rfl, by simpa using inner⟩
  | absentOptional =>
    obtain rfl := Ty.eq_nil_of_hasArity rfl full.root
    exact (conforms_mayBeAbsent_iff .optional).mpr ⟨_, none, rfl, rfl, by simp⟩
  | @presentOptional t ts b bs v _ ih =>
    obtain rfl := Ty.eq_nil_of_hasArity rfl full.root
    have inner := ih (full.param (by simp))
    exact (conforms_mayBeAbsent_iff .optional).mpr ⟨t, some v, rfl, rfl, by simpa using inner⟩
  | @list t ts bs vs e =>
    obtain rfl := Ty.eq_nil_of_hasArity rfl full.root
    have items := forall_of_readItemsToEnd (read_gives_conforms (full.param (by simp))) e
    exact (conforms_hasItems_iff .list).mpr ⟨t, vs, rfl, rfl, items⟩
  | nested e => exact conforms_of_decodeNested full e

/-- A value that is decoded from one argument conforms to its type. -/
lemma conforms_of_decodeTop (full : t.All (·.hasArity)) (e : decodeTop t bs = .ok v) :
    conforms t v :=
  (decodesTop_of_decodeTop e).conforms full

/-- A value that is made of its share of the arguments conforms to its type. -/
lemma IsMadeOf.conforms (h : IsMadeOf t args v) (full : t.All (·.hasArity)) : conforms t v := by
  cases h with
  | single _ e => exact conforms_of_decodeTop full e
  | absent kind =>
    obtain rfl := Ty.eq_nil_of_hasArity kind.arity_eq full.root
    exact (conforms_mayBeAbsent_iff kind).mpr ⟨_, none, rfl, rfl, by simp⟩
  | several each =>
    obtain rfl := Ty.eq_nil_of_hasArity rfl full.root
    refine (conforms_hasItems_iff .variadic).mpr ⟨_, _, rfl, rfl, fun v hv => ?_⟩
    obtain ⟨arg, -, decoded⟩ := exists_of_mem_mapM (mapM_eq_ok_iff.mpr each) hv
    exact conforms_of_decodeTop (full.param (by simp)) decoded

/-- Arguments are decoded to values that conform to the types one by one. -/
lemma conforms_of_decodeArgumentsFrom (full : ∀ t ∈ ts, t.All (·.hasArity))
    (e : decodeArgumentsFrom index ts args = .ok vs) :
    List.Forall₂ (fun t v => conforms t v) ts vs := by
  induction ts generalizing index args vs with
  | nil =>
    obtain ⟨rfl, rfl⟩ := decodeArgumentsFrom_nil_eq_ok_iff.mp e
    exact .nil
  | cons t ts ih =>
    simp only [List.forall_mem_cons] at full
    obtain ⟨v, others, made, behind, rfl⟩ := decodeArgumentsFrom_cons_eq_ok_iff.mp e
    exact .cons (made.conforms full.1) (ih full.2 behind)

/-- Decoders make values of the declared types alone, where each generic has the parameters it
takes: a nested or a top-level value conforms to its type, and may be passed for it, and a list of
arguments makes as many values as there are types, each of which conforms to its own. -/
theorem conforms_of_decode :
    (∀ t bs v, t.All (·.hasArity) → (decodeNested t bs = .ok v ∨ decodeTop t bs = .ok v) →
      conforms t v ∧ isCompatible t v) ∧
    ∀ ts args vs, (∀ t ∈ ts, t.All (·.hasArity)) → decodeArguments ts args = .ok vs →
      vs.length = ts.length ∧ List.Forall₂ (fun t v => conforms t v) ts vs := by
  constructor
  · intro t bs v full e
    have c : conforms t v := by
      rcases e with e | e
      · exact conforms_of_decodeNested full e
      · exact conforms_of_decodeTop full e
    exact ⟨c, by simp [isCompatible, c]⟩
  · intro ts args vs full e
    have each := conforms_of_decodeArgumentsFrom full e
    exact ⟨each.length_eq.symm, each⟩

/-- A list of structs in an `optional` is decoded from one argument, and the `Option` and the
`variadic` behind it are made without one. -/
theorem conforms_of_decode_struct_list :
    let flag := Ty.primitive .bool
    let pair := Ty.struct "Pair" [⟨"left", flag⟩, ⟨"right", .option flag⟩]
    let v := presentOptional (.list pair
      [.struct pair [bool true, present (bool false)], .struct pair [bool false, absent flag]])
    let ts := [v.type, .option flag, .variadic flag]
    let vs := [v, absent flag, .variadic flag []]
    (decodeTop v.type [1, 1, 0, 0, 0] = .ok v ∧ conforms v.type v) ∧
      decodeArguments ts [[1, 1, 0, 0, 0]] = .ok vs ∧
        List.Forall₂ (fun t v => conforms t v) ts vs := by
  intro flag pair v ts vs
  obtain ⟨one, several⟩ := conforms_of_decode
  have decoded : decodeTop v.type [1, 1, 0, 0, 0] = .ok v := rfl
  have decodedAll : decodeArguments ts [[1, 1, 0, 0, 0]] = .ok vs := rfl
  have conforming := one v.type _ v (by decide) (.inr decoded)
  have conformingAll := several ts _ vs (by decide) decodedAll
  exact ⟨⟨decoded, conforming.1⟩, decodedAll, conformingAll.2⟩

end ContractCalls.Value

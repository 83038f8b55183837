import ContractCalls.Proofs.Interface.Registry
import ContractCalls.Proofs.Ty.Nodes

/-!
# Types of loaded interfaces

What the types in a registry have, so that values can be encoded and decoded by them: generics have
as many parameters as they take, enums have distinct discriminants, and a struct or an enum is the
custom type of its name (`Ty.IsSettled`). The first of these is checked when an expression is
resolved and the second one when an enum is built. For the third one, a resolved contract is what
its document describes with its own table of custom types, whatever the memo was on the way
(`Contract.built_of_resolve`); in such a table every type is settled by induction on its size, since
the types that a definition needs are smaller (`Definitions.Builds.settled`).
-/

namespace ContractCalls

open Ty

/-! ## Settled types -/

namespace Ty

/-- Whether a tuple has parameters, and any other generic exactly one. -/
def hasParameters : Ty → Bool
  | .generic .tuple params => !params.isEmpty
  | .generic _ params => params.length = 1
  | _ => true

/-- A node of a type as the custom types of an interface leave it. -/
structure IsSettled (types : Table) (t : Ty) : Prop where
  parameters : t.hasParameters
  discriminants : t.hasDistinctDiscriminants
  custom : ∀ name ∈ t.customName?, types.lookup name = some t

/-- Whether a node is settled can be tested. -/
instance (types : Table) (t : Ty) : Decidable (t.IsSettled types) :=
  decidable_of_iff (t.hasParameters ∧ t.hasDistinctDiscriminants ∧
      ∀ name ∈ t.customName?, types.lookup name = some t)
    ⟨fun ⟨parameters, discriminants, custom⟩ => ⟨parameters, discriminants, custom⟩,
      fun h => ⟨h.parameters, h.discriminants, h.custom⟩⟩

variable {types : Table} {t : Ty} {ts : List Ty} {g : Generic} {source : String}

/-- The number of parameters is the one that is checked when an expression is resolved. -/
lemma hasParameters_generic : (generic g ts).hasParameters = g.admits ts.length := by
  cases g <;> cases ts <;> simp [hasParameters, Generic.admits, Generic.arity?]

/-- A primitive type is settled. -/
lemma all_isSettled_primitive (p : Primitive) : (primitive p).All (IsSettled types) :=
  all_iff.mpr ⟨⟨rfl, rfl, by simp [customName?]⟩, by simp [parts]⟩

/-- A generic that has as many parameters as it takes is settled if they are. -/
lemma all_isSettled_generic (admitted : g.admits ts.length)
    (settled : ∀ t ∈ ts, t.All (IsSettled types)) : (generic g ts).All (IsSettled types) :=
  all_iff.mpr ⟨⟨hasParameters_generic.trans admitted, rfl, by simp [customName?]⟩, settled⟩

/-- An array is settled if the type of its items is. -/
lemma all_isSettled_array {length : UInt64} (settled : t.All (IsSettled types)) :
    (array length t).All (IsSettled types) :=
  all_iff.mpr ⟨⟨rfl, rfl, by simp [customName?]⟩, by simpa [parts] using settled⟩

/-! ## Resolving -/

/-- What an expression denotes is settled if the custom types are. -/
lemma Resolves.all_isSettled {custom : String → Ty → Prop} {e : Expression}
    (h : ∀ name t, custom name t → t.All (IsSettled types)) (r : Resolves custom e t) :
    t.All (IsSettled types) := by
  induction r using Resolves.rec
    (motive_2 := fun _ ts _ => ∀ t ∈ ts, t.All (IsSettled types)) with
  | @primitive _ p _ => exact all_isSettled_primitive p
  | generic _ admitted all ih => exact all_isSettled_generic (all.length_eq ▸ admitted) ih
  | array _ _ ih => exact all_isSettled_array ih
  | custom _ stands => exact h _ _ stands
  | nil t member => simp at member
  | cons _ _ ih ihs t member =>
    obtain rfl | below := List.mem_cons.mp member
    · exact ih
    · exact ihs t below

/-- What a spelling denotes is settled if the custom types that are found are. -/
lemma all_isSettled_of_parseWith {lookup : Lookup (Except MalformedType)}
    (h : ∀ name t, lookup name = .ok (some t) → t.All (IsSettled types))
    (r : parseWith lookup source = .ok t) : t.All (IsSettled types) := by
  obtain ⟨e, -, r⟩ := parseWith_eq_ok_iff.mp r
  exact r.all_isSettled h

end Ty

namespace Document

variable {definitions : Definitions} {types memo memo' : Table} {name : String} {t : Ty}
  {definition : Definition} {denotes : String → Ty → Prop}

/-! ## Custom types -/

/-- A definition means a type of its own name. -/
lemma Definition.Means.customName? (means : definition.Means denotes name t) :
    t.customName? = some name := by
  cases means <;> rfl

/-- A type has distinct discriminants if its definition has. -/
lemma Definition.Means.hasDistinctDiscriminants (means : definition.Means denotes name t)
    (distinct : definition.HasDistinctDiscriminants) : t.hasDistinctDiscriminants := by
  cases means with
  | struct _ => rfl
  | @enum raws variants h =>
    have same : variants.map (·.discriminant) = raws.map (·.discriminant) := by
      clear distinct
      induction h with
      | nil => rfl
      | cons first _ ih => rw [List.map_cons, List.map_cons, first.1, ih]
    rw [Definition.HasDistinctDiscriminants, ← same] at distinct
    simpa [Ty.hasDistinctDiscriminants] using distinct

/-- What all types that are denoted have, the fields that are meant have. -/
lemma FieldMeans.forall_mem {P : Ty → Prop} {raws : List (Field String)} {fields : List (Field Ty)}
    (means : List.Forall₂ (FieldMeans fun _ u => P u) raws fields) :
    ∀ field ∈ fields, P field.type := by
  induction means with
  | nil => simp
  | cons first _ ih => exact List.forall_mem_cons.mpr ⟨first.2, ih⟩

/-- What all types that are denoted have, the parts of a type that is meant have. -/
lemma Definition.Means.forall_mem_parts {P : Ty → Prop}
    (means : definition.Means (fun _ u => P u) name t) : ∀ u ∈ t.parts, P u := by
  cases means with
  | struct h => simpa [parts] using FieldMeans.forall_mem h
  | enum h =>
    simp only [parts, List.forall_mem_flatMap, List.forall_mem_map]
    induction h with
    | nil => simp
    | cons first _ ih => exact List.forall_mem_cons.mpr ⟨FieldMeans.forall_mem first.2.2, ih⟩

/-- Each type of a table is what its definition is resolved to with the table. -/
def Definitions.Builds (definitions : Definitions) (types : Table) : Prop :=
  ∀ name t, types.lookup name = some t → ∃ definition, definitions.lookup name = some definition ∧
    definition.resolve types.find name = .ok t

/-- The types of a table that is built from definitions are settled. -/
theorem Definitions.Builds.settled (built : definitions.Builds types)
    (found : types.lookup name = some t) : t.All (IsSettled types) := by
  induction size : sizeOf t using Nat.strong_induction_on generalizing name t with
  | h size ih =>
    subst size
    obtain ⟨definition, -, resolved⟩ := built name t found
    obtain ⟨distinct, means⟩ := resolve_eq_ok_iff.mp resolved
    -- The types of the fields are found among those that are smaller.
    have parts : definition.Means (fun _ u => u.All (IsSettled types)) name t := by
      refine means.imp fun source u small denoted => ?_
      have within := parseWith_of_lookup (fun name t => Table.below_of_lt name t) small denoted
      refine all_isSettled_of_parseWith (fun other w hw => ?_) within
      obtain ⟨smaller, known⟩ := Table.below_eq_ok_some_iff.mp hw
      exact ih _ smaller known rfl
    refine all_iff.mpr ⟨⟨?_, means.hasDistinctDiscriminants distinct, ?_⟩, parts.forall_mem_parts⟩
    · cases means <;> rfl
    · simpa [means.customName?] using found

/-! ## Resolved contracts -/

/-- If the memo has a type for each definition, it has no others at any later time. -/
lemma Definitions.Sound.within (sound : definitions.Sound memo')
    (keys : types.map (·.1) = definitions.map (·.1))
    (complete : ∀ name, memo.lookup name = types.lookup name) (grows : memo.Within memo') :
    memo'.Within types := by
  intro name t known
  have declared := exists_lookup_iff_mem.mp (sound.covers name t known)
  obtain ⟨u, here⟩ := exists_lookup_iff_mem.mpr (keys ▸ declared)
  obtain rfl := Option.some.inj ((grows name u ((complete name).trans here)).symm.trans known)
  exact here

/-- Endpoints are resolved as with any table that has all that is kept. -/
lemma sound_of_resolveEndpoints (covers : definitions.Covers types)
    (sound : definitions.Sound memo) {owner : String} {seen : List String}
    {raws : List Document.Endpoint} {endpoints : List ContractCalls.Endpoint}
    (e : resolveEndpoints (definitions.custom []) owner seen raws memo = .ok (endpoints, memo')) :
    definitions.Sound memo' ∧ memo.Within memo' ∧ (memo'.Within types →
      raws.mapM (·.resolve types.find) = .ok endpoints) := by
  induction raws generalizing seen endpoints memo memo' with
  | nil =>
    cases e
    exact ⟨sound, .refl memo, fun _ => rfl⟩
  | cons raw raws ih =>
    rw [resolveEndpoints] at e
    split_ifs at e
    · cases e
    · obtain ⟨⟨first, mid⟩, hfirst, e⟩ := bind_eq_ok_iff.mp e
      obtain ⟨⟨rest, last⟩, hrest, e⟩ := bind_eq_ok_iff.mp e
      cases e
      have simulated := (Definitions.soundness definitions types).resolveEndpoint
        (Definitions.custom_sound [] types covers) raw
      obtain ⟨soundMid, grows, here⟩ :=
        simulated memo first mid sound (liftMalformed_eq_ok_iff.mp hfirst)
      obtain ⟨sound', grows', behind⟩ := ih soundMid hrest
      refine ⟨sound', grows.trans grows', fun within => ?_⟩
      rw [List.mapM_cons, here (grows'.trans within), behind within]
      rfl

/-- Resolving a constructor keeps the memo sound, and resolves it as any larger table of types
would. -/
lemma sound_of_resolveConstructor (covers : definitions.Covers types)
    (sound : definitions.Sound memo) {raw : Option Constructor}
    {endpoint : Option ContractCalls.Endpoint}
    (e : raw.mapM (·.resolve (definitions.custom [])) memo = .ok (endpoint, memo')) :
    definitions.Sound memo' ∧ memo.Within memo' ∧ (memo'.Within types →
      ∀ built ∈ endpoint, ∃ c ∈ raw, c.resolve types.find = .ok built) := by
  cases raw with
  | none =>
    cases e
    exact ⟨sound, .refl memo, by simp⟩
  | some c =>
    obtain ⟨⟨built, last⟩, hbuilt, e⟩ := bind_eq_ok_iff.mp e
    cases e
    have simulated := (Definitions.soundness definitions types).resolveConstructor
      (Definitions.custom_sound [] types covers) c
    obtain ⟨sound', grows, here⟩ := simulated memo built memo' sound hbuilt
    exact ⟨sound', grows, fun within => by simpa using here within⟩

/-- A contract is resolved to what its document describes with the custom types that result. -/
theorem Contract.built_of_resolve {c : Contract} {i : Interface} (e : c.resolve = .ok i) :
    Definitions.Builds c.types i.types ∧
    (∀ entry ∈ i.types, i.types.lookup entry.1 = some entry.2) ∧
    (∀ built ∈ i.constructor, ∃ raw ∈ c.constructor, raw.resolve i.types.find = .ok built) ∧
    c.endpoints.mapM (·.resolve i.types.find) = .ok i.endpoints := by
  obtain ⟨memo, mid, last, htypes, hconstructor, hendpoints⟩ := Contract.exists_of_resolve e
  obtain ⟨sound, keys, kept, complete⟩ := Definitions.lookups_of_resolveAll htypes
  have covers : Definitions.Covers c.types i.types :=
    fun name t found => sound.covers name t ((complete name).trans found)
  obtain ⟨soundMid, grows, constructor⟩ := sound_of_resolveConstructor covers sound hconstructor
  obtain ⟨soundLast, grows', endpoints⟩ := sound_of_resolveEndpoints covers soundMid hendpoints
  have within : memo.Within i.types := fun name t h => (complete name).symm.trans h
  refine ⟨fun name t found => ?_, fun entry h => (complete entry.1).symm.trans (kept entry h),
    constructor (soundMid.within keys complete grows),
    endpoints (soundLast.within keys complete (grows.trans grows'))⟩
  obtain ⟨definition, declared, built⟩ := sound name t ((complete name).trans found)
  exact ⟨definition, declared, built i.types within covers⟩

/-- The types of inputs or outputs are settled if the custom types are. -/
lemma ParameterMeans.settled {isMulti : Parameter → Option Bool} {raws : List Parameter}
    {parameters : List (Field Ty)}
    (custom : ∀ name t, types.lookup name = some t → t.All (IsSettled types))
    (means : List.Forall₂ (fun raw => ParameterMeans types (isMulti raw) raw) raws parameters) :
    ∀ t ∈ parameters.map (·.type), t.All (IsSettled types) := by
  induction means with
  | nil => simp
  | @cons raw parameter _ _ first _ ih =>
    refine List.forall_mem_cons.mpr ⟨?_, ih⟩
    obtain ⟨-, t, denoted, type⟩ := first
    have settled : t.All (IsSettled types) :=
      all_isSettled_of_parseWith (fun name t found => custom name t (Except.ok.inj found)) denoted
    change parameter.type.All (IsSettled types)
    rw [type]
    -- A type that becomes variadic is the only parameter.
    split_ifs
    · exact all_isSettled_generic rfl (List.forall_mem_singleton.mpr settled)
    · exact settled

/-- The types of a signature are settled if the custom types are. -/
lemma SignatureMeans.settled {inputs outputs : List Parameter} {endpoint : ContractCalls.Endpoint}
    (custom : ∀ name t, types.lookup name = some t → t.All (IsSettled types))
    (means : SignatureMeans types inputs outputs endpoint) :
    ∀ t ∈ endpoint.inputTypes ++ endpoint.outputTypes, t.All (IsSettled types) :=
  List.forall_mem_append.mpr
    ⟨ParameterMeans.settled custom means.1, ParameterMeans.settled custom means.2⟩

end Document

namespace Interface

/-- The types of an interface: its custom types, and those of the inputs and outputs of its
constructor and its endpoints. -/
def declaredTypes (i : Interface) : List Ty :=
  i.types.map (·.2) ++
    (i.constructor.toList ++ i.endpoints).flatMap fun e => e.inputTypes ++ e.outputTypes

/-- An interface whose custom types stand under their own names, and whose types are settled. -/
structure IsSettled (i : Interface) : Prop where
  names : ∀ entry ∈ i.types, entry.2.customName? = some entry.1
  types : ∀ t ∈ i.declaredTypes, t.All (Ty.IsSettled i.types)

end Interface

/-- A contract is resolved to a settled interface. -/
lemma Document.Contract.isSettled_of_resolve {c : Contract} {i : Interface}
    (e : c.resolve = .ok i) : i.IsSettled := by
  obtain ⟨built, kept, constructor, endpoints⟩ := Contract.built_of_resolve e
  have custom (name : String) (t : Ty) (found : i.types.lookup name = some t) :=
    built.settled found
  refine ⟨fun entry h => ?_, fun t h => ?_⟩
  · obtain ⟨definition, -, resolved⟩ := built _ _ (kept entry h)
    exact (resolve_eq_ok_iff.mp resolved).2.customName?
  · rw [Interface.declaredTypes, List.mem_append, List.mem_map, List.mem_flatMap] at h
    obtain ⟨entry, member, rfl⟩ | ⟨endpoint, member, h⟩ := h
    · exact custom _ _ (kept entry member)
    obtain called | listed := List.mem_append.mp member
    · obtain ⟨raw, -, resolved⟩ := constructor endpoint (Option.mem_toList.mp called)
      exact (Constructor.means_of_resolve resolved).settled custom t h
    · obtain ⟨raw, -, resolved⟩ := exists_of_mem_mapM endpoints listed
      exact (Endpoint.means_of_resolve resolved).2.settled custom t h

namespace Registry

variable {r r' : Registry}

/-- An operation that succeeds keeps the interfaces of a registry settled. -/
lemma isSettled_of_apply {o : Operation} (settled : ∀ i ∈ r.interfaces, i.IsSettled)
    (e : o.apply r = .ok r') : ∀ i ∈ r'.interfaces, i.IsSettled := by
  refine Operation.forall_interfaces_of_apply ?_ settled e
  exact fun c i resolved => Document.Contract.isSettled_of_resolve resolved

/-- Types of loaded interfaces. In a registry that operations lead to, whether they succeed or not,
take any type in an interface, at any depth: inside its custom types or the inputs and outputs of
its constructor and its endpoints. A tuple has parameters and any other generic exactly one, an enum
has distinct discriminants, and a struct or an enum is the custom type of the interface under its
own name. -/
theorem reachable_isSettled {r : Registry} (h : Reachable r) : ∀ i ∈ r.interfaces, i.IsSettled :=
  h.of_apply (by simp [empty]) fun _ _ _ => isSettled_of_apply

/-- An enum that a struct needs twice, in a constructor and in an input for any number of values. -/
theorem reachable_isSettled_shared_enum :
    let state : Ty := .enum "State" [⟨0, "Off", []⟩, ⟨1, "On", [⟨"since", .primitive .u64⟩]⟩]
    let entry : Ty := .struct "Entry" [⟨"now", state⟩, ⟨"before", .option (.list state)⟩]
    let types : Ty.Table := [("Entry", entry), ("State", state)]
    let c : Document.Contract :=
      ⟨"Log", [], some ⟨[], [], [⟨"first", "tuple<State,u8>", none, none⟩], []⟩,
        [⟨"put", [], none, [], [⟨"entries", "Entry", some true, none⟩], []⟩],
        [("Entry", .struct [⟨"now", "State"⟩, ⟨"before", "Option<List<State>>"⟩]),
          ("State", .enum [⟨0, "Off", []⟩, ⟨1, "On", [⟨"since", "u64"⟩]⟩])]⟩
    let i : Interface :=
      ⟨"Log", [], some (.make "init" [] [⟨"first", .tuple [state, .primitive .u8]⟩] [] .mutable []),
        [.make "put" [] [⟨"entries", .variadic entry⟩] [] .mutable []], types⟩
    (Operation.add c).update.run .empty = .ok () ⟨[i]⟩ ∧
      (Ty.variadic entry).All (Ty.IsSettled types) := by
  intro state entry types c i
  have added : (Operation.add c).update.run .empty = .ok () ⟨[i]⟩ := by cbv
  have settled := reachable_isSettled (.success .empty added) i (by simp)
  exact ⟨added, settled.types _ (by simp [Interface.declaredTypes, i, Endpoint.inputTypes,
    Endpoint.make])⟩

end Registry

end ContractCalls

import ContractCalls.Proofs.Interface.Completeness
import ContractCalls.Proofs.Interface.Depth

/-!
# Resolved interfaces

What the types in a resolved interface are. Once all definitions are resolved, the memo has a type
for each of them, so that resolving a spelling no longer changes it and is looking it up in the
solution (`atSolution`). The parameters of the constructor and of the endpoints get the types that
their spellings denote there, and `resolve_solves` collects what holds of the resolution of a
contract.
-/

namespace ContractCalls

open Ty

namespace Document

/-- Definitions that are read are sorted by name. -/
lemma sorted_of_readDefinitions? {byIndex : Bool} {value : Json} {definitions : Definitions}
    (e : readDefinitions? byIndex value = some definitions) :
    definitions.Pairwise (·.1 < ·.1) := by
  cases value with
  | object members =>
    obtain ⟨entries, -, rfl⟩ := Option.map_eq_some_iff.mp e
    exact Sorted.pairwise_ofList entries
  | _ => simp [readDefinitions?] at e

/-- The definitions of a contract that is read are sorted by name. -/
theorem Contract.sorted_of_ofJson? {inDocument : Bool} {record : Json} {c : Contract}
    (e : Contract.ofJson? inDocument record = some c) : c.types.Pairwise (·.1 < ·.1) := by
  simp only [Contract.ofJson?, Option.bind_eq_bind, Option.bind_eq_some_iff, Option.pure_def] at e
  obtain ⟨parts, -, name, -, docs, -, constructor, -, endpoints, -, types, htypes, e⟩ := e
  obtain rfl := Option.some.inj e
  unfold Json.Record.withDefault at htypes
  split at htypes
  · exact sorted_of_readDefinitions? htypes
  · obtain rfl := Option.some.inj htypes
    exact .nil

/-- The names of the definitions of a contract that is read are distinct. -/
theorem Contract.nodup_of_ofJson? {inDocument : Bool} {record : Json} {c : Contract}
    (e : Contract.ofJson? inDocument record = some c) : (c.types.map (·.1)).Nodup :=
  Sorted.nodup_keys (Contract.sorted_of_ofJson? e)

/-- A parameter has the name that one of a document has, and the type that its spelling denotes;
where it stands for any number of arguments, that becomes `variadic` unless it spans several
arguments already. -/
def ParameterMeans (types : Table) (isMulti : Option Bool) (raw : Parameter)
    (parameter : Field Ty) : Prop :=
  parameter.name = raw.name ∧ ∃ t, Denotes types raw.type t ∧
    parameter.type = if isMulti = some true ∧ ¬t.isMultiValue then .variadic t else t

/-- An endpoint has the inputs and outputs that are described. -/
def SignatureMeans (types : Table) (inputs outputs : List Parameter)
    (endpoint : ContractCalls.Endpoint) : Prop :=
  List.Forall₂ (fun raw => ParameterMeans types raw.multiArg raw) inputs endpoint.inputs ∧
    List.Forall₂ (fun raw => ParameterMeans types raw.multiResult raw) outputs endpoint.outputs

variable {definitions : Definitions} {memo types : Table} {raw : Parameter} {parameter : Field Ty}
  {isMulti : Option Bool} {endpoint : ContractCalls.Endpoint}

/-- A parameter is resolved to what it means. -/
lemma resolveParameter_eq_ok_iff :
    raw.resolve types.find isMulti = .ok parameter ↔
      ParameterMeans types isMulti raw parameter := by
  obtain ⟨name, t⟩ := parameter
  simp only [Parameter.resolve, ParameterMeans, Denotes, Ty.parse, bind_eq_ok_iff, pure_eq_ok_iff,
    Field.mk.injEq]
  tauto

/-- The constructor is resolved to what it means. -/
lemma Constructor.means_of_resolve {c : Constructor} (e : c.resolve types.find = .ok endpoint) :
    SignatureMeans types c.inputs c.outputs endpoint := by
  obtain ⟨inputs, hinputs, e⟩ := bind_eq_ok_iff.mp e
  obtain ⟨outputs, houtputs, e⟩ := bind_eq_ok_iff.mp e
  obtain rfl := pure_eq_ok_iff.mp e
  simp only [resolveInputs, resolveOutputs, mapM_eq_ok_iff, resolveParameter_eq_ok_iff]
    at hinputs houtputs
  exact ⟨hinputs, houtputs⟩

/-- An endpoint is resolved to what it means. -/
lemma Endpoint.means_of_resolve {e : Document.Endpoint} (h : e.resolve types.find = .ok endpoint) :
    endpoint.name = e.name ∧ SignatureMeans types e.inputs e.outputs endpoint := by
  obtain ⟨inputs, hinputs, h⟩ := bind_eq_ok_iff.mp h
  obtain ⟨outputs, houtputs, h⟩ := bind_eq_ok_iff.mp h
  obtain rfl := pure_eq_ok_iff.mp h
  simp only [resolveInputs, resolveOutputs, mapM_eq_ok_iff, resolveParameter_eq_ok_iff]
    at hinputs houtputs
  exact ⟨rfl, hinputs, houtputs⟩

/-- Beside a computation that does not change a memo runs one with a table. -/
def atMemo (memo : Table) : Simulation Resolver (Except MalformedType) where
  rel x y := x memo = (·, memo) <$> y
  pure a := rfl
  throw e := rfl
  bind {α β x y f g} hx hf := by
    change x memo >>= (fun result => f result.1 result.2) = _
    rw [hx]
    cases y with
    | error e => rfl
    | ok a => exact hf a

/-- With the types of a solution in the memo, finding a custom type is looking it up. -/
lemma atMemo_custom (solves : definitions.Solves types)
    (complete : ∀ name, memo.lookup name = types.lookup name) (name : String) :
    (atMemo memo).rel (definitions.custom [] name) (types.find name) := by
  cases known : types.lookup name with
  | some t =>
    have found : types.find name = .ok (some t) := congrArg _ known
    rw [found]
    exact Definitions.custom_of_built ((complete name).trans known)
  | none =>
    have found : types.find name = .ok none := congrArg _ known
    rw [found]
    exact Definitions.custom_of_undeclared ((complete name).trans known)
      (solves.lookup_eq_none_iff.mp known)

/-- What is resolved with a memo that does not change is what is resolved with a table. -/
lemma eq_ok_of_atMemo {α : Type} {x : Resolver α} {y : Except MalformedType α} {a : α}
    {memo' : Table} (same : (atMemo memo).rel x y) (e : x memo = .ok (a, memo')) : y = .ok a ∧ memo' = memo := by
  obtain ⟨b, hb, pair⟩ := map_eq_ok_iff.mp (same.symm.trans e)
  obtain ⟨rfl, rfl⟩ := Prod.mk.inj pair
  exact ⟨hb, rfl⟩

/-- A malformed type is the only refusal that is passed on. -/
lemma liftMalformed_eq_ok_iff {α : Type} {x : Resolver α} {a : α} {memo' : Table} :
    liftMalformed x memo = .ok (a, memo') ↔ x memo = .ok (a, memo') :=
  mapError_eq_ok_iff

/-- Endpoints are resolved to what they mean, with the types of a solution in the memo. -/
lemma means_of_resolveEndpoints (solves : definitions.Solves types)
    (complete : ∀ name, memo.lookup name = types.lookup name) {owner : String} {seen : List String}
    {raws : List Document.Endpoint} {endpoints : List ContractCalls.Endpoint} {memo' : Table}
    (e : resolveEndpoints (definitions.custom []) owner seen raws memo = .ok (endpoints, memo')) :
    List.Forall₂ (fun raw endpoint => endpoint.name = raw.name ∧
      SignatureMeans types raw.inputs raw.outputs endpoint) raws endpoints := by
  induction raws generalizing seen endpoints memo' with
  | nil =>
    cases e
    exact .nil
  | cons raw raws ih =>
    rw [resolveEndpoints] at e
    split_ifs at e with again
    · cases e
    · obtain ⟨⟨first, mid⟩, hfirst, e⟩ := bind_eq_ok_iff.mp e
      obtain ⟨⟨rest, last⟩, hrest, e⟩ := bind_eq_ok_iff.mp e
      cases e
      -- All types are in the memo, so the endpoints behind this one find the same memo.
      have same := (atMemo memo).resolveEndpoint (atMemo_custom solves complete) raw
      obtain ⟨resolved, rfl⟩ := eq_ok_of_atMemo same (liftMalformed_eq_ok_iff.mp hfirst)
      exact .cons (Endpoint.means_of_resolve resolved) (ih hrest)

/-- A constructor is resolved to what it means, with the types of a solution in the memo. -/
lemma means_of_resolveConstructor (solves : definitions.Solves types)
    (complete : ∀ name, memo.lookup name = types.lookup name) {raw : Option Constructor}
    {endpoint : Option ContractCalls.Endpoint} {memo' : Table}
    (e : raw.mapM (·.resolve (definitions.custom [])) memo = .ok (endpoint, memo')) :
    Option.Rel (fun raw endpoint => SignatureMeans types raw.inputs raw.outputs endpoint) raw
      endpoint ∧ memo' = memo := by
  cases raw with
  | none =>
    cases e
    exact ⟨.none, rfl⟩
  | some raw =>
    obtain ⟨⟨resolved, mid⟩, hresolved, e⟩ := bind_eq_ok_iff.mp e
    cases e
    have same := (atMemo memo).resolveConstructor (atMemo_custom solves complete) raw
    obtain ⟨resolved, rfl⟩ := eq_ok_of_atMemo same hresolved
    exact ⟨.some (Constructor.means_of_resolve resolved), rfl⟩

/-- A contract is resolved if its definitions, its constructor and its endpoints are, one after
another. -/
lemma Contract.exists_of_resolve {c : Contract} {interface : Interface}
    (e : c.resolve = .ok interface) :
    ∃ memo mid last,
      Definitions.resolveAll c.types [] = .ok (interface.types, memo) ∧
      c.constructor.mapM (·.resolve (Definitions.custom c.types [])) memo
        = .ok (interface.constructor, mid) ∧
      resolveEndpoints (Definitions.custom c.types []) c.name [] c.endpoints mid
        = .ok (interface.endpoints, last) := by
  obtain ⟨⟨_, last⟩, h, rfl⟩ := map_eq_ok_iff.mp e
  rw [Contract.resolver] at h
  obtain ⟨⟨types, memo⟩, htypes, h⟩ := bind_eq_ok_iff.mp h
  obtain ⟨⟨constructor, mid⟩, hconstructor, h⟩ := bind_eq_ok_iff.mp h
  obtain ⟨⟨endpoints, last⟩, hendpoints, h⟩ := bind_eq_ok_iff.mp h
  cases h
  exact ⟨memo, mid, last, liftMalformed_eq_ok_iff.mp htypes,
    liftMalformed_eq_ok_iff.mp hconstructor, hendpoints⟩

/-- Resolution of custom types. All definitions of a contract are resolved exactly if no
discriminant of an enum is repeated and there is a table that solves them, and there is at most one.
In a resolved contract the custom types are this solution, and the parameters of the constructor and
of the endpoints have the types that their spellings denote in it. Resolution never has more
definitions open at a time than there are, so it ends. -/
theorem resolve_solves (c : Contract) (distinct : (c.types.map (·.1)).Nodup) :
    ((∃ types memo, Definitions.resolveAll c.types [] = .ok (types, memo)) ↔
      (∀ entry ∈ c.types, entry.2.HasDistinctDiscriminants) ∧
        ∃ types, Definitions.Solves c.types types) ∧
    (∀ types types', Definitions.Solves c.types types → Definitions.Solves c.types types' →
      types = types') ∧
    (∀ interface, c.resolve = .ok interface →
      Definitions.Solves c.types interface.types ∧
      Option.Rel (fun raw endpoint =>
        SignatureMeans interface.types raw.inputs raw.outputs endpoint) c.constructor
          interface.constructor ∧
      List.Forall₂ (fun raw endpoint => endpoint.name = raw.name ∧
        SignatureMeans interface.types raw.inputs raw.outputs endpoint) c.endpoints
          interface.endpoints) ∧
    (∀ name memo, ((Definitions.customWithin c.types (c.types.length + 1) [] name).run memo).run =
      some ((Definitions.custom c.types [] name).run memo)) := by
  refine ⟨Definitions.resolveAll_iff distinct,
    fun types types' => Definitions.Solves.unique distinct, ?_, ?_⟩
  · intro interface e
    obtain ⟨memo, mid, last, htypes, hconstructor, hendpoints⟩ := Contract.exists_of_resolve e
    obtain ⟨solves, -, complete⟩ := Definitions.resolveAll_sound distinct htypes
    obtain ⟨means, rfl⟩ := means_of_resolveConstructor solves complete hconstructor
    exact ⟨solves, means, means_of_resolveEndpoints solves complete hendpoints⟩
  · intro name memo
    refine Definitions.customWithin_notGivenUp _ [] ?_ name memo
    simp [Definitions.waiting]

/-- A struct with a list of another struct, and an input for any number of the first one. -/
theorem resolve_solves_two_structs :
    let inner : Ty := .struct "B" [⟨"number", .primitive .u8⟩]
    let outer : Ty := .struct "A" [⟨"items", .list inner⟩]
    let input : Parameter := ⟨"outers", "A", some true, none⟩
    let c : Contract :=
      ⟨"C", [], none, [⟨"call", [], none, [], [input], []⟩],
        [("A", .struct [⟨"items", "List<B>"⟩]), ("B", .struct [⟨"number", "u8"⟩])]⟩
    Definitions.Solves c.types [("A", outer), ("B", inner)] ∧
      ParameterMeans [("A", outer), ("B", inner)] (some true) input
        ⟨"outers", .variadic outer⟩ := by
  intro inner outer input c
  have distinct : (c.types.map (·.1)).Nodup := by decide
  have resolved : c.resolve = .ok ⟨"C", [], none,
      [.make "call" [] [⟨"outers", .variadic outer⟩] [] .mutable []],
      [("A", outer), ("B", inner)]⟩ := by cbv
  obtain ⟨solves, -, endpoints⟩ := (resolve_solves c distinct).2.2.1 _ resolved
  cases endpoints with
  | cons means _ =>
    cases means.2.1 with
    | cons parameter _ => exact ⟨solves, parameter⟩

end Document

end ContractCalls

import ContractCalls.Proofs.Interface.Settled
import ContractCalls.Proofs.Ty.Spelling

/-!
# Spellings of declared types

Arguments on the command line are spelled with types, whose custom names are looked up in one table
for all selected interfaces. The type of an input is what a spelling in its own document denotes, or
`variadic` around that, so it has a spelling with the custom types of its own interface
(`Document.Contract.hasSpelling_of_resolve`). With the table of a view, that spelling denotes it as
far as the table has the same structs and enums (`Registry.reachable_parse_display`). There is one
exception: `variadic` adds a bracket to a spelling, which may be too deep then.
-/

namespace ContractCalls

open Ty

/-! ## The table of a view -/

namespace View

variable {view : View} {name : String} {t : Ty} {i : Interface}

/-- What the table of a view has is what the last interface has that declares the name. -/
lemma lookup_customTypes (view : View) (name : String) :
    view.customTypes.lookup name = view.interfaces.reverse.findSome? (·.types.lookup name) :=
  lookup_flatMap Interface.types view.interfaces.reverse

/-- A type of an interface is in the table if the interfaces that declare its name agree. -/
lemma lookup_customTypes_of_agree (member : i ∈ view.interfaces)
    (declared : i.types.lookup name = some t)
    (agree : ∀ j ∈ view.interfaces, ∀ u, j.types.lookup name = some u → u = t) :
    view.customTypes.lookup name = some t := by
  rw [lookup_customTypes]
  cases found : view.interfaces.reverse.findSome? (·.types.lookup name) with
  | none =>
    have missing := List.findSome?_eq_none_iff.mp found i (List.mem_reverse.mpr member)
    cases missing.symm.trans declared
  | some u =>
    obtain ⟨j, behind, other⟩ := List.exists_of_findSome?_eq_some found
    rw [agree j (List.mem_reverse.mp behind) u other]

/-- The custom types of a view stand under their own names if those of each interface do. -/
lemma isNamed_customTypes
    (named : ∀ i ∈ view.interfaces, ∀ entry ∈ i.types, entry.2.customName? = some entry.1) :
    view.customTypes.IsNamed := by
  refine Table.isNamed_of_forall fun entry member => ?_
  obtain ⟨i, behind, declared⟩ := List.mem_flatMap.mp member
  exact named i (List.mem_reverse.mp behind) entry declared

/-- An endpoint is that of the first interface that has one of its name. -/
lemma exists_interface_of_endpoint {e : Endpoint} (found : view.endpoint name = .ok e) :
    ∃ before i after, view.interfaces = before ++ i :: after ∧ i.endpoint? name = some e ∧
      ∀ j ∈ before, j.endpoint? name = none := by
  rw [endpoint] at found
  split at found
  · next e' first =>
    obtain rfl := Except.ok.inj found
    exact List.findSome?_eq_some_iff.mp first
  · cases found

end View

/-- What is found by the name of an endpoint is an endpoint or the constructor. -/
lemma Interface.mem_of_endpoint? {i : Interface} {name : String} {e : Endpoint}
    (found : i.endpoint? name = some e) : e ∈ i.constructor ∨ e ∈ i.endpoints := by
  rw [Interface.endpoint?] at found
  split_ifs at found
  · cases called : i.constructor with
    | none => exact .inr (List.mem_of_find?_eq_some (by simpa [called] using found))
    | some c => exact .inl (by simpa [called] using found)
  · exact .inr (List.mem_of_find?_eq_some found)

/-! ## Types of inputs -/

namespace Document

variable {types : Table} {raws : List Parameter} {isMulti : Parameter → Option Bool}
  {parameters : List (Field Ty)} {c : Contract} {i : Interface} {t : Ty}

/-- The type of a parameter is what its spelling denotes, or `variadic` around that. -/
lemma ParameterMeans.exists_parse
    (means : List.Forall₂ (fun raw => ParameterMeans types (isMulti raw) raw) raws parameters)
    (member : t ∈ parameters.map (·.type)) :
    ∃ source u, Ty.parse source types = .ok u ∧ (t = u ∨ t = .variadic u) := by
  induction means with
  | nil => simp at member
  | @cons raw parameter _ _ first _ ih =>
    obtain rfl | below := List.mem_cons.mp member
    · obtain ⟨-, u, denoted, type⟩ := first
      refine ⟨raw.type, u, denoted, ?_⟩
      change parameter.type = u ∨ parameter.type = .variadic u
      rw [type]
      split_ifs <;> simp
    · exact ih below

/-- The type of an input is what its spelling denotes with the custom types of the interface, or
`variadic` around that. -/
lemma Contract.inputs_of_resolve {e : ContractCalls.Endpoint} {name : String}
    (resolved : c.resolve = .ok i) (found : i.endpoint? name = some e) (input : t ∈ e.inputTypes) :
    ∃ source u, Ty.parse source i.types = .ok u ∧ (t = u ∨ t = .variadic u) := by
  obtain ⟨-, -, constructor, endpoints⟩ := Contract.built_of_resolve resolved
  obtain called | listed := Interface.mem_of_endpoint? found
  · obtain ⟨raw, -, built⟩ := constructor e called
    exact ParameterMeans.exists_parse (Constructor.means_of_resolve built).1 input
  · obtain ⟨raw, -, built⟩ := exists_of_mem_mapM endpoints listed
    exact ParameterMeans.exists_parse (Endpoint.means_of_resolve built).2.1 input

/-- The type of an input has a spelling with the custom types of the interface. It is not too deep,
unless `variadic` stands around a type whose spelling has as many brackets as there may be. -/
lemma Contract.hasSpelling_of_resolve {e : ContractCalls.Endpoint} {name : String}
    (resolved : c.resolve = .ok i) (found : i.endpoint? name = some e) (input : t ∈ e.inputTypes) :
    HasSpelling (Found i.types.find) t ∧
      (t.expression.depth ≤ Expression.maxDepth ∨
        ∃ u, t = .variadic u ∧ u.expression.depth = Expression.maxDepth) := by
  have own : i.types.IsNamed :=
    Table.isNamed_of_forall (Contract.isSettled_of_resolve resolved).names
  obtain ⟨source, u, read, form⟩ := Contract.inputs_of_resolve resolved found input
  obtain ⟨spelled, written, -, depth, bound⟩ := hasSpelling_of_parse own read
  have shallow : u.expression.depth ≤ Expression.maxDepth := depth ▸ bound
  obtain rfl | rfl := form
  · exact ⟨spelled, .inl shallow⟩
  · refine ⟨spelled.generic rfl, ?_⟩
    rw [depth_expression_generic]
    obtain below | full := shallow.lt_or_eq
    · exact .inl below
    · exact .inr ⟨u, rfl, full⟩

/-- A contract with one endpoint and no definitions is resolved if the endpoint is. -/
lemma Contract.resolve_eq_ok_of_endpoint {name : String} {docs : List String}
    {raw : Document.Endpoint} {e : ContractCalls.Endpoint}
    (built : raw.resolve (Table.find []) = .ok e) :
    (⟨name, docs, none, [raw], []⟩ : Contract).resolve = .ok ⟨name, docs, none, [e], []⟩ := by
  have solves : Definitions.Solves [] [] := ⟨by simp, by simp⟩
  obtain ⟨memo, resolved, -⟩ := (Definitions.completeness []).resolveEndpoint
    (Definitions.custom_nil_complete solves (by simp)) raw e built [] (by simp [Table.Within])
  have endpoints :
      resolveEndpoints (Definitions.custom [] []) name [] [raw] [] = .ok ([e], memo) := by
    rw [resolveEndpoints, if_neg (by simp)]
    exact bind_eq_ok_iff.mpr ⟨_, liftMalformed_eq_ok_iff.mpr resolved, rfl⟩
  have resolver : (⟨name, docs, none, [raw], []⟩ : Contract).resolver [] =
      .ok (⟨name, docs, none, [e], []⟩, memo) := by
    rw [Contract.resolver]
    exact bind_eq_ok_iff.mpr ⟨([e], memo), endpoints, rfl⟩
  exact map_eq_ok_iff.mpr ⟨_, resolver, rfl⟩

end Document

namespace Registry

variable {r : Registry} {selection : Option (List String)} {view : View} {name : String}
  {e : Endpoint} {t : Ty}

/-- Each interface of a registry is what a contract is resolved to. -/
lemma Reachable.exists_contract (h : Reachable r) :
    ∀ i ∈ r.interfaces, ∃ c : Document.Contract, c.resolve = .ok i :=
  h.forall_interfaces fun c _ resolved => ⟨c, resolved⟩

/-- A contract is loaded into the empty registry if it can be resolved. -/
lemma Reachable.of_contract {c : Document.Contract} {i : Interface} (resolved : c.resolve = .ok i) :
    Reachable ⟨[i]⟩ := by
  have added : (Operation.add c).apply .empty = .ok ⟨[i]⟩ := by
    simp [Operation.apply, Registry.add, resolved, Registry.empty, names, checkNew]
  have run : (Operation.add c).update.run .empty = .ok () ⟨[i]⟩ := by
    rw [Operation.run_update, added]
  exact .success .empty run

/-- Spellings of declared types. In a registry that operations lead to, take a view and an input of
an endpoint that is found in it. With the table of the view, the spelling of the input's type
denotes this type exactly if it has at most 64 brackets around one another and the table has the
structs and enums that it names. It has no more brackets, unless `variadic` stands around 64 of them.
The endpoint is that of the first interface of the view that has one of this name. This interface has
the structs and enums, and the table has one if the interfaces of the view that declare its name
agree. -/
theorem reachable_parse_display (h : Reachable r) (selected : r.select selection = .ok view)
    (found : view.endpoint name = .ok e) (input : t ∈ e.inputTypes) :
    (Ty.parse t.display view.customTypes = .ok t ↔ t.expression.depth ≤ 64 ∧
      ∀ entry ∈ t.customs, view.customTypes.lookup entry.1 = some entry.2) ∧
    (t.expression.depth ≤ 64 ∨ ∃ u, t = .variadic u ∧ u.expression.depth = 64) ∧
    ∃ before i after, view.interfaces = before ++ i :: after ∧
      (∀ j ∈ before, j.endpoint? name = none) ∧ i.endpoint? name = some e ∧
      ∀ entry ∈ t.customs, i.types.lookup entry.1 = some entry.2 ∧
        ((∀ j ∈ view.interfaces, ∀ u, j.types.lookup entry.1 = some u → u = entry.2) →
          view.customTypes.lookup entry.1 = some entry.2) := by
  obtain ⟨before, i, after, split, here, first⟩ := View.exists_interface_of_endpoint found
  have member : i ∈ view.interfaces := by simp [split]
  have settled := h.forall_interfaces fun _ _ => Document.Contract.isSettled_of_resolve
  have named : view.customTypes.IsNamed := View.isNamed_customTypes fun j behind =>
    (settled j (mem_of_select selected behind)).names
  have own : i.types.IsNamed :=
    Table.isNamed_of_forall (settled i (mem_of_select selected member)).names
  obtain ⟨c, resolved⟩ := h.exists_contract i (mem_of_select selected member)
  obtain ⟨spelled, bound⟩ := Document.Contract.hasSpelling_of_resolve resolved here input
  refine ⟨spelled.parse_display_iff own.found named, bound, before, i, after, split, first, here,
    fun entry needed => ?_⟩
  have declared : i.types.lookup entry.1 = some entry.2 :=
    Table.found_iff.mp (spelled.resolves.customs own.found entry needed)
  exact ⟨declared, View.lookup_customTypes_of_agree member declared⟩

/-- An input for any number of structs that two interfaces declare alike. -/
theorem reachable_parse_display_shared :
    let shared : Ty := .struct "S" [⟨"x", .primitive .u8⟩]
    let put : Endpoint := .make "put" [] [⟨"s", .variadic shared⟩] [] .mutable []
    let r : Registry :=
      ⟨[⟨"A", [], none, [], [("S", shared)]⟩, ⟨"B", [], none, [put], [("S", shared)]⟩]⟩
    Reachable r ∧ r.all.endpoint "put" = .ok put ∧ .variadic shared ∈ put.inputTypes ∧
      Ty.parse "variadic<S>" r.all.customTypes = .ok (.variadic shared) := by
  intro shared put r
  let a : Document.Contract := ⟨"A", [], none, [], [("S", .struct [⟨"x", "u8"⟩])]⟩
  let b : Document.Contract :=
    ⟨"B", [], none, [⟨"put", [], none, [], [⟨"s", "S", some true, none⟩], []⟩],
      [("S", .struct [⟨"x", "u8"⟩])]⟩
  have added : (Operation.add a).update.run .empty =
      .ok () ⟨[⟨"A", [], none, [], [("S", shared)]⟩]⟩ := by cbv
  have added' : (Operation.add b).update.run ⟨[⟨"A", [], none, [], [("S", shared)]⟩]⟩ =
      .ok () r := by cbv
  have reachable : Reachable r := .success (.success .empty added) added'
  have found : r.all.endpoint "put" = .ok put := by cbv
  have input : .variadic shared ∈ put.inputTypes := by
    simp [put, Endpoint.make, Endpoint.inputTypes]
  have everything : r.select none = .ok r.all := rfl
  obtain ⟨reads, -, _, _, _, -, -, -, declared⟩ :=
    reachable_parse_display reachable everything found input
  have table : ∀ entry ∈ (Ty.variadic shared).customs,
      r.all.customTypes.lookup entry.1 = some entry.2 := by
    intro entry needed
    obtain rfl : entry = ("S", shared) := by simpa [customs, customsAll, shared] using needed
    refine (declared _ needed).2 fun j member u other => ?_
    obtain rfl | rfl : j = ⟨"A", [], none, [], [("S", shared)]⟩ ∨
        j = ⟨"B", [], none, [put], [("S", shared)]⟩ := by simpa [r, all] using member
    all_goals simpa using other.symm
  have spelling : (Ty.variadic shared).display = "variadic<S>" := by
    have spelled : (Ty.variadic shared).spell = "variadic<S>".toList := by
      have bare : shared.spell = "S".toList := spell_of_customName? rfl
      simp [spell_generic, spellAll, Text.join, bare, Generic.name]
    rw [display, spelled, String.ofList_toList]
  exact ⟨reachable, found, input, spelling ▸ reads.mpr ⟨by decide, table⟩⟩

end Registry

/-! ## Spellings that are not read -/

namespace Ty

variable {n : Nat}

/-- Lists inside one another. -/
def nestedList : Nat → Ty
  | 0 => .primitive .u8
  | n + 1 => .list (nestedList n)

/-- The expression of nested lists is as deep as they are. -/
lemma depth_expression_nestedList : (nestedList n).expression.depth = n := by
  induction n with
  | zero => rfl
  | succ n ih => rw [nestedList, depth_expression_generic, ih]

/-- Nested lists hold no custom type. -/
lemma customs_nestedList : (nestedList n).customs = [] := by
  induction n with
  | zero => rfl
  | succ n ih => simp [nestedList, customs, customsAll, ih]

/-- Nested lists are spelled by names that stand for them. -/
lemma hasSpelling_nestedList : HasSpelling (Found (Table.find [])) (nestedList n) := by
  induction n with
  | zero => exact hasSpelling_primitive .u8
  | succ n ih => exact ih.generic rfl

/-- In the empty table all types stand under their own names. -/
lemma isNamed_nil : Table.IsNamed [] :=
  Table.isNamed_of_forall (by simp)

/-- Nested lists as deep as expressions may be are read back. -/
lemma parse_nestedList : parse (nestedList 64).display [] = .ok (nestedList 64) := by
  refine (hasSpelling_nestedList.parse_display_iff isNamed_nil.found isNamed_nil).mpr ⟨?_, ?_⟩
  · rw [depth_expression_nestedList]
    rfl
  · simp [customs_nestedList]

/-- Around as many lists as there may be brackets, `variadic` is one too many. -/
lemma parse_variadic_nestedList_ne :
    parse (variadic (nestedList 64)).display [] ≠ .ok (variadic (nestedList 64)) := by
  have spelled : HasSpelling (Found (Table.find [])) (variadic (nestedList 64)) :=
    hasSpelling_nestedList.generic rfl
  intro read
  have bound := ((spelled.parse_display_iff isNamed_nil.found isNamed_nil).mp read).1
  rw [depth_expression_generic, depth_expression_nestedList] at bound
  exact absurd bound (by decide)

end Ty

namespace Registry

/-- A struct of which another interface declares one with its name, and `variadic` around as many
lists as there may be brackets. -/
theorem reachable_parse_display_otherwise :
    (let mine : Ty := .struct "S" [⟨"x", .primitive .u8⟩]
      let other : Ty := .struct "S" [⟨"y", .primitive .bool⟩]
      let put : Endpoint := .make "put" [] [⟨"s", mine⟩] [] .mutable []
      let r : Registry :=
        ⟨[⟨"A", [], none, [put], [("S", mine)]⟩, ⟨"B", [], none, [], [("S", other)]⟩]⟩
      Reachable r ∧ r.all.endpoint "put" = .ok put ∧ mine ∈ put.inputTypes ∧
        Ty.parse mine.display r.all.customTypes ≠ .ok mine) ∧
    (let deep : Ty := .variadic (nestedList 64)
      let put : Endpoint := .make "put" [] [⟨"s", deep⟩] [] .mutable []
      let r : Registry := ⟨[⟨"A", [], none, [put], []⟩]⟩
      Reachable r ∧ r.all.endpoint "put" = .ok put ∧ deep ∈ put.inputTypes ∧
        Ty.parse deep.display r.all.customTypes ≠ .ok deep) := by
  refine ⟨?_, ?_⟩
  · intro mine other put r
    let a : Document.Contract :=
      ⟨"A", [], none, [⟨"put", [], none, [], [⟨"s", "S", none, none⟩], []⟩],
        [("S", .struct [⟨"x", "u8"⟩])]⟩
    let b : Document.Contract := ⟨"B", [], none, [], [("S", .struct [⟨"y", "bool"⟩])]⟩
    have added : (Operation.add a).update.run .empty =
        .ok () ⟨[⟨"A", [], none, [put], [("S", mine)]⟩]⟩ := by cbv
    have added' : (Operation.add b).update.run ⟨[⟨"A", [], none, [put], [("S", mine)]⟩]⟩ =
        .ok () r := by cbv
    have spelling : mine.display = "S" := by
      have bare : mine.spell = "S".toList := spell_of_customName? rfl
      rw [display, bare, String.ofList_toList]
    have read : Ty.parse "S" r.all.customTypes = .ok other := by cbv
    refine ⟨.success (.success .empty added) added', by cbv,
      by simp [put, Endpoint.make, Endpoint.inputTypes], ?_⟩
    rw [spelling, read]
    simp [mine, other]
  · intro deep put r
    have written : Document.ParameterMeans [] (some true)
        ⟨"s", (nestedList 64).display, some true, none⟩ ⟨"s", deep⟩ :=
      ⟨rfl, _, parse_nestedList, rfl⟩
    have built : Document.Endpoint.resolve (Table.find [])
        ⟨"put", [], none, [], [⟨"s", (nestedList 64).display, some true, none⟩], []⟩ = .ok put := by
      have input := Document.resolveParameter_eq_ok_iff.mpr written
      simp [Document.Endpoint.resolve, Document.resolveInputs, Document.resolveOutputs, input, put]
      rfl
    have loaded : Reachable r := .of_contract (Document.Contract.resolve_eq_ok_of_endpoint built)
    refine ⟨loaded, ?_, by simp [put, Endpoint.make, Endpoint.inputTypes], ?_⟩
    · simp [r, all, View.endpoint, Interface.endpoint?, put, Endpoint.make,
        Document.constructorName]
    · have table : r.all.customTypes = [] := by simp [r, all, View.customTypes]
      rw [table]
      exact parse_variadic_nestedList_ne

end Registry

end ContractCalls

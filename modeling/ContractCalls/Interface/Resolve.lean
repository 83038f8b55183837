import ContractCalls.Interface.Document
import ContractCalls.Interface.Endpoint
import ContractCalls.Interface.Error
import ContractCalls.Ty.Resolve

/-!
# Resolving interfaces

The types of a document are spelled with the names of its definitions. A definition is resolved by
resolving the spellings in it, which may need other definitions; each is built once and kept. A
definition that needs itself is refused, and so is an enum with a repeated discriminant.
-/

namespace ContractCalls

/-- A contract with all its types resolved. Its custom types are sorted by name. -/
structure Interface where
  name : String
  docs : List String
  constructor : Option Endpoint
  endpoints : List Endpoint
  types : Ty.Table
  deriving DecidableEq, Repr

namespace Document

/-- The name under which a constructor is found. -/
def constructorName : String := "init"

/-- Definitions of custom types by name. -/
abbrev Definitions := List (String × Definition)

section

variable {m : Type → Type} [Monad m] [MonadExcept MalformedType m]

/-- Resolves the spelling in a field. -/
def resolveField (lookup : Ty.Lookup m) (field : Field String) : m (Field Ty) :=
  return ⟨field.name, ← Ty.parseWith lookup field.type⟩

/-- Resolves the variants of the enum `owner`, where the discriminants `seen` stand before them. -/
def resolveVariants (lookup : Ty.Lookup m) (owner : String) (seen : List UInt8) :
    List (Variant String) → m (List (Variant Ty))
  | [] => return []
  | variant :: variants =>
    if seen.contains variant.discriminant then
      throw ⟨owner, .repeatedDiscriminant variant.discriminant⟩
    else do
      let fields ← variant.fields.mapM (resolveField lookup)
      let rest ← resolveVariants lookup owner (variant.discriminant :: seen) variants
      return ⟨variant.discriminant, variant.name, fields⟩ :: rest

/-- Resolves the definition of the type `name`, given how the names in it are found. -/
def Definition.resolve (lookup : Ty.Lookup m) (name : String) : Definition → m Ty
  | struct fields => return .struct name (← fields.mapM (resolveField lookup))
  | enum variants => return .enum name (← resolveVariants lookup name [] variants)

end

/-- A resolution under way, with the custom types that are built so far. -/
abbrev Resolver := StateT Ty.Table (Except MalformedType)

namespace Definitions

/-- The definitions of types that are not being built. -/
def waiting (definitions : Definitions) (inProgress : List String) : Definitions :=
  definitions.filter fun entry => !inProgress.contains entry.1

/-- Fewer definitions wait when one more is being built. -/
theorem length_waiting_lt {definitions : Definitions} {inProgress : List String} {name : String}
    {definition : Definition} (declared : definitions.lookup name = some definition)
    (fresh : ¬inProgress.contains name) :
    (definitions.waiting (inProgress ++ [name])).length < (definitions.waiting inProgress).length := by
  have shrinks : definitions.waiting (inProgress ++ [name])
      = (definitions.waiting inProgress).filter (·.1 ≠ name) := by
    simp only [waiting, List.filter_filter]
    congr 1
    funext entry
    simp [List.contains_eq_mem, Bool.and_comm]
  obtain ⟨_, _, rfl, _⟩ := List.lookup_eq_some_iff.mp declared
  rw [shrinks, List.length_filter_lt_length_iff_exists]
  exact ⟨(name, definition), List.mem_filter.mpr ⟨by simp, by simpa using fresh⟩, by simp⟩

/-- Finds the custom type `name`, needed by the definitions of `inProgress`, each of which needs the
next. It is built from its definition unless that has been done already. -/
def custom (definitions : Definitions) (inProgress : List String) (name : String) :
    Resolver (Option Ty) := do
  match (← get).lookup name with
  | some t => return some t
  | none =>
    match _declared : definitions.lookup name with
    | none => return none
    | some definition =>
      if _cyclic : inProgress.contains name then throw ⟨name, .recursive inProgress name⟩
      else
        let t ← definition.resolve (fun needed => custom definitions (inProgress ++ [name]) needed)
          name
        modify ((name, t) :: ·)
        return some t
termination_by (definitions.waiting inProgress).length
decreasing_by exact length_waiting_lt _declared _cyclic

/-- Finds the custom types of several names. -/
def customs (definitions : Definitions) : List String → Resolver Ty.Table
  | [] => return []
  | name :: names => do
    let found ← definitions.custom [] name
    let rest ← definitions.customs names
    return (found.map (name, ·)).toList ++ rest

/-- Resolves all definitions. -/
def resolveAll (definitions : Definitions) : Resolver Ty.Table :=
  definitions.customs (definitions.map (·.1))

end Definitions

section

variable {m : Type → Type} [Monad m] [MonadExcept MalformedType m]

/-- Resolves an input or output; one marked as standing for any number of arguments becomes
`variadic`, unless its type spans several arguments already. -/
def Parameter.resolve (lookup : Ty.Lookup m) (isMulti : Option Bool) (p : Parameter) :
    m (Field Ty) := do
  let t ← Ty.parseWith lookup p.type
  return ⟨p.name, if isMulti = some true ∧ ¬t.isMultiValue then .variadic t else t⟩

/-- Resolves inputs. -/
def resolveInputs (lookup : Ty.Lookup m) (inputs : List Parameter) : m (List (Field Ty)) :=
  inputs.mapM fun p => p.resolve lookup p.multiArg

/-- Resolves outputs. -/
def resolveOutputs (lookup : Ty.Lookup m) (outputs : List Parameter) : m (List (Field Ty)) :=
  outputs.mapM fun p => p.resolve lookup p.multiResult

/-- Resolves a constructor. -/
def Constructor.resolve (lookup : Ty.Lookup m) (c : Constructor) : m ContractCalls.Endpoint := do
  let inputs ← resolveInputs lookup c.inputs
  let outputs ← resolveOutputs lookup c.outputs
  return .make constructorName c.docs inputs outputs .mutable c.payableIn

/-- Resolves an endpoint. -/
def Endpoint.resolve (lookup : Ty.Lookup m) (e : Endpoint) : m ContractCalls.Endpoint := do
  let inputs ← resolveInputs lookup e.inputs
  let outputs ← resolveOutputs lookup e.outputs
  return .make e.name e.docs inputs outputs (.ofDocument e.mutability) e.payableIn

end

/-- Passes a malformed type on as a refused interface. -/
def liftMalformed {α : Type} (resolver : Resolver α) : StateT Ty.Table (Except InterfaceError) α :=
  fun types => (resolver types).mapError .malformedType

/-- Resolves the endpoints of the contract `owner`, where endpoints of the names `seen` stand before
them. -/
def resolveEndpoints (lookup : Ty.Lookup Resolver) (owner : String) (seen : List String) :
    List Endpoint → StateT Ty.Table (Except InterfaceError) (List ContractCalls.Endpoint)
  | [] => return []
  | e :: es =>
    if seen.contains e.name then throw (.invalidDocument (.repeatedEndpoint e.name owner))
    else do
      let resolved ← liftMalformed (e.resolve lookup)
      return resolved :: (← resolveEndpoints lookup owner (e.name :: seen) es)

/-- Resolves a contract: its definitions in the order of their names, then its constructor and its
endpoints. -/
def Contract.resolver (c : Contract) : StateT Ty.Table (Except InterfaceError) Interface := do
  let types ← liftMalformed (Definitions.resolveAll c.types)
  let constructor ← liftMalformed (c.constructor.mapM (·.resolve (Definitions.custom c.types [])))
  let endpoints ← resolveEndpoints (Definitions.custom c.types []) c.name [] c.endpoints
  return ⟨c.name, c.docs, constructor, endpoints, types⟩

/-- Resolves a contract, with no custom type built before. -/
def Contract.resolve (c : Contract) : Except InterfaceError Interface :=
  c.resolver.run' []

end Document

end ContractCalls

import ContractCalls.Interface.Resolve

/-!
# The registry

A registry holds interfaces in the order in which they were loaded, no two with one name. A document
is loaded as a whole or not at all. A view is a selection of the interfaces; names are looked up in
its interfaces one after another.
-/

namespace ContractCalls

namespace Interface

/-- The endpoint with a name; the name of constructors stands for the constructor, if there is
one. -/
def endpoint? (i : Interface) (name : String) : Option Endpoint :=
  let listed := i.endpoints.find? (·.name = name)
  if name = Document.constructorName then i.constructor <|> listed else listed

end Interface

/-- Loaded interfaces. -/
structure Registry where
  interfaces : List Interface
  deriving DecidableEq, Repr

/-- Selected interfaces, in the order in which names are looked up. -/
structure View where
  interfaces : List Interface
  deriving DecidableEq, Repr

namespace Registry

/-- The registry without interfaces. -/
def empty : Registry := ⟨[]⟩

/-- The names of the interfaces. -/
def names (r : Registry) : List String :=
  r.interfaces.map (·.name)

/-- Refuses a name that is taken. -/
def checkNew (taken : List String) (name : String) : Except InterfaceError Unit :=
  if taken.contains name then .error (.invalidDocument (.repeatedInterface name)) else .ok ()

/-- Resolves contracts with names that are neither taken nor repeated. -/
def resolveBatch (taken : List String) :
    List Document.Contract → Except InterfaceError (List Interface)
  | [] => .ok []
  | c :: cs => do
    checkNew taken c.name
    let i ← c.resolve
    return i :: (← resolveBatch (c.name :: taken) cs)

/-- Adds the contracts of a document. -/
def addDocument (r : Registry) (document : Document) : Except InterfaceError Registry := do
  return ⟨r.interfaces ++ (← resolveBatch r.names document.contracts)⟩

/-- Adds the contracts of a document given as a text. -/
def extend (r : Registry) (text : String) : Except InterfaceError Registry :=
  match Document.parse? text with
  | some document => r.addDocument document
  | none => .error (.invalidDocument .unreadable)

/-- Adds a contract. -/
def add (r : Registry) (c : Document.Contract) : Except InterfaceError Registry := do
  checkNew r.names c.name
  let i ← c.resolve
  return ⟨r.interfaces ++ [i]⟩

/-- The registry of one document. -/
def parse (text : String) : Except InterfaceError Registry :=
  empty.extend text

/-- The interface with a name. -/
def find (r : Registry) (name : String) : Except InterfaceError Interface :=
  match r.interfaces.find? (·.name = name) with
  | some i => .ok i
  | none => .error (.unknownInterface name)

/-- The view of the interfaces with the given names, in their order. -/
def restrict (r : Registry) (names : List String) : Except InterfaceError View :=
  return ⟨← names.mapM r.find⟩

/-- The view of all interfaces. -/
def all (r : Registry) : View := ⟨r.interfaces⟩

/-- The view of the interfaces with the given names, or of all if none are given. -/
def select (r : Registry) : Option (List String) → Except InterfaceError View
  | some names => r.restrict names
  | none => .ok r.all

end Registry

namespace View

/-- The first endpoint with a name. -/
def endpoint (v : View) (name : String) : Except InterfaceError Endpoint :=
  match v.interfaces.findSome? (·.endpoint? name) with
  | some e => .ok e
  | none => .error (.unknownEndpoint name)

/-- The first constructor. -/
def constructor? (v : View) : Option Endpoint :=
  v.interfaces.findSome? (·.constructor)

/-- The endpoints, without the constructors. -/
def endpoints (v : View) : List Endpoint :=
  v.interfaces.flatMap (·.endpoints)

/-- The first custom type with a name. -/
def customType? (v : View) (name : String) : Option Ty :=
  v.interfaces.findSome? (·.types.lookup name)

/-- The custom types by name, where those of a later interface come before those of an earlier
one. -/
def customTypes (v : View) : Ty.Table :=
  v.interfaces.reverse.flatMap (·.types)

end View

end ContractCalls

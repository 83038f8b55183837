import ContractCalls.Interface.Registry

/-!
# Updates of a registry in place

The operations that load contracts, as steps that read and change one registry. A step that fails
ends the operation and leaves the registry as it is by then. The contracts of a document are
collected first and put into the registry when all of them are there.
-/

namespace ContractCalls.Registry

/-- Steps on a registry. A failure comes with the registry that it leaves. -/
abbrev Update := EStateM InterfaceError Registry

namespace Update

/-- Puts interfaces behind those of the registry. -/
def append (interfaces : List Interface) : Update Unit :=
  modify fun r => ⟨r.interfaces ++ interfaces⟩

/-- Resolves contracts whose names are neither those of the registry nor of `pending` interfaces. -/
def collect (pending : List Interface) : List Document.Contract → Update (List Interface)
  | [] => return pending
  | c :: cs => do
    let r ← get
    ofExcept (checkNew (r.names ++ pending.map (·.name)) c.name)
    let i ← ofExcept c.resolve
    collect (pending ++ [i]) cs

/-- Adds the contracts of a document given as a text. -/
def extend (text : String) : Update Unit :=
  match Document.parse? text with
  | some document => do
    let interfaces ← collect [] document.contracts
    append interfaces
  | none => throw (.invalidDocument .unreadable)

/-- Adds a contract. -/
def add (c : Document.Contract) : Update Unit := do
  let r ← get
  ofExcept (checkNew r.names c.name)
  let i ← ofExcept c.resolve
  append [i]

end Update

/-- What can be done to a registry. -/
inductive Operation where
  | extend (text : String)
  | add (contract : Document.Contract)

namespace Operation

/-- The operation as steps on a registry. -/
def update : Operation → Update Unit
  | extend text => Update.extend text
  | add c => Update.add c

/-- The registry that the operation makes of another one, if it succeeds. -/
def apply (r : Registry) : Operation → Except InterfaceError Registry
  | extend text => r.extend text
  | add c => r.add c

/-- The contracts that the operation adds. -/
def contracts : Operation → List Document.Contract
  | extend text => ((Document.parse? text).map Document.contracts).getD []
  | add c => [c]

end Operation

end ContractCalls.Registry

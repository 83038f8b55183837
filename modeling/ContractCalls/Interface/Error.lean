import ContractCalls.Ty.Fault

/-!
# Refused interfaces and names
-/

namespace ContractCalls

/-- What is wrong with an interface document. -/
inductive DocumentFault where
  /-- The text is no interface document. -/
  | unreadable
  /-- The file cannot be read. -/
  | noFile (path reason : String)
  /-- Two contracts have one name. -/
  | repeatedInterface (name : String)
  /-- Two endpoints of a contract have one name. -/
  | repeatedEndpoint (name owner : String)
  deriving DecidableEq, Repr

/-- The message of a fault in a document. -/
def DocumentFault.message : DocumentFault → String
  | .unreadable => "the text describes no contract"
  | .noFile path reason => "cannot read " ++ path ++ ": " ++ reason
  | .repeatedInterface name => "duplicate contract interface '" ++ name ++ "'"
  | .repeatedEndpoint name owner => "duplicate endpoint '" ++ name ++ "' in '" ++ owner ++ "'"

/-- Why an interface cannot be loaded or a name in it not found. -/
inductive InterfaceError where
  /-- A type is malformed. -/
  | malformedType (e : MalformedType)
  /-- No endpoint has the name. -/
  | unknownEndpoint (name : String)
  /-- No interface has the name. -/
  | unknownInterface (name : String)
  /-- A document is refused. -/
  | invalidDocument (fault : DocumentFault)
  deriving DecidableEq, Repr

/-- The message of an interface that is not loaded or found. -/
def InterfaceError.message : InterfaceError → String
  | .malformedType e => e.message
  | .unknownEndpoint name => "endpoint '" ++ name ++ "' not found"
  | .unknownInterface name => "contract interface '" ++ name ++ "' not found in registry"
  | .invalidDocument fault => "invalid ABI document: " ++ fault.message

end ContractCalls

/-!
# What is asked of a JSON text

A reader that wants a record asks a text only for the parts of the record. A shape says what is
asked for at a place of a text: everything there, the parts of a record, or a list of values of
which the same is asked. A record may be written as an object or as an array of its parts in their
order.
-/

namespace ContractCalls.Json

/-- What is asked for at a place of a text. -/
inductive Shape where
  | any
  | record (parts : List (String × Shape))
  | list (item : Shape)
  deriving Repr

namespace Shape

/-- The names of the parts of a record, in their order. -/
def names : Shape → List String
  | record parts => parts.map Prod.fst
  | _ => []

/-- What is asked of a member of an object. Nothing is asked of a member that is no part of the
record. -/
def member? (key : String) : Shape → Option Shape
  | record parts => parts.lookup key
  | _ => some any

/-- What is asked of the first item of an array. -/
def head : Shape → Shape
  | record ((_, part) :: _) => part
  | list item => item
  | _ => any

/-- What is asked of an array without its first item. -/
def tail : Shape → Shape
  | record (_ :: parts) => record parts
  | shape => shape

end Shape

end ContractCalls.Json

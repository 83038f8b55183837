/-!
# TOML values

The values of a TOML document, as far as settings tell them apart: dates and times are moments, and
numbers and truth values are scalars, all without content.
-/

namespace ContractCalls

/-- A TOML value. -/
inductive Toml where
  | text (s : String)
  | scalar
  | moment
  | array (items : List Toml)
  | table (entries : List (String × Toml))
  deriving Repr

namespace Toml

/-- The parts of a record with the given part names: the entries of a table, or the items of an
array in the order of the names. A moment is a record too, but has none of the parts. -/
def parts? (names : List String) : Toml → Option (List (String × Toml))
  | .table entries => some entries
  | .array items => some (names.zip items)
  | .moment => some []
  | .text _ => none
  | .scalar => none

/-- The content of a text. -/
def toText? : Toml → Option String
  | .text s => some s
  | _ => none

/-- The contents of an array of texts. -/
def toTexts? : Toml → Option (List String)
  | .array items => items.mapM toText?
  | _ => none

end Toml

end ContractCalls

/-!
# Joined texts
-/

namespace ContractCalls.Text

/-- The texts one after another with a separator between them. -/
def join (separator : List Char) : List (List Char) → List Char
  | [] => []
  | [text] => text
  | text :: texts => text ++ separator ++ join separator texts

/-- The strings one after another with a separator between them. -/
def joinStrings (separator : String) : List String → String
  | [] => ""
  | [text] => text
  | text :: texts => text ++ separator ++ joinStrings separator texts

end ContractCalls.Text

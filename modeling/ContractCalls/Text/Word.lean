/-!
# Words at the start of a text
-/

namespace ContractCalls.Text

/-- The text behind a given word at its start. -/
def skipWord : (word cs : List Char) → Option (List Char)
  | [], cs => some cs
  | w :: word, c :: cs => if w = c then skipWord word cs else none
  | _ :: _, [] => none

end ContractCalls.Text

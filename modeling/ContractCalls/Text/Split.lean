/-!
# Texts between separators
-/

namespace ContractCalls.Text

/-- The parts of a text between occurrences of a character. There is one part more than there are
occurrences. -/
def splitAt (mark : Char) : List Char → List (List Char)
  | [] => [[]]
  | c :: cs =>
    if c = mark then [] :: splitAt mark cs
    else
      match splitAt mark cs with
      | part :: parts => (c :: part) :: parts
      | [] => [[c]]

/-- The parts of a text before and behind the first occurrence of a character. -/
def splitFirst (mark : Char) : List Char → Option (List Char × List Char)
  | [] => none
  | c :: cs =>
    if c = mark then some ([], cs)
    else (splitFirst mark cs).map fun (before, behind) => (c :: before, behind)

end ContractCalls.Text

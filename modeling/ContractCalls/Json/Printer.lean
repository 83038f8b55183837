import ContractCalls.Json.Basic
import ContractCalls.Text.Hexadecimal
import ContractCalls.Text.Join

/-!
# Writing JSON texts

A value is written either without any white space, or with each item and member on a line of its
own, indented by two spaces a level. Strings escape quotes, backslashes and control characters and
nothing else.
-/

namespace ContractCalls.Json

/-- A character as it stands in a string. -/
def escapeChar (c : Char) : List Char :=
  match c with
  | '"' => ['\\', '"']
  | '\\' => ['\\', '\\']
  | '\x08' => ['\\', 'b']
  | '\x0c' => ['\\', 'f']
  | '\n' => ['\\', 'n']
  | '\r' => ['\\', 'r']
  | '\t' => ['\\', 't']
  | c =>
    if c.toNat < 32 then
      ['\\', 'u', '0', '0', Text.hexDigit (c.toNat / 16), Text.hexDigit (c.toNat % 16)]
    else [c]

/-- A string between quotes. -/
def quote (s : String) : List Char :=
  '"' :: s.toList.flatMap escapeChar ++ ['"']

mutual

/-- A value without white space. -/
def print : Json → List Char
  | .null => ['n', 'u', 'l', 'l']
  | .bool true => ['t', 'r', 'u', 'e']
  | .bool false => ['f', 'a', 'l', 's', 'e']
  | .number n => n.print
  | .string s => quote s
  | .array items => '[' :: Text.join [','] (printItems items) ++ [']']
  | .object members => '\x7b' :: Text.join [','] (printMembers members) ++ ['\x7d']

/-- The items of an array, each written. -/
def printItems : List Json → List (List Char)
  | [] => []
  | item :: items => item.print :: printItems items

/-- The members of an object, each written. -/
def printMembers : List (String × Json) → List (List Char)
  | [] => []
  | (key, value) :: members => (quote key ++ ':' :: value.print) :: printMembers members

end

/-- The start of a line at a level of indentation. -/
def newLine (level : Nat) : List Char :=
  '\n' :: List.replicate (2 * level) ' '

/-- Lines between brackets, or nothing between them. -/
def block (opening closing : Char) (level : Nat) (lines : List (List Char)) : List Char :=
  if lines.isEmpty then [opening, closing]
  else opening :: newLine (level + 1) ++ Text.join (',' :: newLine (level + 1)) lines ++
    newLine level ++ [closing]

mutual

/-- A value over several lines, at a level of indentation. -/
def printLines (level : Nat) : Json → List Char
  | .array items => block '[' ']' level (printLinesItems (level + 1) items)
  | .object members => block '\x7b' '\x7d' level (printLinesMembers (level + 1) members)
  | .null => print .null
  | .bool b => print (.bool b)
  | .number n => print (.number n)
  | .string s => print (.string s)

/-- The items of an array, each over several lines. -/
def printLinesItems (level : Nat) : List Json → List (List Char)
  | [] => []
  | item :: items => item.printLines level :: printLinesItems level items

/-- The members of an object, each over several lines. -/
def printLinesMembers (level : Nat) : List (String × Json) → List (List Char)
  | [] => []
  | (key, value) :: members =>
    (quote key ++ ':' :: ' ' :: value.printLines level) :: printLinesMembers level members

end

/-- The text of a value without white space. -/
def text (value : Json) : String :=
  String.ofList value.print

/-- The text of a value over several lines. -/
def textLines (value : Json) : String :=
  String.ofList (value.printLines 0)

end ContractCalls.Json

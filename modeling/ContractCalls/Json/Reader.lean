import ContractCalls.Json.Basic
import ContractCalls.Json.Shape
import ContractCalls.Json.Skip

/-!
# Reading JSON texts

A JSON text is one value with optional white space around it. The grammar is strict: no comments,
no trailing commas, no control characters in strings, no escaped surrogate without its partner, no
number too large for a double. Arrays and objects may stand in one another up to a fixed depth.

A text is read for a shape. What the shape asks for is read; the other members of a record are
skipped and left out of the value.
-/

namespace ContractCalls.Json

/-- The greatest number of arrays and objects around one another. -/
def maxDepth : Nat := 127

mutual

/-- The value at the start of a text, where `depth` more arrays and objects may stand around one
another, and the text behind it. -/
def readValue : (fuel depth : Nat) → Shape → List Char → Option (Json × List Char)
  | 0, _, _, _ => none
  | fuel + 1, depth, shape, cs =>
    match skipSpace cs with
    | '"' :: rest => (readString rest).map fun (s, rest) => (.string (String.ofList s), rest)
    | '[' :: rest =>
      match depth with
      | 0 => none
      | depth + 1 =>
        match skipSpace rest with
        | ']' :: rest => some (.array [], rest)
        | rest => (readItems fuel depth shape rest).map fun (items, rest) => (.array items, rest)
    | '\x7b' :: rest =>
      match depth with
      | 0 => none
      | depth + 1 =>
        match skipSpace rest with
        | '\x7d' :: rest => some (.object [], rest)
        | rest =>
          (readMembers fuel depth shape rest).map fun (members, rest) => (.object members, rest)
    | 'n' :: rest => (Text.skipWord ['u', 'l', 'l'] rest).map fun rest => (.null, rest)
    | 't' :: rest => (Text.skipWord ['r', 'u', 'e'] rest).map fun rest => (.bool true, rest)
    | 'f' :: rest => (Text.skipWord ['a', 'l', 's', 'e'] rest).map fun rest => (.bool false, rest)
    | rest => do
      let (lexeme, rest) ← Lexeme.scan rest
      let number ← lexeme.toNumber?
      return (.number number, rest)

/-- The items of an array up to its closing bracket, and the text behind it. -/
def readItems : (fuel depth : Nat) → Shape → List Char → Option (List Json × List Char)
  | 0, _, _, _ => none
  | fuel + 1, depth, shape, cs => do
    let (item, rest) ← readValue fuel depth shape.head cs
    match skipSpace rest with
    | ',' :: rest =>
      (readItems fuel depth shape.tail rest).map fun (items, rest) => (item :: items, rest)
    | ']' :: rest => some ([item], rest)
    | _ => none

/-- The members of an object that are asked for, up to its closing brace, and the text behind it. -/
def readMembers : (fuel depth : Nat) → Shape → List Char →
    Option (List (String × Json) × List Char)
  | 0, _, _, _ => none
  | fuel + 1, depth, shape, cs =>
    match skipSpace cs with
    | '"' :: rest => do
      let (key, rest) ← readString rest
      let key := String.ofList key
      match skipSpace rest with
      | ':' :: rest => do
        let (read, rest) ← match shape.member? key with
          | some part => (readValue fuel depth part rest).map fun (value, rest) =>
              ([(key, value)], rest)
          | none => (skipValue fuel rest).map fun rest => ([], rest)
        match skipSpace rest with
        | ',' :: rest => (readMembers fuel depth shape rest).map fun (members, rest) =>
            (read ++ members, rest)
        | '\x7d' :: rest => some (read, rest)
        | _ => none
      | _ => none
    | _ => none

end

/-- The value that a text holds for a shape, if the text is a JSON text. Each step of the reader
but the first follows a character of the text that is read, so twice its length bounds their
nesting. -/
def parseFor? (shape : Shape) (text : String) : Option Json :=
  let cs := text.toList
  match readValue (2 * cs.length + 2) maxDepth shape cs with
  | some (value, rest) => if skipSpace rest = [] then some value else none
  | none => none

/-- The value that a text holds, if the text is a JSON text. -/
def parse? (text : String) : Option Json :=
  parseFor? .any text

end ContractCalls.Json

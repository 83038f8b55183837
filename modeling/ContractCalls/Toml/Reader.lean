import ContractCalls.Toml.Quoted
import ContractCalls.Toml.Scalar
import ContractCalls.Toml.Tree

/-!
# Reading TOML documents

A document is a sequence of lines: headers of tables and of arrays of tables, and keys with their
values. Arrays and inline tables may stand in one another up to a fixed depth.
-/

namespace ContractCalls.Toml

/-! ## Keys -/

/-- The bound below which the parts of a key and the depth of a value stay. -/
def depthBound : Nat := 80

/-- Whether a character may stand in a key without quotes. -/
def isBare (c : Char) : Bool :=
  c.isAlphanum || c = '-' || c = '_'

/-- Takes one part of a key. -/
def readPart (cs : List Char) : Option (String × List Char) :=
  match cs.takeWhile isBare with
  | [] => (readQuotedKey cs).map fun (part, rest) => (String.ofList part, rest)
  | part => some (String.ofList part, cs.dropWhile isBare)

/-- Takes a key: parts with dots between them and blank space around them. -/
def readKey : (fuel : Nat) → List Char → Option (List String × List Char)
  | 0, _ => none
  | fuel + 1, cs => do
    let (part, rest) ← readPart (skipSpace cs)
    match skipSpace rest with
    | '.' :: rest => (readKey fuel rest).map fun (parts, rest) => (part :: parts, rest)
    | rest => some ([part], rest)

/-- The last part of a key and the parts before it; none if there are too many. -/
def splitKey (parts : List String) : Option (List String × String) :=
  if parts.length < depthBound then parts.getLast?.map (parts.dropLast, ·) else none

/-! ## Values -/

mutual

/-- Takes a value, inside which arrays and tables may stand in one another `depth` deep. -/
def readValue : (fuel depth : Nat) → List Char → Option (Toml × List Char)
  | 0, _, _ => none
  | fuel + 1, depth, cs =>
    match cs with
    | '[' :: rest =>
      match depth with
      | 0 => none
      | depth + 1 => (readItems fuel depth rest).map fun (items, rest) => (.array items, rest)
    | '\x7b' :: rest =>
      match depth with
      | 0 => none
      | depth + 1 =>
        match skipSpace rest with
        | '\x7d' :: rest => some (.table [], rest)
        | rest =>
          (readEntries fuel depth [] rest).map fun (entries, rest) =>
            (.table (entriesToToml entries), rest)
    | cs =>
      match readQuoted cs with
      | some (content, rest) => some (.text (String.ofList content), rest)
      | none => readScalar cs

/-- Takes the items of an array up to the closing bracket. A comma may stand behind the last. -/
def readItems : (fuel depth : Nat) → List Char → Option (List Toml × List Char)
  | 0, _, _ => none
  | fuel + 1, depth, cs => do
    match ← skipLines? cs.length cs with
    | ']' :: rest => return ([], rest)
    | rest =>
      let (item, rest) ← readValue fuel depth rest
      match ← skipLines? rest.length rest with
      | ',' :: rest =>
        let (items, rest) ← readItems fuel depth rest
        return (item :: items, rest)
      | ']' :: rest => return ([item], rest)
      | _ => none

/-- Takes the entries of an inline table up to the closing brace, behind the given ones. -/
def readEntries : (fuel depth : Nat) → Entries → List Char → Option (Entries × List Char)
  | 0, _, _, _ => none
  | fuel + 1, depth, entries, cs => do
    let (parts, rest) ← readKey cs.length cs
    let (path, key) ← splitKey parts
    let (v, rest) ← readValue fuel depth (skipSpace (← Text.skipWord ['='] rest))
    let entries ← entries.define path key v
    match skipSpace rest with
    | ',' :: rest => readEntries fuel depth entries rest
    | '\x7d' :: rest => return (entries, rest)
    | _ => none

end

/-- Takes a value. Each step of the reader but the first follows a character that is read, so twice
the length of the text bounds their nesting. -/
def readWholeValue (cs : List Char) : Option (Toml × List Char) :=
  readValue (2 * cs.length + 2) (depthBound - 1) cs

/-! ## Lines -/

/-- A document read so far, with the path of the table that was opened last. -/
structure Draft where
  entries : Entries
  current : List String

/-- Takes the key of a header up to the given closing brackets, and the end of the line. -/
def readHeader (closing : List Char) (cs : List Char) : Option (List String × List Char) := do
  let (parts, rest) ← readKey cs.length cs
  return (parts, ← endLine? (← Text.skipWord closing rest))

namespace Draft

/-- Opens the array of tables of a header that starts behind two brackets. -/
def readRowHeader (draft : Draft) (cs : List Char) : Option (Draft × List Char) := do
  let (parts, rest) ← readHeader [']', ']'] cs
  let (path, key) ← splitKey parts
  return (⟨← draft.entries.openRow path key, parts⟩, rest)

/-- Opens the table of a header that starts behind a bracket. -/
def readTableHeader (draft : Draft) (cs : List Char) : Option (Draft × List Char) := do
  let (parts, rest) ← readHeader [']'] cs
  let (path, key) ← splitKey parts
  return (⟨← draft.entries.openTable path key, parts⟩, rest)

/-- Takes a key with its value. -/
def readEntry (draft : Draft) (cs : List Char) : Option (Draft × List Char) := do
  let (parts, rest) ← readKey cs.length cs
  let (path, key) ← splitKey parts
  let (v, rest) ← readWholeValue (skipSpace (← Text.skipWord ['='] rest))
  return ({ draft with entries := ← draft.entries.defineIn draft.current path key v },
    ← endLine? rest)

/-- Takes a line. -/
def readLine (draft : Draft) : List Char → Option (Draft × List Char)
  | '[' :: '[' :: rest => draft.readRowHeader rest
  | '[' :: rest => draft.readTableHeader rest
  | '#' :: rest => (endLine? ('#' :: rest)).map (draft, ·)
  | '\n' :: rest => some (draft, rest)
  | '\r' :: rest => (lineBreak? ('\r' :: rest)).map (draft, ·)
  | cs => draft.readEntry cs

/-- Takes all lines of a text that is no longer than `fuel`. -/
def readLines : (fuel : Nat) → Draft → List Char → Option Draft
  | 0, draft, cs => if cs.isEmpty then some draft else none
  | fuel + 1, draft, cs =>
    match skipSpace cs with
    | [] => some draft
    | rest => (readLine draft rest).bind fun (draft, rest) => readLines fuel draft rest

end Draft

/-- The text without a byte order mark at its start. -/
def dropByteOrderMark : List Char → List Char
  | '\ufeff' :: rest => rest
  | cs => cs

/-- The table that a text describes, if the text is a TOML document. -/
def parse? (text : String) : Option Toml :=
  let cs := dropByteOrderMark text.toList
  (Draft.readLines cs.length ⟨[], []⟩ cs).map fun draft => .table (entriesToToml draft.entries)

end ContractCalls.Toml

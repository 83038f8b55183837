/-!
# Lines of TOML documents

Blank space, comments and the ends of lines. A line ends with a line feed, which a carriage return
may precede, or with the document.
-/

namespace ContractCalls.Toml

/-- Whether a character is blank space inside a line. -/
def isSpace (c : Char) : Bool :=
  c = ' ' || c = '\t'

/-- Whether a character may stand in a comment or in a string of one line: it is a tab or no ASCII
control character. -/
def isPlain (c : Char) : Bool :=
  c = '\t' || (32 ≤ c.toNat && c.toNat ≠ 127)

/-- The text behind blank space. -/
def skipSpace (cs : List Char) : List Char :=
  cs.dropWhile isSpace

/-- The text behind a line break. -/
def lineBreak? : List Char → Option (List Char)
  | '\n' :: rest => some rest
  | '\r' :: '\n' :: rest => some rest
  | _ => none

/-- The text behind a comment, if one stands at the start. -/
def skipComment : List Char → List Char
  | '#' :: rest => rest.dropWhile isPlain
  | cs => cs

/-- The text behind the end of a line that holds nothing more than blank space and a comment. -/
def endLine? (cs : List Char) : Option (List Char) :=
  match skipComment (skipSpace cs) with
  | [] => some []
  | rest => lineBreak? rest

/-- The text behind blank space, comments and line breaks; none if a comment does not end with a
line break. -/
def skipLines? : (fuel : Nat) → List Char → Option (List Char)
  | 0, cs => some cs
  | fuel + 1, cs =>
    match skipSpace cs with
    | '#' :: rest => (lineBreak? (rest.dropWhile isPlain)).bind (skipLines? fuel)
    | '\n' :: rest => skipLines? fuel rest
    | '\r' :: rest => (lineBreak? ('\r' :: rest)).bind (skipLines? fuel)
    | rest => some rest

end ContractCalls.Toml

import ContractCalls.Text.Hexadecimal
import ContractCalls.Toml.Line

/-!
# Quoted texts of TOML documents

A text stands between quotes, or between three quotes of one kind if it spans lines. Double quotes
admit escapes, single quotes do not. A text that spans lines may start with a line break, which does
not belong to it, and may end with up to two quotes before the closing ones.
-/

namespace ContractCalls.Toml

/-- The character that an escape of one letter denotes. -/
def escaped? : Char → Option Char
  | 'b' => some '\x08'
  | 't' => some '\t'
  | 'n' => some '\n'
  | 'f' => some '\x0c'
  | 'r' => some '\r'
  | '"' => some '"'
  | '\\' => some '\\'
  | _ => none

/-- The character with a number; surrogates have none. -/
def scalar? (n : Nat) : Option Char :=
  if h : n.isValidChar then some (Char.ofNatAux n h) else none

/-- The character whose number is written with the given hexadecimal digits. -/
def scalarOfDigits? (digits : List Char) : Option Char :=
  (Text.hexNumber? digits).bind scalar?

/-- Puts a character before a text that was read. -/
def prepend (c : Char) : Option (List Char × List Char) → Option (List Char × List Char) :=
  Option.map fun (chars, rest) => (c :: chars, rest)

/-- The text up to a closing single quote, and what stands behind it. -/
def readLiteral : List Char → Option (List Char × List Char)
  | [] => none
  | '\'' :: rest => some ([], rest)
  | c :: rest => if isPlain c then prepend c (readLiteral rest) else none

/-- The text up to a closing double quote, and what stands behind it. -/
def readBasic : List Char → Option (List Char × List Char)
  | [] => none
  | '"' :: rest => some ([], rest)
  | '\\' :: 'u' :: a :: b :: c :: d :: rest =>
    (scalarOfDigits? [a, b, c, d]).bind fun char => prepend char (readBasic rest)
  | '\\' :: 'U' :: a :: b :: c :: d :: e :: f :: g :: h :: rest =>
    (scalarOfDigits? [a, b, c, d, e, f, g, h]).bind fun char => prepend char (readBasic rest)
  | '\\' :: c :: rest => (escaped? c).bind fun char => prepend char (readBasic rest)
  | c :: rest => if isPlain c then prepend c (readBasic rest) else none

/-- The text up to three closing single quotes, and what stands behind them. -/
def readLiteralLines : List Char → Option (List Char × List Char)
  | [] => none
  | '\'' :: '\'' :: '\'' :: '\'' :: '\'' :: '\'' :: _ => none
  | '\'' :: '\'' :: '\'' :: '\'' :: rest =>
    prepend '\'' (readLiteralLines ('\'' :: '\'' :: '\'' :: rest))
  | '\'' :: '\'' :: '\'' :: rest => some ([], rest)
  | '\r' :: '\n' :: rest => prepend '\n' (readLiteralLines rest)
  | c :: rest => if c = '\n' ∨ isPlain c then prepend c (readLiteralLines rest) else none

/-- The text up to three closing double quotes, and what stands behind them. Where `joining` holds,
blank space and line breaks are left out, as they are behind a backslash that ends a line. -/
def readBasicLines (joining : Bool) : List Char → Option (List Char × List Char)
  | [] => none
  | '"' :: '"' :: '"' :: '"' :: '"' :: '"' :: _ => none
  | '"' :: '"' :: '"' :: '"' :: rest =>
    prepend '"' (readBasicLines false ('"' :: '"' :: '"' :: rest))
  | '"' :: '"' :: '"' :: rest => some ([], rest)
  | '\\' :: 'u' :: a :: b :: c :: d :: rest =>
    (scalarOfDigits? [a, b, c, d]).bind fun char => prepend char (readBasicLines false rest)
  | '\\' :: 'U' :: a :: b :: c :: d :: e :: f :: g :: h :: rest =>
    (scalarOfDigits? [a, b, c, d, e, f, g, h]).bind fun char =>
      prepend char (readBasicLines false rest)
  | '\\' :: c :: rest =>
    if (lineBreak? (skipSpace (c :: rest))).isSome then readBasicLines true (c :: rest)
    else (escaped? c).bind fun char => prepend char (readBasicLines false rest)
  | '\r' :: '\n' :: rest =>
    if joining then readBasicLines true rest else prepend '\n' (readBasicLines false rest)
  | c :: rest =>
    if joining ∧ (c = '\n' ∨ isSpace c) then readBasicLines true rest
    else if c = '\n' ∨ isPlain c then prepend c (readBasicLines false rest)
    else none

/-- The text without a line break at its start. -/
def dropLineBreak (cs : List Char) : List Char :=
  (lineBreak? cs).getD cs

/-- The text between quotes of one line at the start, and what stands behind it. -/
def readQuotedKey : List Char → Option (List Char × List Char)
  | '"' :: rest => readBasic rest
  | '\'' :: rest => readLiteral rest
  | _ => none

/-- The text between quotes at the start, and what stands behind it. -/
def readQuoted : List Char → Option (List Char × List Char)
  | '"' :: '"' :: '"' :: rest => readBasicLines false (dropLineBreak rest)
  | '\'' :: '\'' :: '\'' :: rest => readLiteralLines (dropLineBreak rest)
  | cs => readQuotedKey cs

end ContractCalls.Toml

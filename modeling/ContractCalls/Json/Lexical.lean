import ContractCalls.Text.Hexadecimal

/-!
# White space and strings of JSON texts

A string is read where its characters are asked for, and skipped where nobody asks for them. Both
refuse control characters and unknown escapes. Only a string that is read refuses an escaped
surrogate without its partner, which denotes no character.
-/

namespace ContractCalls.Json

/-- Whether a character is white space between the tokens of a JSON text. -/
def isSpace (c : Char) : Bool :=
  c = ' ' || c = '\t' || c = '\n' || c = '\r'

/-- The text behind white space. -/
def skipSpace (cs : List Char) : List Char :=
  cs.dropWhile isSpace

/-- Whether a code unit is the first of a surrogate pair. -/
def isHighSurrogate (n : Nat) : Bool :=
  0xD800 ≤ n && n < 0xDC00

/-- Whether a code unit is the second of a surrogate pair. -/
def isLowSurrogate (n : Nat) : Bool :=
  0xDC00 ≤ n && n < 0xE000

/-- The character that a surrogate pair denotes. -/
def pairedChar (high low : Nat) : Char :=
  Char.ofNat (0x10000 + (high - 0xD800) * 0x400 + (low - 0xDC00))

/-- The character that an escape of one letter denotes. -/
def escaped? : Char → Option Char
  | '"' => some '"'
  | '\\' => some '\\'
  | '/' => some '/'
  | 'b' => some '\x08'
  | 'f' => some '\x0c'
  | 'n' => some '\n'
  | 'r' => some '\r'
  | 't' => some '\t'
  | _ => none

/-- The characters of a string up to its closing quote, and the text behind it. -/
def readString : List Char → Option (List Char × List Char)
  | [] => none
  | '"' :: rest => some ([], rest)
  | '\\' :: 'u' :: a :: b :: c :: d :: rest => do
    let n ← Text.hexNumber? [a, b, c, d]
    if isLowSurrogate n then none
    else if isHighSurrogate n then
      match rest with
      | '\\' :: 'u' :: a :: b :: c :: d :: rest => do
        let low ← Text.hexNumber? [a, b, c, d]
        if isLowSurrogate low then
          let (cs, rest) ← readString rest
          return (pairedChar n low :: cs, rest)
        else none
      | _ => none
    else
      let (cs, rest) ← readString rest
      return (Char.ofNat n :: cs, rest)
  | '\\' :: c :: rest => do
    let c ← escaped? c
    let (cs, rest) ← readString rest
    return (c :: cs, rest)
  | c :: rest =>
    if c.toNat < 32 then none
    else do
      let (cs, rest) ← readString rest
      return (c :: cs, rest)

/-- The text behind the closing quote of a string, whatever its escaped code units denote. -/
def skipString : List Char → Option (List Char)
  | [] => none
  | '"' :: rest => some rest
  | '\\' :: 'u' :: a :: b :: c :: d :: rest =>
    if (Text.hexNumber? [a, b, c, d]).isSome then skipString rest else none
  | '\\' :: c :: rest => if (escaped? c).isSome then skipString rest else none
  | c :: rest => if c.toNat < 32 then none else skipString rest

end ContractCalls.Json

import ContractCalls.Number.Binary64
import ContractCalls.Text.Hexadecimal
import ContractCalls.Text.Numeral
import ContractCalls.Text.Word
import ContractCalls.Toml.Basic

/-!
# Scalars of TOML documents

Numbers, truth values, dates and times are recognized and not kept. A recognizer takes such a value
from the front of a text and gives what stands behind it. Integers fit 64 bits, positive numbers do
not exceed the largest double, and dates and times exist.
-/

namespace ContractCalls.Toml

/-- Takes a character of a set from the front of a text. -/
def skipAny (chars : List Char) : List Char → Option (List Char)
  | c :: cs => if chars.contains c then some cs else none
  | [] => none

/-- Takes a number of so many decimal digits, within bounds. -/
def fixedDigits (count least greatest : Nat) (cs : List Char) : Option (Nat × List Char) := do
  let n ← Numeral.digits? (cs.take count)
  if count ≤ cs.length ∧ least ≤ n ∧ n ≤ greatest then some (n, cs.drop count) else none

/-! ## Dates and times -/

/-- The number of days of a month. -/
def daysInMonth (year month : Nat) : Nat :=
  if month = 2 then
    if year % 4 = 0 ∧ (year % 100 ≠ 0 ∨ year % 400 = 0) then 29 else 28
  else if [4, 6, 9, 11].contains month then 30
  else 31

/-- Takes a date. -/
def skipDate (cs : List Char) : Option (List Char) := do
  let (year, cs) ← fixedDigits 4 0 9999 cs
  let (month, cs) ← fixedDigits 2 1 12 (← Text.skipWord ['-'] cs)
  let (_, cs) ← fixedDigits 2 1 (daysInMonth year month) (← Text.skipWord ['-'] cs)
  return cs

/-- Takes the fraction of a second, if one stands there. -/
def skipSecondFraction : List Char → List Char
  | '.' :: c :: rest =>
    if c.isDigit then rest.dropWhile Char.isDigit else '.' :: c :: rest
  | cs => cs

/-- Takes hours and minutes. -/
def skipMinutes (cs : List Char) : Option (List Char) := do
  let (_, cs) ← fixedDigits 2 0 23 cs
  let (_, cs) ← fixedDigits 2 0 59 (← Text.skipWord [':'] cs)
  return cs

/-- Takes a time of day. -/
def skipTime (cs : List Char) : Option (List Char) := do
  let cs ← skipMinutes cs
  let (_, cs) ← fixedDigits 2 0 60 (← Text.skipWord [':'] cs)
  return skipSecondFraction cs

/-- Takes the offset of a time zone. -/
def skipOffset (cs : List Char) : Option (List Char) :=
  skipAny ['Z', 'z'] cs <|> (skipAny ['+', '-'] cs).bind skipMinutes

/-- Takes a time of day and the offset of its zone, if one stands there. -/
def skipZonedTime (cs : List Char) : Option (List Char) :=
  (skipTime cs).map fun cs => (skipOffset cs).getD cs

/-- Takes a date, a time of day, or both. -/
def skipDateTime (cs : List Char) : Option (List Char) :=
  match skipDate cs with
  | some cs => some (((skipAny ['T', 't', ' '] cs).bind skipZonedTime).getD cs)
  | none => skipTime cs

/-! ## Numbers -/

/-- Splits a text behind its leading digits, which may have single underscores between them. -/
def splitGrouped (isDigit : Char → Bool) : List Char → List Char × List Char
  | '_' :: c :: rest =>
    if isDigit c then
      let (digits, rest) := splitGrouped isDigit rest
      (c :: digits, rest)
    else ([], '_' :: c :: rest)
  | c :: rest =>
    if isDigit c then
      let (digits, rest) := splitGrouped isDigit rest
      (c :: digits, rest)
    else ([], c :: rest)
  | [] => ([], [])

/-- Takes at least one digit, the first without an underscore before it. -/
def groupedDigits (isDigit : Char → Bool) (cs : List Char) : Option (List Char × List Char) :=
  if cs.head?.any isDigit then some (splitGrouped isDigit cs) else none

/-- A decimal number without fraction and exponent. -/
structure Whole where
  negative : Bool
  digits : List Char

/-- Takes a sign, if one stands there; true stands for minus. -/
def splitSign : List Char → Bool × List Char
  | '-' :: rest => (true, rest)
  | '+' :: rest => (false, rest)
  | cs => (false, cs)

/-- Takes a decimal number: a sign if one stands there, and a zero or digits that do not start with
zero. -/
def takeWhole (cs : List Char) : Option (Whole × List Char) :=
  let (negative, cs) := splitSign cs
  match cs with
  | '0' :: rest => some (⟨negative, ['0']⟩, rest)
  | cs => (groupedDigits Char.isDigit cs).map fun (digits, rest) => (⟨negative, digits⟩, rest)

/-- The number that digits to a base denote. -/
def ofDigits (base : Nat) (digits : List Char) : Nat :=
  digits.foldl (fun n c => n * base + (Text.hexValue? c).getD 0) 0

/-- The number of negative integers of 64 bits. -/
def signBound : Nat := 0x8000000000000000

/-- Takes an integer of 64 bits. -/
def skipDecimal (cs : List Char) : Option (List Char) := do
  let (number, rest) ← takeWhole cs
  let magnitude := ofDigits 10 number.digits
  if magnitude < signBound + (if number.negative then 1 else 0) then some rest else none

/-- Takes an integer with the mark of its base. -/
def skipMarked : List Char → Option (List Char)
  | '0' :: mark :: cs => do
    let (base, isDigit) ← match mark with
      | 'x' => some (16, fun c : Char => (Text.hexValue? c).isSome)
      | 'o' => some (8, fun c : Char => '0' ≤ c && c ≤ '7')
      | 'b' => some (2, fun c : Char => c = '0' || c = '1')
      | _ => none
    let (digits, rest) ← groupedDigits isDigit cs
    if ofDigits base digits < signBound then some rest else none
  | _ => none

/-- Takes the fraction of a number: its digits. -/
def takeFraction : List Char → Option (List Char × List Char)
  | '.' :: cs => groupedDigits Char.isDigit cs
  | _ => none

/-- Takes an exponent. -/
def takeExponent (cs : List Char) : Option (Int × List Char) := do
  let (negative, cs) := splitSign (← skipAny ['e', 'E'] cs)
  let (digits, rest) ← groupedDigits Char.isDigit cs
  let magnitude : Int := ofDigits 10 digits
  return (if negative then -magnitude else magnitude, rest)

/-- Whether `digits · 10 ^ exponent`, for digits of a written number, exceeds the largest double.
Numbers of fewer than 308 or more than 310 places need no computation. -/
def exceedsDouble (digits : List Char) (exponent : Int) : Bool :=
  let significant := digits.dropWhile (· = '0')
  let places := (significant.length : Int) + exponent
  if significant.isEmpty ∨ places < 308 then false
  else if places > 310 then true
  else
    (Binary64.round (ofDigits 10 significant * Nat.pow 10 exponent.toNat)
      (Nat.pow 10 (-exponent).toNat)).isNone

/-- Takes a number with a fraction, an exponent or both. -/
def skipFraction (cs : List Char) : Option (List Char) := do
  let (number, cs) ← takeWhole cs
  let (fraction, exponent, rest) ← match takeFraction cs with
    | some (fraction, cs) =>
      let (exponent, rest) := (takeExponent cs).getD (0, cs)
      some (fraction, exponent, rest)
    | none => (takeExponent cs).map fun (exponent, rest) => ([], exponent, rest)
  if ¬number.negative ∧ exceedsDouble (number.digits ++ fraction) (exponent - fraction.length) then
    none
  else some rest

/-- Takes the name of an infinity or of what is no number. -/
def skipSpecial (cs : List Char) : Option (List Char) :=
  let cs := (splitSign cs).2
  Text.skipWord ['i', 'n', 'f'] cs <|> Text.skipWord ['n', 'a', 'n'] cs

/-- Takes a truth value. -/
def skipBool (cs : List Char) : Option (List Char) :=
  Text.skipWord ['t', 'r', 'u', 'e'] cs <|> Text.skipWord ['f', 'a', 'l', 's', 'e'] cs

/-- Takes a number or a truth value. -/
def skipScalar (cs : List Char) : Option (List Char) :=
  skipFraction cs <|> skipSpecial cs <|> skipMarked cs <|> skipDecimal cs <|> skipBool cs

/-- Takes a date, a time, a number or a truth value. -/
def readScalar (cs : List Char) : Option (Toml × List Char) :=
  match skipDateTime cs with
  | some rest => some (.moment, rest)
  | none => (skipScalar cs).map (.scalar, ·)

end ContractCalls.Toml

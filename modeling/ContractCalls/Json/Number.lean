import ContractCalls.Number.Shortest
import ContractCalls.Text.Numeral

/-!
# Numbers of JSON texts

A number without fraction and exponent that fits 64 bits is an integer, every other number a
double. A double is made from the leading digits that fit 64 bits and a power of ten, each rounded
to a double before they are multiplied or divided.
-/

namespace ContractCalls.Json

/-- A number of a JSON text. -/
inductive Number where
  | integer (i : Int)
  | double (x : Binary64)
  deriving DecidableEq, Repr

/-- The parts of a written number: its sign, and its digits before the point, behind the point and
in the exponent, which has a sign of its own. -/
structure Lexeme where
  negative : Bool
  whole : List Nat
  fraction : List Nat
  exponent : Option (Bool × List Nat)
  deriving DecidableEq, Repr

namespace Lexeme

/-- Splits a text behind its leading digits. -/
def splitDigits : List Char → List Nat × List Char
  | [] => ([], [])
  | c :: cs =>
    match Numeral.digit? c with
    | some d =>
      let (ds, rest) := splitDigits cs
      (d :: ds, rest)
    | none => ([], c :: cs)

/-- The digits before the point: a single zero, or digits that do not start with zero. -/
def scanWhole (cs : List Char) : Option (List Nat × List Char) :=
  match splitDigits cs with
  | ([], _) => none
  | (0 :: _ :: _, _) => none
  | (ds, rest) => some (ds, rest)

/-- The digits behind the point, none if there is no point. -/
def scanFraction : List Char → Option (List Nat × List Char)
  | '.' :: cs =>
    match splitDigits cs with
    | ([], _) => none
    | (ds, rest) => some (ds, rest)
  | cs => some ([], cs)

/-- The digits of an exponent, at least one. -/
def scanExponentDigits (negative : Bool) (cs : List Char) :
    Option (Option (Bool × List Nat) × List Char) :=
  match splitDigits cs with
  | ([], _) => none
  | (ds, rest) => some (some (negative, ds), rest)

/-- The exponent, if one is written. -/
def scanExponent : List Char → Option (Option (Bool × List Nat) × List Char)
  | c :: cs =>
    if c = 'e' ∨ c = 'E' then
      match cs with
      | '-' :: cs => scanExponentDigits true cs
      | '+' :: cs => scanExponentDigits false cs
      | cs => scanExponentDigits false cs
    else some (none, c :: cs)
  | [] => some (none, [])

/-- The number at the start of a text, and the text behind it. -/
def scan (cs : List Char) : Option (Lexeme × List Char) := do
  let (negative, cs) := match cs with
    | '-' :: cs => (true, cs)
    | cs => (false, cs)
  let (whole, cs) ← scanWhole cs
  let (fraction, cs) ← scanFraction cs
  let (exponent, cs) ← scanExponent cs
  return (⟨negative, whole, fraction, exponent⟩, cs)

/-- The number with the given decimal digits. -/
def ofDigits (ds : List Nat) : Nat :=
  ds.foldl (fun n d => n * 10 + d) 0

/-- Appends digits to a number as long as it fits 64 bits; the digits from the first that does not
fit are left. -/
def absorb (n : Nat) : List Nat → Nat × List Nat
  | [] => (n, [])
  | d :: ds => if n * 10 + d < Numeral.word64Bound then absorb (n * 10 + d) ds else (n, d :: ds)

/-- The double nearest to `10 ^ k`, for `k` at most 308. -/
def powerOfTen (k : Nat) : Binary64 :=
  (Binary64.ofNat (Nat.pow 10 k)).getD Binary64.zero

/-- Divides by powers of ten up to `10 ^ 308` until the exponent `-k` is used up or nothing is
left. -/
def descend : (fuel : Nat) → Binary64 → (k : Nat) → Option Binary64
  | 0, x, _ => some x
  | fuel + 1, x, k =>
    if k ≤ 308 then x.div (powerOfTen k)
    else if x.isZero then some x
    else (x.div (powerOfTen 308)).bind fun y => descend fuel y (k - 308)

/-- The double `digits · 10 ^ exponent`, computed in doubles; none if it is too large. -/
def scale (digits : Nat) (exponent : Int) : Option Binary64 :=
  (Binary64.ofNat digits).bind fun x =>
    if exponent < 0 then descend 4 x (-exponent).toNat
    else if exponent ≤ 308 then x.mul (powerOfTen exponent.toNat)
    else if x.isZero then some x
    else none

/-- The greatest exponent that is counted, and the least with a minus sign less one. -/
def exponentBound : Nat := 0x7fffffff

/-- Keeps an exponent between the bounds of 32 bits. -/
def clampExponent (e : Int) : Int :=
  max (-(exponentBound : Int) - 1) (min exponentBound e)

/-- The double that the parts denote; none if it is too large. -/
def toDouble (number : Lexeme) : Option Binary64 :=
  let (digits, left) := absorb 0 number.whole
  let (digits, unread) := absorb digits number.fraction
  let pointed : Int := (left.length : Int) - (number.fraction.length - unread.length : Nat)
  let value := match number.exponent with
    | none => scale digits pointed
    | some (negative, ds) =>
      let e := ofDigits ds
      if e > exponentBound then
        if digits ≠ 0 ∧ ¬negative then none else some Binary64.zero
      else scale digits (clampExponent (pointed + if negative then -(e : Int) else e))
  value.map fun x => if number.negative then x.neg else x

/-- The integer that the parts denote, if they have neither fraction nor exponent, are not a
negative zero and fit 64 bits. -/
def toInteger? (number : Lexeme) : Option Int :=
  if number.fraction ≠ [] ∨ number.exponent ≠ none then none else
    let n := ofDigits number.whole
    if number.negative then
      if 0 < n ∧ n ≤ 0x8000000000000000 then some (-(n : Int)) else none
    else if n < Numeral.word64Bound then some n else none

/-- The number that the parts denote; none if it is too large for a double. -/
def toNumber? (number : Lexeme) : Option Number :=
  match number.toInteger? with
  | some i => some (.integer i)
  | none => number.toDouble.map .double

end Lexeme

namespace Number

/-- How doubles are written: positional from `10 ^ leastPositional` up to `10 ^ pastPositional`,
with a point and at least one digit behind it, otherwise with one digit before the point and an
exponent with a sign. -/
structure DoubleFormat where
  leastPositional : Int
  pastPositional : Int

/-- Doubles are written positionally from `0.00001` to below `10 ^ 16`. -/
def doubleFormat : DoubleFormat := ⟨-5, 16⟩

/-- Writes digits whose first has the exponent `top`. -/
def layout (format : DoubleFormat) (digits : List Char) (top : Int) : List Char :=
  if format.leastPositional ≤ top ∧ top < format.pastPositional then
    if top < 0 then
      ['0', '.'] ++ List.replicate (-top - 1).toNat '0' ++ digits
    else
      let whole := top.toNat + 1
      if digits.length ≤ whole then
        digits ++ List.replicate (whole - digits.length) '0' ++ ['.', '0']
      else digits.take whole ++ ['.'] ++ digits.drop whole
  else
    let mantissa := match digits with
      | [d] => [d]
      | d :: ds => d :: '.' :: ds
      | [] => []
    mantissa ++ ['e', if top < 0 then '-' else '+'] ++ Nat.toDigits 10 top.natAbs

/-- The text of a double. -/
def printDouble (x : Binary64) : List Char :=
  let magnitude :=
    if x.isZero then ['0', '.', '0'] else
      let decimal := Shortest.ofPositive x
      let digits := Nat.toDigits 10 decimal.digits
      layout doubleFormat digits (decimal.exponent + digits.length - 1)
  if x.negative then '-' :: magnitude else magnitude

/-- The text of a number. -/
def print : Number → List Char
  | .integer i => (toString i).toList
  | .double x => printDouble x

end Number

end ContractCalls.Json

import ContractCalls.Number.Binary64

/-!
# Shortest decimals

The shortest decimal that reads back as a given double: of all decimals with the fewest digits that
lie in the interval of numbers rounding to the double, the one nearest to it, and of two at the same
distance the even one.
-/

namespace ContractCalls.Shortest

/-- The decimal `digits · 10 ^ exponent`. -/
structure Decimal where
  digits : Nat
  exponent : Int
  deriving DecidableEq, Repr

/-- The exponent of the last of `count` decimal digits of `num / den`, whose first digit has the
exponent `top`. -/
def lastExponent (top : Int) (count : Nat) : Int :=
  top - (count - 1 : Nat)

/-- The quotient `num / (den · 10 ^ shift)` as a numerator and a denominator. -/
def scaled (num den : Nat) (shift : Int) : Nat × Nat :=
  (num * Nat.pow 10 (-shift).toNat, den * Nat.pow 10 shift.toNat)

/-- The exponent of the first decimal digit of the positive number `num / den`. -/
def topExponent (num den : Nat) : Int :=
  let digitCount (n : Nat) : Int := (Nat.toDigits 10 n).length
  let guess := digitCount num - digitCount den
  let (n, d) := scaled num den guess
  if n < d then guess - 1 else guess

/-- The interval of numbers that round to a positive double, in quarters of its unit: the distances
of its ends from the double, and whether the ends belong to it. -/
def halfGaps (x : Binary64) : Nat × Nat × Bool :=
  let narrow := x.significand = Binary64.leastNormal ∧ x.exponent > Binary64.minExponent
  (if narrow then 1 else 2, 2, x.significand % 2 = 0)

/-- Whether the decimal lies in the interval of numbers that round to the positive double `x`. -/
def roundsTo (x : Binary64) (c : Decimal) : Bool :=
  let (low, high, closed) := halfGaps x
  let unit := x.exponent - 2
  let (a, b) := scaled c.digits 1 (-c.exponent)
  let (n, d) := Binary64.scaled a b unit
  let least := (4 * x.significand - low) * d
  let greatest := (4 * x.significand + high) * d
  if closed then least ≤ n && n ≤ greatest else least < n && n < greatest

/-- The decimal on the grid of the given exponent that is best for `x`, if one rounds to it. -/
def candidate? (x : Binary64) (exponent : Int) : Option Decimal :=
  let (num, den) := x.magnitude
  let (n, d) := scaled num den exponent
  let below : Decimal := ⟨n / d, exponent⟩
  let above : Decimal := ⟨n / d + 1, exponent⟩
  let twice := 2 * (n % d)
  let preferBelow := twice < d || (twice = d && below.digits % 2 = 0)
  let (first, second) := if preferBelow then (below, above) else (above, below)
  if roundsTo x first then some first else if roundsTo x second then some second else none

/-- The best decimal with at least `count` digits, tried for up to `fuel` counts. -/
def search (x : Binary64) (top : Int) : (fuel count : Nat) → Option Decimal
  | 0, _ => none
  | fuel + 1, count =>
    match candidate? x (lastExponent top count) with
    | some decimal => some decimal
    | none => search x top fuel (count + 1)

/-- Moves the zeros at the end of the digits into the exponent, at most `fuel` of them. -/
def dropZeros : (fuel : Nat) → Decimal → Decimal
  | 0, decimal => decimal
  | fuel + 1, ⟨digits, exponent⟩ =>
    if digits % 10 = 0 then dropZeros fuel ⟨digits / 10, exponent + 1⟩ else ⟨digits, exponent⟩

/-- The shortest decimal of a positive double. Seventeen digits always suffice. -/
def ofPositive (x : Binary64) : Decimal :=
  let (num, den) := x.magnitude
  match search x (topExponent num den) 17 1 with
  | some decimal => dropZeros 17 decimal
  | none => ⟨x.significand, 0⟩

end ContractCalls.Shortest

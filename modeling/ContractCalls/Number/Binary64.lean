/-!
# Doubles

A finite double is a sign, a significand of at most 53 binary digits and an exponent of two. A
positive quotient of natural numbers is rounded to the nearest double, a tie to the even
significand; a quotient that would round beyond the largest double has no double. Products and
quotients of doubles are the exact ones, rounded in this way.
-/

namespace ContractCalls

/-- The finite double `±significand · 2 ^ exponent`. Above the least exponent, -1074, the
significand has exactly 53 binary digits. -/
structure Binary64 where
  negative : Bool
  significand : Nat
  exponent : Int
  deriving DecidableEq, Repr

namespace Binary64

/-- The least exponent. -/
def minExponent : Int := -1074

/-- The greatest exponent. -/
def maxExponent : Int := 971

/-- The least significand of 53 binary digits, `2 ^ 52`. -/
def leastNormal : Nat := 0x10000000000000

/-- Zero without a sign. -/
def zero : Binary64 := ⟨false, 0, minExponent⟩

/-- Whether a double is zero of either sign. -/
def isZero (x : Binary64) : Bool :=
  x.significand = 0

/-- The double with the opposite sign. -/
def neg (x : Binary64) : Binary64 :=
  { x with negative := !x.negative }

/-- The natural number nearest to `num / den`, the even one of two. -/
def roundQuotient (num den : Nat) : Nat :=
  let quotient := num / den
  let twice := 2 * (num % den)
  if twice > den ∨ (twice = den ∧ quotient % 2 = 1) then quotient + 1 else quotient

/-- The quotient `num / (den · 2 ^ shift)` as a numerator and a denominator. -/
def scaled (num den : Nat) (shift : Int) : Nat × Nat :=
  (num * Nat.pow 2 (-shift).toNat, den * Nat.pow 2 shift.toNat)

/-- The greatest exponent `e` with `2 ^ e ≤ num / den`, for positive arguments. -/
def binaryExponent (num den : Nat) : Int :=
  let guess : Int := (num.log2 : Int) - den.log2
  let (n, d) := scaled num den guess
  if n < d then guess - 1 else guess

/-- The double nearest to `num / den`, the one with the even significand of two; none if it lies
beyond the largest double. -/
def round (num den : Nat) : Option Binary64 :=
  if num = 0 then some zero else
    let exponent := max minExponent (binaryExponent num den - 52)
    let (n, d) := scaled num den exponent
    let significand := roundQuotient n d
    let (significand, exponent) :=
      if significand = 2 * leastNormal then (leastNormal, exponent + 1) else (significand, exponent)
    if exponent > maxExponent then none else some ⟨false, significand, exponent⟩

/-- The absolute value of a double as a numerator and a denominator. -/
def magnitude (x : Binary64) : Nat × Nat :=
  scaled x.significand 1 (-x.exponent)

/-- The product of two doubles without signs. -/
def mul (x y : Binary64) : Option Binary64 :=
  let (a, b) := x.magnitude
  let (c, d) := y.magnitude
  round (a * c) (b * d)

/-- The quotient of two doubles without signs, the second not zero. -/
def div (x y : Binary64) : Option Binary64 :=
  let (a, b) := x.magnitude
  let (c, d) := y.magnitude
  round (a * d) (b * c)

/-- The double nearest to a natural number. -/
def ofNat (n : Nat) : Option Binary64 :=
  round n 1

end Binary64

end ContractCalls

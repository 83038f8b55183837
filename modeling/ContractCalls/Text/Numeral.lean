/-!
# Decimal numerals

How numbers are read from text. A numeral of a bounded type is an optional sign and ASCII digits; a
minus sign is for signed types only. A numeral of an unbounded type may hold underscores behind its
first digit.
-/

namespace ContractCalls.Numeral

/-- The value of an ASCII digit. -/
def digit? (c : Char) : Option Nat :=
  if '0' ≤ c ∧ c ≤ '9' then some (c.toNat - '0'.toNat) else none

/-- The number whose digits follow those of `n`. -/
def extend? (n : Nat) : List Char → Option Nat
  | [] => some n
  | c :: cs => do
    let d ← digit? c
    extend? (n * 10 + d) cs

/-- The number that a non-empty run of digits denotes. -/
def digits? : List Char → Option Nat
  | [] => none
  | cs => extend? 0 cs

/-- A numeral without a minus sign. -/
def natural? : List Char → Option Nat
  | '+' :: cs => digits? cs
  | cs => digits? cs

/-- A numeral with an optional sign of either kind. -/
def integer? : List Char → Option Int
  | '-' :: cs => (digits? cs).map fun n => -(n : Int)
  | cs => (natural? cs).map Int.ofNat

/-- A numeral without a minus sign for a number below `bound`. -/
def below? (bound : Nat) (s : String) : Option Nat :=
  (natural? s.toList).filter (· < bound)

/-- The number of values of 64 bits. -/
def word64Bound : Nat := 0x10000000000000000

/-- A numeral for a 64-bit natural number. -/
def word64? (s : String) : Option UInt64 :=
  (below? word64Bound s).map UInt64.ofNat

/-- A run of digits and underscores that starts with a digit. -/
def groupedDigits? : List Char → Option Nat
  | [] => none
  | '_' :: _ => none
  | cs => extend? 0 (cs.filter (· ≠ '_'))

/-- A numeral for a natural number of any size. A plus sign goes unless a second one follows. -/
def unboundedNatural? : List Char → Option Nat
  | '+' :: '+' :: _ => none
  | '+' :: cs => groupedDigits? cs
  | cs => groupedDigits? cs

/-- A numeral for an integer of any size. A minus sign goes unless a plus sign follows. -/
def unboundedInteger? : List Char → Option Int
  | '-' :: '+' :: _ => none
  | '-' :: cs => (unboundedNatural? cs).map fun n => -(n : Int)
  | cs => (unboundedNatural? cs).map Int.ofNat

end ContractCalls.Numeral

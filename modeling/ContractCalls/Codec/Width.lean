import ContractCalls.Ty.Basic

/-!
# The least size of a type

Every nested value of a type takes at least so many bytes. The bound is what lets a decoder refuse a
count of items that the bytes left cannot hold. Sizes are numbers of 64 bits: products, and the sums
over the fields of a struct, stop at the greatest, but the sum over the items of a tuple wraps around
behind it.
-/

namespace ContractCalls.Ty

/-- The greatest number of 64 bits, which no size passes. -/
def maxSize : Nat := 0xffffffffffffffff

/-- A size that stops growing at the greatest. -/
def saturate (n : Nat) : Nat :=
  min n maxSize

/-- A size that starts again at zero behind the greatest. -/
def wrap (n : Nat) : Nat :=
  n % (maxSize + 1)

mutual

/-- The fewest bytes of a nested value. Types of several arguments are never nested and count as
empty. -/
def minWidth : Ty → Nat
  | .primitive p => p.fixedWidth?.getD 4
  | .generic g params =>
    match g with
    | .option => 1
    | .list => 4
    | .tuple => minWidths params
    | .optional => 0
    | .variadic => 0
  | .array length element => saturate (length.toNat * element.minWidth)
  | .struct _ fields => minWidthFields fields
  | .enum _ _ => 1

/-- The fewest bytes of the items of a tuple. -/
def minWidths : List Ty → Nat
  | [] => 0
  | t :: ts => wrap (t.minWidth + minWidths ts)

/-- The fewest bytes of the fields of a struct. -/
def minWidthFields : List (Field Ty) → Nat
  | [] => 0
  | ⟨_, t⟩ :: fields => saturate (t.minWidth + minWidthFields fields)

end

end ContractCalls.Ty

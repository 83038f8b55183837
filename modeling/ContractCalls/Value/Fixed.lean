import ContractCalls.Bytes.BigEndian
import ContractCalls.Ty.Primitive

/-!
# Fixed-width integers

An integer in the range of its type. Every integer is congruent to exactly one such integer modulo
the number of values of the type, which is how bytes are read.
-/

namespace ContractCalls

/-- An integer in the range of a fixed-width type. -/
structure Fixed (t : IntType) where
  val : Int
  bounds : t.least ≤ val ∧ val ≤ t.greatest
  deriving DecidableEq

namespace Fixed

variable {t : IntType}

/-- Integers of a type are the same if their values are. -/
@[ext]
theorem ext {m n : Fixed t} (h : m.val = n.val) : m = n := by
  cases m; cases n; cases h; rfl

/-- The integer as one of the type, if it is in range. -/
def ofInt? (t : IntType) (i : Int) : Option (Fixed t) :=
  if h : t.least ≤ i ∧ i ≤ t.greatest then some ⟨i, h⟩ else none

/-- The residue of an integer in the range of a type. -/
def residue (t : IntType) (i : Int) : Int :=
  if t.signed then i.bmod t.count else i % (t.count : Int)

/-- The residue is in the range of the type. -/
theorem residue_bounds (t : IntType) (i : Int) :
    t.least ≤ residue t i ∧ residue t i ≤ t.greatest := by
  rcases t with ⟨_ | _, _ | _ | _ | _⟩ <;>
    simp [residue, IntType.least, IntType.greatest, IntType.count, IntType.bytes, Width.bytes,
      Int.bmod] <;> omega

/-- The value of the type that is congruent to an integer. -/
def ofInt (t : IntType) (i : Int) : Fixed t :=
  ⟨residue t i, residue_bounds t i⟩

/-- The value whose big-endian form the bytes are. -/
def ofBytes (t : IntType) (bs : Bytes) : Fixed t :=
  ofInt t (Bytes.toNat bs)

/-- The big-endian form of a value, in two's complement. -/
def toBytes (n : Fixed t) : Bytes :=
  Bytes.ofIntFixed t.bytes n.val

/-- The big-endian form has as many bytes as the type. -/
@[simp]
theorem length_toBytes (n : Fixed t) : n.toBytes.length = t.bytes :=
  Bytes.length_ofIntFixed _ _

end Fixed

end ContractCalls

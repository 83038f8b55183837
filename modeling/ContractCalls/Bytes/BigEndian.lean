/-!
# Byte strings as big-endian numbers

Byte strings are lists of bytes. A natural number is written in base 256 with the most significant
byte first, an integer in two's complement. Both have a minimal form, in which zero is the empty
string, and a form of a fixed number of bytes.
-/

namespace ContractCalls

/-- A byte string. -/
abbrev Bytes := List UInt8

namespace Bytes

/-- The natural number whose base-256 digits, most significant first, are the given bytes. -/
def toNat (bs : Bytes) : Nat :=
  bs.foldl (fun n b => n * 256 + b.toNat) 0

/-- The integer that the bytes denote in two's complement; the empty string is zero. -/
def toInt : Bytes → Int
  | [] => 0
  | b :: bs =>
    if b < 128 then toNat (b :: bs) else (toNat (b :: bs) : Int) - Nat.pow 256 (bs.length + 1)

/-- The lowest `width` base-256 digits of `n`, most significant first. -/
def ofNatFixed : (width : Nat) → (n : Nat) → Bytes
  | 0, _ => []
  | width + 1, n => ofNatFixed width (n / 256) ++ [UInt8.ofNat (n % 256)]

/-- The two's complement form of `i` in `width` bytes. -/
def ofIntFixed (width : Nat) (i : Int) : Bytes :=
  ofNatFixed width (i % (Nat.pow 256 width : Int)).toNat

/-- The number of binary digits of `n`, none for zero. -/
def bitLength (n : Nat) : Nat :=
  if n = 0 then 0 else n.log2 + 1

/-- The shortest big-endian form of a natural number; zero is empty. -/
def ofNat (n : Nat) : Bytes :=
  ofNatFixed ((bitLength n + 7) / 8) n

/-- The number whose binary digits, after a sign bit, fill the two's complement form of `i`. -/
def signedMagnitude : Int → Nat
  | .ofNat n => n
  | .negSucc n => n

/-- The shortest two's complement form of an integer; zero is empty. -/
def ofInt (i : Int) : Bytes :=
  if i = 0 then [] else ofIntFixed (bitLength (signedMagnitude i) / 8 + 1) i

/-- Lengthens a two's complement or natural form to `width` bytes without changing the number: a
signed form repeats its sign bit, an unsigned one gets zeros. -/
def widen (signed : Bool) (width : Nat) (bs : Bytes) : Bytes :=
  let negative := signed && bs.head?.any (128 ≤ ·)
  List.replicate (width - bs.length) (if negative then 255 else 0) ++ bs

/-- The UTF-8 form of a text. -/
def ofText (text : String) : Bytes :=
  text.toUTF8.data.toList

/-- The text whose UTF-8 form the bytes are, if there is one. -/
def toText? (bs : Bytes) : Option String :=
  String.fromUTF8? ⟨bs.toArray⟩

/-- A number is written in as many bytes as the width. -/
@[simp]
theorem length_ofNatFixed (width n : Nat) : (ofNatFixed width n).length = width := by
  induction width generalizing n with
  | zero => rfl
  | succ width ih => simp [ofNatFixed, ih]

/-- An integer is written in as many bytes as the width. -/
@[simp]
theorem length_ofIntFixed (width : Nat) (i : Int) : (ofIntFixed width i).length = width :=
  length_ofNatFixed _ _

/-- Zero has no bytes as a number. -/
@[simp]
theorem ofNat_zero : ofNat 0 = [] := rfl

/-- Zero has no bytes as an integer. -/
@[simp]
theorem ofInt_zero : ofInt 0 = [] := rfl

end Bytes

end ContractCalls

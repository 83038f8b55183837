import ContractCalls.Bytes.BigEndian
import ContractCalls.Text.Hexadecimal
import ContractCalls.Text.Quoted

/-!
# Hexadecimal text

A byte string is written with two lower-case hexadecimal digits a byte. Reading accepts digits of
either case and says which rule a text breaks: its length in bytes is odd, or it holds a byte that
is no digit.
-/

namespace ContractCalls.Hex

/-- Why a text is no hexadecimal form. Positions count the bytes of the text. -/
inductive Fault where
  | oddLength
  | badCharacter (byte : UInt8) (position : Nat)
  deriving DecidableEq, Repr

/-- The message of a fault in a hexadecimal form. -/
def Fault.message : Fault → String
  | .oddLength => "Odd number of digits"
  | .badCharacter byte position =>
    "Invalid character " ++ Text.quoteByte byte ++ " at position " ++ toString position

/-- Drops every leading `0x`. -/
def dropMarks : List Char → List Char
  | '0' :: 'x' :: rest => dropMarks rest
  | text => text

/-- The two digits of a byte. -/
def encodeByte (b : UInt8) : List Char :=
  [Text.hexDigit (b.toNat / 16), Text.hexDigit (b.toNat % 16)]

/-- The hexadecimal form of a byte string. -/
def encode (bs : Bytes) : String :=
  String.ofList (bs.flatMap encodeByte)

/-- The value of a hexadecimal digit of either case, given by its byte. -/
def digit? (b : UInt8) : Option UInt8 :=
  if 48 ≤ b ∧ b ≤ 57 then some (b - 48)
  else if 97 ≤ b ∧ b ≤ 102 then some (b - 87)
  else if 65 ≤ b ∧ b ≤ 70 then some (b - 55)
  else none

/-- The digit at a position, or the fault it makes. -/
def digitAt (position : Nat) (b : UInt8) : Except Fault UInt8 :=
  match digit? b with
  | some d => .ok d
  | none => .error (.badCharacter b position)

/-- Joins the digits of a text in pairs, where `position` bytes stand before it. -/
def decodePairs (position : Nat) : Bytes → Except Fault Bytes
  | [] => .ok []
  | [_] => .error .oddLength
  | high :: low :: rest => do
    let h ← digitAt position high
    let l ← digitAt (position + 1) low
    let bs ← decodePairs (position + 2) rest
    return (h * 16 + l) :: bs

/-- The byte string whose hexadecimal form is `text`, in digits of either case. An odd length is
reported before any bad character. -/
def decode (text : String) : Except Fault Bytes :=
  let digits := Bytes.ofText text
  if digits.length % 2 = 1 then .error .oddLength else decodePairs 0 digits

end ContractCalls.Hex

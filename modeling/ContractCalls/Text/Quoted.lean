/-!
# A quoted byte

A byte that is shown in a message is taken as one of the first 256 characters and put between
single quotes. Printable characters stand for themselves, the others are escaped.
-/

namespace ContractCalls.Text

/-- Whether one of the first 256 characters is shown as itself: the two control blocks, the
no-break space and the soft hyphen are not. -/
def isPrintableByte (b : UInt8) : Bool :=
  (32 ≤ b && b < 127) || (161 ≤ b && b ≠ 173)

/-- The character with the number `b`, as it stands between single quotes. -/
def escapeByte (b : UInt8) : List Char :=
  match Char.ofNat b.toNat with
  | '\x00' => ['\\', '0']
  | '\t' => ['\\', 't']
  | '\n' => ['\\', 'n']
  | '\r' => ['\\', 'r']
  | '\'' => ['\\', '\'']
  | '\\' => ['\\', '\\']
  | c => if isPrintableByte b then [c] else ['\\', 'u', '\x7b'] ++ Nat.toDigits 16 b.toNat ++ ['\x7d']

/-- The character with the number `b` between single quotes. -/
def quoteByte (b : UInt8) : String :=
  String.ofList ('\'' :: escapeByte b ++ ['\''])

end ContractCalls.Text

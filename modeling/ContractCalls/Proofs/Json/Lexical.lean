import Mathlib
import ContractCalls.Json.Basic
import ContractCalls.Json.Lexical
import ContractCalls.Json.Printer

/-!
# Strings of JSON texts, written and read

A string is read back from its escaped form, up to the quote that closes it
(`readString_flatMap`).
-/

namespace ContractCalls.Json

variable {c : Char}

/-- The escape of a control character is read as its code. -/
lemma hexNumber?_control :
    ∀ n < 32, Text.hexNumber? ['0', '0', Text.hexDigit (n / 16), Text.hexDigit (n % 16)] =
      some n := by
  decide

/-- A letter behind a backslash is read as the character it stands for. -/
lemma readString_escaped {d : Char} (code : escaped? d = some c) (cs : List Char) :
    readString ('\\' :: d :: cs) = (readString cs).map fun (s, rest) => (c :: s, rest) := by
  rw [readString, code]
  · cases readString cs <;> rfl
  · rintro _ _ _ _ _ rfl -
    simp [escaped?] at code

/-- A control character is read from its code of four digits. -/
lemma readString_control (control : c.toNat < 32) (cs : List Char) :
    readString ('\\' :: 'u' :: '0' :: '0' :: Text.hexDigit (c.toNat / 16) ::
        Text.hexDigit (c.toNat % 16) :: cs) =
      (readString cs).map fun (s, rest) => (c :: s, rest) := by
  have code := hexNumber?_control c.toNat control
  have low : isLowSurrogate c.toNat = false := by simp [isLowSurrogate]; omega
  have high : isHighSurrogate c.toNat = false := by simp [isHighSurrogate]; omega
  rw [readString, code]
  simp only [Option.bind_eq_bind, Option.bind_some, low, high, Char.ofNat_toNat]
  cases readString cs <;> rfl

/-- A character that is no quote, backslash or control character is read as it is. -/
lemma readString_of_plain (quote : c ≠ '"') (backslash : c ≠ '\\') (control : ¬c.toNat < 32)
    (cs : List Char) :
    readString (c :: cs) = (readString cs).map fun (s, rest) => (c :: s, rest) := by
  rw [readString, if_neg control]
  · cases readString cs <;> rfl
  · exact quote
  · intro _ _ _ _ _ same
    exact absurd same backslash
  · intro _ _ same
    exact absurd same backslash

/-- Each character is read back from the way it is written in a string. -/
lemma readString_escapeChar (c : Char) (cs : List Char) :
    readString (escapeChar c ++ cs) = (readString cs).map fun (s, rest) => (c :: s, rest) := by
  unfold escapeChar
  split
  -- the characters that are escaped by a letter
  · exact readString_escaped rfl cs
  · exact readString_escaped rfl cs
  · exact readString_escaped rfl cs
  · exact readString_escaped rfl cs
  · exact readString_escaped rfl cs
  · exact readString_escaped rfl cs
  · exact readString_escaped rfl cs
  · next quote backslash _ _ _ _ _ =>
    split_ifs with control
    · exact readString_control control cs
    · exact readString_of_plain quote backslash control cs

/-- A string is read back from its escaped form, up to the quote that closes it. -/
lemma readString_flatMap (cs rest : List Char) :
    readString (cs.flatMap escapeChar ++ '"' :: rest) = some (cs, rest) := by
  induction cs with
  | nil => simp [readString]
  | cons c cs ih =>
    rw [List.flatMap_cons, List.append_assoc, readString_escapeChar, ih]
    rfl

end ContractCalls.Json

import ContractCalls.Proofs.Text.Blank
import ContractCalls.Text.Numeral

/-!
# Decimal forms and how they are read

A number is read back from its decimal form, by the readers of bounded numbers (`natural?_toDigits`,
`integer?_toString`) and by those of numbers of any size (`unboundedNatural?_toDigits`,
`unboundedInteger?_toString`). There is nothing to trim from a decimal form (`trim_toString`). All
readers refuse characters other than digits, signs and underscores (`Numeral.IsNumeralChar`).
-/

namespace ContractCalls

variable {c : Char} {cs : List Char}

/-- A natural number is written as its decimal digits. -/
lemma toList_toString_natCast (n : Nat) : (toString (n : Int)).toList = Nat.toDigits 10 n := by
  rw [Int.toString_eq_repr, Int.repr_eq_if, if_pos (by omega), Int.toNat_natCast, Nat.toList_repr]

/-- An integer is a natural number or the negative of a positive one, and so is its decimal form. -/
lemma toList_toString_cases (i : Int) :
    (∃ n : Nat, i = n ∧ (toString i).toList = Nat.toDigits 10 n) ∨
      ∃ n : Nat, 0 < n ∧ i = -(n : Int) ∧ (toString i).toList = '-' :: Nat.toDigits 10 n := by
  by_cases nonneg : 0 ≤ i
  · lift i to Nat using nonneg
    exact .inl ⟨i, rfl, toList_toString_natCast i⟩
  · refine .inr ⟨(-i).toNat, by omega, by omega, ?_⟩
    rw [Int.toString_eq_repr, Int.repr_eq_if, if_neg nonneg, String.toList_append, Nat.toList_repr]
    rfl

/-- The characters of a decimal form are digits. -/
lemma isDigit_of_mem_toDigits {n : Nat} (h : c ∈ Nat.toDigits 10 n) : c.isDigit :=
  Nat.isDigit_of_mem_toDigits (by omega) (by omega) h

/-- The decimal form of a natural number starts with a digit, which is no sign and no underscore. -/
lemma exists_toDigits_eq_cons (n : Nat) :
    ∃ c cs, Nat.toDigits 10 n = c :: cs ∧ c ≠ '+' ∧ c ≠ '-' ∧ c ≠ '_' := by
  cases form : Nat.toDigits 10 n with
  | nil => exact absurd form Nat.toDigits_ne_nil
  | cons c cs =>
    have digit : c.isDigit := isDigit_of_mem_toDigits (n := n) (by simp [form])
    have other (d : Char) (h : d.isDigit = false) : c ≠ d := by
      rintro rfl
      simp [h] at digit
    exact ⟨c, cs, rfl, other '+' (by decide), other '-' (by decide), other '_' (by decide)⟩

namespace Text

/-- A digit is not blank. -/
lemma not_isBlank_of_isDigit (h : c.isDigit) : ¬isBlank c := by
  have range : 48 ≤ c.toNat ∧ c.toNat ≤ 57 := Char.isDigit_iff_toNat.mp h
  simp [isBlank, blankRanges]
  omega

/-- A text without blank characters is not trimmed. -/
lemma trim_of_not_isBlank (solid : ∀ c ∈ cs, ¬isBlank c) : trim cs = cs :=
  (isTrimmed_of_not_isBlank solid).trim_eq

/-- No blank character stands in a decimal form. -/
lemma not_isBlank_of_mem_toDigits {n : Nat} : ∀ c ∈ Nat.toDigits 10 n, ¬isBlank c := by
  intro c h
  exact not_isBlank_of_isDigit (isDigit_of_mem_toDigits h)

/-- The decimal form of a natural number is not trimmed. -/
lemma trim_toDigits (n : Nat) : trim (Nat.toDigits 10 n) = Nat.toDigits 10 n :=
  trim_of_not_isBlank not_isBlank_of_mem_toDigits

/-- The decimal form of an integer is not trimmed. -/
lemma trim_toString (i : Int) : trim (toString i).toList = (toString i).toList := by
  rcases toList_toString_cases i with ⟨n, -, form⟩ | ⟨n, -, -, form⟩
  · rw [form, trim_toDigits]
  · rw [form]
    apply trim_of_not_isBlank
    exact List.forall_mem_cons.mpr ⟨by decide, not_isBlank_of_mem_toDigits⟩

end Text

namespace Numeral

/-- A character has a value as a digit exactly if it is a digit of that value. -/
lemma digit?_eq_some_iff {d : Nat} :
    digit? c = some d ↔ c.isDigit ∧ c.toNat - '0'.toNat = d := by
  have range : c.isDigit ↔ '0' ≤ c ∧ c ≤ '9' := by simp [Char.isDigit, Char.le_def]
  simp [digit?, range]

/-- A digit has its place behind zero as its value. -/
lemma digit?_of_isDigit (h : c.isDigit) : digit? c = some (c.toNat - '0'.toNat) :=
  digit?_eq_some_iff.mpr ⟨h, rfl⟩

/-- Digits are read as the number they denote. -/
lemma extend?_of_isDigit (digits : ∀ c ∈ cs, c.isDigit) (n : Nat) :
    extend? n cs = some (Nat.ofDigitChars 10 cs n) := by
  induction cs generalizing n with
  | nil => rfl
  | cons c cs ih =>
    obtain ⟨first, others⟩ := List.forall_mem_cons.mp digits
    rw [extend?, digit?_of_isDigit first, Nat.ofDigitChars_cons, Nat.mul_comm]
    exact ih others _

/-- A decimal form extends zero to its number. -/
lemma extend?_toDigits (n : Nat) : extend? 0 (Nat.toDigits 10 n) = some n := by
  have digits : ∀ c ∈ Nat.toDigits 10 n, c.isDigit := fun c => isDigit_of_mem_toDigits
  rw [extend?_of_isDigit digits, Nat.ofDigitChars_ten_toDigits]

/-- A decimal form is read as digits of its number. -/
lemma digits?_toDigits (n : Nat) : digits? (Nat.toDigits 10 n) = some n := by
  have value := extend?_toDigits n
  obtain ⟨c, cs, form, -⟩ := exists_toDigits_eq_cons n
  rwa [form] at value ⊢

/-- A decimal form is read as a natural number. -/
lemma natural?_toDigits (n : Nat) : natural? (Nat.toDigits 10 n) = some n := by
  have value := digits?_toDigits n
  obtain ⟨c, cs, form, noPlus, -⟩ := exists_toDigits_eq_cons n
  rw [form] at value ⊢
  simpa [natural?, noPlus] using value

/-- The decimal form of an integer is read as the integer. -/
lemma integer?_toString (i : Int) : integer? (toString i).toList = some i := by
  rcases toList_toString_cases i with ⟨n, rfl, form⟩ | ⟨n, -, rfl, form⟩
  · have value := natural?_toDigits n
    obtain ⟨c, cs, digits, -, noMinus, -⟩ := exists_toDigits_eq_cons n
    rw [form]
    rw [digits] at value ⊢
    simp [integer?, noMinus, value]
  · rw [form]
    simp [integer?, digits?_toDigits]

/-- A minus sign is no digit, so the decimal form of a negative integer is no natural number. -/
lemma natural?_toString_eq_some_iff {i : Int} {n : Nat} :
    natural? (toString i).toList = some n ↔ i = n := by
  rcases toList_toString_cases i with ⟨m, rfl, form⟩ | ⟨m, positive, rfl, form⟩
  · rw [form, natural?_toDigits]
    simp
  · have refused : natural? ('-' :: Nat.toDigits 10 m) = none := rfl
    simp only [form, refused, reduceCtorEq, false_iff]
    omega

/-- There is no underscore among digits. -/
lemma groupedDigits?_toDigits (n : Nat) : groupedDigits? (Nat.toDigits 10 n) = some n := by
  have plain : (Nat.toDigits 10 n).filter (· ≠ '_') = Nat.toDigits 10 n := by
    rw [List.filter_eq_self]
    intro c h
    have other : c ≠ '_' := by
      rintro rfl
      exact Nat.underscore_not_in_toDigits h
    simpa using other
  have value := extend?_toDigits n
  rw [← plain] at value
  obtain ⟨c, cs, form, -, -, noUnderscore⟩ := exists_toDigits_eq_cons n
  rw [form] at value ⊢
  simpa [groupedDigits?, noUnderscore] using value

/-- A decimal form is read as a natural number of any size. -/
lemma unboundedNatural?_toDigits (n : Nat) : unboundedNatural? (Nat.toDigits 10 n) = some n := by
  have value := groupedDigits?_toDigits n
  obtain ⟨c, cs, form, noPlus, -⟩ := exists_toDigits_eq_cons n
  rw [form] at value ⊢
  simpa [unboundedNatural?, noPlus] using value

/-- The decimal form of an integer is read as a natural number of any size exactly if it is that
number. -/
lemma unboundedNatural?_toString_eq_some_iff {i : Int} {n : Nat} :
    unboundedNatural? (toString i).toList = some n ↔ i = n := by
  rcases toList_toString_cases i with ⟨m, rfl, form⟩ | ⟨m, positive, rfl, form⟩
  · rw [form, unboundedNatural?_toDigits]
    simp
  · have refused : unboundedNatural? ('-' :: Nat.toDigits 10 m) = none := rfl
    simp only [form, refused, reduceCtorEq, false_iff]
    omega

/-- The decimal form of an integer is read as an integer of any size. -/
lemma unboundedInteger?_toString (i : Int) : unboundedInteger? (toString i).toList = some i := by
  rcases toList_toString_cases i with ⟨n, rfl, form⟩ | ⟨n, -, rfl, form⟩
  · have value := unboundedNatural?_toDigits n
    obtain ⟨c, cs, digits, -, noMinus, -⟩ := exists_toDigits_eq_cons n
    rw [form]
    rw [digits] at value ⊢
    simp [unboundedInteger?, noMinus, value]
  · have value := unboundedNatural?_toDigits n
    obtain ⟨c, cs, digits, noPlus, -⟩ := exists_toDigits_eq_cons n
    rw [form]
    rw [digits] at value ⊢
    simp [unboundedInteger?, noPlus, value]

/-! ## What is refused -/

/-- A character that stands in numerals. -/
def IsNumeralChar (c : Char) : Prop :=
  c.isDigit ∨ c = '+' ∨ c = '-' ∨ c = '_'

/-- Only digits extend a number. -/
lemma isDigit_of_extend? {m n : Nat} (e : extend? m cs = some n) : ∀ c ∈ cs, c.isDigit := by
  induction cs generalizing m with
  | nil => simp
  | cons c cs ih =>
    obtain ⟨d, first, others⟩ := Option.bind_eq_some_iff.mp e
    exact List.forall_mem_cons.mpr ⟨(digit?_eq_some_iff.mp first).1, ih others⟩

/-- Only digits are read as digits. -/
lemma isDigit_of_digits? {n : Nat} (e : digits? cs = some n) : ∀ c ∈ cs, c.isDigit := by
  cases cs with
  | nil => simp
  | cons c cs => exact isDigit_of_extend? e

/-- Only characters of numerals are read as a natural number. -/
lemma isNumeralChar_of_natural? {n : Nat} (e : natural? cs = some n) :
    ∀ c ∈ cs, IsNumeralChar c := by
  unfold natural? at e
  split at e
  · have digits := isDigit_of_digits? e
    exact List.forall_mem_cons.mpr ⟨.inr (.inl rfl), fun c h => .inl (digits c h)⟩
  · exact fun c h => .inl (isDigit_of_digits? e c h)

/-- Only characters of numerals are read as an integer. -/
lemma isNumeralChar_of_integer? {i : Int} (e : integer? cs = some i) :
    ∀ c ∈ cs, IsNumeralChar c := by
  unfold integer? at e
  split at e
  · obtain ⟨_, read, -⟩ := Option.map_eq_some_iff.mp e
    obtain ⟨n, read, -⟩ := Option.bind_eq_some_iff.mp read
    have digits := isDigit_of_digits? read
    exact List.forall_mem_cons.mpr ⟨.inr (.inr (.inl rfl)), fun c h => .inl (digits c h)⟩
  · obtain ⟨n, read, -⟩ := Option.map_eq_some_iff.mp e
    exact isNumeralChar_of_natural? read

/-- Only characters of numerals are read as digits in groups. -/
lemma isNumeralChar_of_groupedDigits? {n : Nat} (e : groupedDigits? cs = some n) :
    ∀ c ∈ cs, IsNumeralChar c := by
  unfold groupedDigits? at e
  split at e
  · simp
  · cases e
  · have digits := isDigit_of_extend? e
    intro c h
    by_cases grouping : c = '_'
    · exact .inr (.inr (.inr grouping))
    · exact .inl (digits c (List.mem_filter.mpr ⟨h, by simpa using grouping⟩))

/-- Only characters of numerals are read as a natural number of any size. -/
lemma isNumeralChar_of_unboundedNatural? {n : Nat} (e : unboundedNatural? cs = some n) :
    ∀ c ∈ cs, IsNumeralChar c := by
  unfold unboundedNatural? at e
  split at e
  · cases e
  · exact List.forall_mem_cons.mpr ⟨.inr (.inl rfl), isNumeralChar_of_groupedDigits? e⟩
  · exact isNumeralChar_of_groupedDigits? e

/-- Only characters of numerals are read as an integer of any size. -/
lemma isNumeralChar_of_unboundedInteger? {i : Int} (e : unboundedInteger? cs = some i) :
    ∀ c ∈ cs, IsNumeralChar c := by
  unfold unboundedInteger? at e
  split at e
  · cases e
  · obtain ⟨_, read, -⟩ := Option.map_eq_some_iff.mp e
    obtain ⟨n, read, -⟩ := Option.bind_eq_some_iff.mp read
    have others := isNumeralChar_of_unboundedNatural? read
    exact List.forall_mem_cons.mpr ⟨.inr (.inr (.inl rfl)), others⟩
  · obtain ⟨n, read, -⟩ := Option.map_eq_some_iff.mp e
    exact isNumeralChar_of_unboundedNatural? read

end Numeral

end ContractCalls

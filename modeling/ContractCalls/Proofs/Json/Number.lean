import ContractCalls.Json.Number
import ContractCalls.Proofs.Text.Numeral

/-!
# The grammar of numbers

How numbers are written in JSON texts, by rules: `Lexeme.IsNumber` relates the parts of a number to
its text. A number is scanned where one is written and nowhere else (`Lexeme.scan_append`,
`Lexeme.exists_isNumber_of_scan`), up to a text that does not go on with it. The integers among the
numbers are those of 64 bits written without fraction and exponent (`Lexeme.toInteger?_eq_some_iff`).
-/

namespace ContractCalls.Json

variable {c d : Char} {cs rest : List Char} {ds : List Nat}

/-! ## Texts behind a number -/

/-- A text that does not go on with digits in front of it. -/
def EndsDigits (rest : List Char) : Prop :=
  ∀ c ∈ rest.head?, Numeral.digit? c = none

/-- A text that does not go on with the number in front of it. -/
def EndsNumber (rest : List Char) : Prop :=
  ∀ c ∈ rest.head?, Numeral.digit? c = none ∧ c ≠ '.' ∧ c ≠ 'e' ∧ c ≠ 'E'

/-- A text that ends a number ends its digits. -/
lemma EndsNumber.endsDigits (ends : EndsNumber rest) : EndsDigits rest :=
  fun c h => (ends c h).1

/-- A number may end the text. -/
lemma endsNumber_nil : EndsNumber [] := by
  simp [EndsNumber]

/-- Digits end in front of a character that is none. -/
lemma endsDigits_cons (h : Numeral.digit? c = none) : EndsDigits (c :: cs) := by
  rintro _ ⟨⟩
  exact h

namespace Lexeme

/-! ## Rules -/

/-- At least one digit, with the given values. -/
structure IsDigits (ds : List Nat) (cs : List Char) : Prop where
  isDigit : ∀ c ∈ cs, c.isDigit
  values : cs.map (fun c => c.toNat - '0'.toNat) = ds
  nonempty : cs ≠ []

/-- The digits before the point: a single zero, or digits that do not start with zero. -/
inductive IsWhole : List Nat → List Char → Prop
  | zero : IsWhole [0] ['0']
  | digits {n : Nat} {ds : List Nat} {cs : List Char} :
    n ≠ 0 → IsDigits (n :: ds) cs → IsWhole (n :: ds) cs

/-- The digits behind the point, if there is one. -/
inductive IsFraction : List Nat → List Char → Prop
  | absent : IsFraction [] []
  | point {ds : List Nat} {cs : List Char} : IsDigits ds cs → IsFraction ds ('.' :: cs)

/-- The letter that starts an exponent. -/
def IsExponentMark (c : Char) : Prop :=
  c = 'e' ∨ c = 'E'

/-- The exponent, if there is one. -/
inductive IsExponent : Option (Bool × List Nat) → List Char → Prop
  | absent : IsExponent none []
  | unsigned {mark : Char} {ds : List Nat} {cs : List Char} :
    IsExponentMark mark → IsDigits ds cs → IsExponent (some (false, ds)) (mark :: cs)
  | plus {mark : Char} {ds : List Nat} {cs : List Char} :
    IsExponentMark mark → IsDigits ds cs → IsExponent (some (false, ds)) (mark :: '+' :: cs)
  | minus {mark : Char} {ds : List Nat} {cs : List Char} :
    IsExponentMark mark → IsDigits ds cs → IsExponent (some (true, ds)) (mark :: '-' :: cs)

/-- The text of a number with the given parts. -/
inductive IsNumber : Lexeme → List Char → Prop
  | unsigned {whole fraction : List Nat} {exponent : Option (Bool × List Nat)}
    {ws fs es : List Char} :
    IsWhole whole ws → IsFraction fraction fs → IsExponent exponent es →
      IsNumber ⟨false, whole, fraction, exponent⟩ (ws ++ (fs ++ es))
  | minus {whole fraction : List Nat} {exponent : Option (Bool × List Nat)} {cs : List Char} :
    IsNumber ⟨false, whole, fraction, exponent⟩ cs →
      IsNumber ⟨true, whole, fraction, exponent⟩ ('-' :: cs)

variable {lexeme : Lexeme} {exponent : Option (Bool × List Nat)}

/-! ## Starts -/

/-- Digits start with a digit. -/
lemma IsDigits.exists_cons (h : IsDigits ds cs) : ∃ c cs', cs = c :: cs' ∧ c.isDigit := by
  cases cs with
  | nil => exact absurd rfl h.nonempty
  | cons c cs => exact ⟨c, cs, rfl, h.isDigit c (by simp)⟩

/-- The digits before the point start with a digit. -/
lemma IsWhole.exists_cons (h : IsWhole ds cs) : ∃ c cs', cs = c :: cs' ∧ c.isDigit := by
  cases h with
  | zero => exact ⟨'0', [], rfl, rfl⟩
  | digits _ digits => exact digits.exists_cons

/-- A number starts with a digit or a minus. -/
lemma IsNumber.exists_cons (h : IsNumber lexeme cs) :
    ∃ c cs', cs = c :: cs' ∧ (c.isDigit ∨ c = '-') := by
  cases h with
  | unsigned whole _ _ =>
    obtain ⟨c, ws, rfl, digit⟩ := whole.exists_cons
    exact ⟨c, _, rfl, .inl digit⟩
  | minus _ => exact ⟨'-', _, rfl, .inr rfl⟩

/-- A digit is no character that is not a digit. -/
lemma ne_of_isDigit (digit : c.isDigit) (other : d.isDigit = false) : c ≠ d := by
  rintro rfl
  simp [other] at digit

/-- The letter that starts an exponent is no digit. -/
lemma IsExponentMark.digit? (mark : IsExponentMark c) : Numeral.digit? c = none := by
  rcases mark with rfl | rfl <;> rfl

/-- The letter that starts an exponent is no point. -/
lemma IsExponentMark.ne_point (mark : IsExponentMark c) : c ≠ '.' := by
  rcases mark with rfl | rfl <;> decide

/-- An exponent does not go on with the digits in front of it, and starts with no point. -/
lemma IsExponent.ends (h : IsExponent exponent cs) (ends : EndsNumber rest) :
    EndsDigits (cs ++ rest) ∧ ∀ c ∈ (cs ++ rest).head?, c ≠ '.' := by
  cases h with
  | absent => exact ⟨ends.endsDigits, fun c h => (ends c h).2.1⟩
  | unsigned mark _ | plus mark _ | minus mark _ =>
    refine ⟨endsDigits_cons mark.digit?, ?_⟩
    rintro _ ⟨⟩
    exact mark.ne_point

/-- A fraction does not go on with the digits in front of it. -/
lemma IsFraction.endsDigits (h : IsFraction ds cs) (ends : EndsDigits rest) :
    EndsDigits (cs ++ rest) := by
  cases h with
  | absent => exact ends
  | point _ => exact endsDigits_cons rfl

/-! ## What is written is scanned -/

/-- Digits are split from a text that does not go on with them. -/
lemma splitDigits_append (digits : ∀ c ∈ cs, c.isDigit) (ends : EndsDigits rest) :
    splitDigits (cs ++ rest) = (cs.map fun c => c.toNat - '0'.toNat, rest) := by
  induction cs with
  | nil =>
    cases rest with
    | nil => rfl
    | cons c rest => simp [splitDigits, ends c rfl]
  | cons c cs ih =>
    obtain ⟨first, others⟩ := List.forall_mem_cons.mp digits
    simp [splitDigits, Numeral.digit?_of_isDigit first, ih others]

/-- Digits are split off with their values. -/
lemma IsDigits.splitDigits (h : IsDigits ds cs) (ends : EndsDigits rest) :
    splitDigits (cs ++ rest) = (ds, rest) := by
  rw [splitDigits_append h.isDigit ends, h.values]

/-- There is the value of at least one digit. -/
lemma IsDigits.ne_nil (h : IsDigits ds cs) : ds ≠ [] := by
  rintro rfl
  exact h.nonempty (List.map_eq_nil_iff.mp h.values)

/-- The digits before the point are scanned. -/
lemma IsWhole.scanWhole (h : IsWhole ds cs) (ends : EndsDigits rest) :
    scanWhole (cs ++ rest) = some (ds, rest) := by
  cases h with
  | zero =>
    have digits : IsDigits [0] ['0'] := ⟨by simp, rfl, by simp⟩
    rw [Lexeme.scanWhole, digits.splitDigits ends]
    rfl
  | digits nonzero digits =>
    rw [Lexeme.scanWhole, digits.splitDigits ends]
    split <;> simp_all

/-- The digits behind the point are scanned, also if there is no point. -/
lemma IsFraction.scanFraction (h : IsFraction ds cs) (ends : EndsDigits rest)
    (noPoint : ∀ c ∈ rest.head?, c ≠ '.') : scanFraction (cs ++ rest) = some (ds, rest) := by
  cases h with
  | absent =>
    cases rest with
    | nil => rfl
    | cons c rest => simp [Lexeme.scanFraction, noPoint c rfl]
  | point digits =>
    have nonempty := digits.ne_nil
    rw [List.cons_append, Lexeme.scanFraction, digits.splitDigits ends]
    split <;> simp_all

/-- The digits of an exponent are scanned with its sign. -/
lemma IsDigits.scanExponentDigits (h : IsDigits ds cs) (ends : EndsDigits rest) (negative : Bool) :
    scanExponentDigits negative (cs ++ rest) = some (some (negative, ds), rest) := by
  have nonempty := h.ne_nil
  rw [Lexeme.scanExponentDigits, h.splitDigits ends]
  split <;> simp_all

/-- An exponent is scanned, also if there is none. -/
lemma IsExponent.scanExponent (h : IsExponent exponent cs) (ends : EndsNumber rest) :
    scanExponent (cs ++ rest) = some (exponent, rest) := by
  cases h with
  | absent =>
    cases rest with
    | nil => rfl
    | cons c rest => simp [Lexeme.scanExponent, (ends c rfl).2.2]
  | unsigned mark digits =>
    have scanned := digits.scanExponentDigits ends.endsDigits false
    obtain ⟨c, cs, rfl, digit⟩ := digits.exists_cons
    have noMinus : c ≠ '-' := ne_of_isDigit digit rfl
    have noPlus : c ≠ '+' := ne_of_isDigit digit rfl
    simpa [Lexeme.scanExponent, show _ ∨ _ from mark, noMinus, noPlus] using scanned
  | plus mark digits =>
    simpa [Lexeme.scanExponent, show _ ∨ _ from mark] using
      digits.scanExponentDigits ends.endsDigits false
  | minus mark digits =>
    simpa [Lexeme.scanExponent, show _ ∨ _ from mark] using
      digits.scanExponentDigits ends.endsDigits true

/-- The three parts of a number are scanned one after another. -/
lemma scanParts {whole fraction : List Nat} {ws fs es : List Char} (hw : IsWhole whole ws)
    (hf : IsFraction fraction fs) (he : IsExponent exponent es) (ends : EndsNumber rest) :
    scanWhole (ws ++ (fs ++ (es ++ rest))) = some (whole, fs ++ (es ++ rest)) ∧
      scanFraction (fs ++ (es ++ rest)) = some (fraction, es ++ rest) ∧
      scanExponent (es ++ rest) = some (exponent, rest) := by
  obtain ⟨stops, noPoint⟩ := he.ends ends
  exact ⟨hw.scanWhole (hf.endsDigits stops), hf.scanFraction stops noPoint, he.scanExponent ends⟩

/-- A number is scanned up to a text that does not go on with it. -/
theorem scan_append (h : IsNumber lexeme cs) (ends : EndsNumber rest) :
    scan (cs ++ rest) = some (lexeme, rest) := by
  cases h with
  | unsigned hw hf he =>
    obtain ⟨whole, fraction, exponent⟩ := scanParts hw hf he ends
    obtain ⟨c, ws, rfl, digit⟩ := hw.exists_cons
    have noMinus : c ≠ '-' := ne_of_isDigit digit rfl
    rw [List.cons_append] at whole
    simp [scan, noMinus, whole, fraction, exponent]
  | minus h =>
    cases h with
    | unsigned hw hf he =>
      obtain ⟨whole, fraction, exponent⟩ := scanParts hw hf he ends
      simp [scan, whole, fraction, exponent]

/-! ## What is scanned is written -/

/-- What is split off are digits, and their values. -/
lemma exists_of_splitDigits (e : splitDigits cs = (ds, rest)) :
    ∃ front, cs = front ++ rest ∧ (∀ c ∈ front, c.isDigit) ∧
      front.map (fun c => c.toNat - '0'.toNat) = ds := by
  induction cs generalizing ds with
  | nil =>
    obtain ⟨rfl, rfl⟩ := Prod.mk.inj e
    exact ⟨[], rfl, by simp, rfl⟩
  | cons c cs ih =>
    rw [Lexeme.splitDigits] at e
    split at e
    · next d first =>
      obtain ⟨digit, rfl⟩ := Numeral.digit?_eq_some_iff.mp first
      obtain ⟨rfl, rfl⟩ := Prod.mk.inj e
      obtain ⟨front, text, digits, values⟩ := ih rfl
      refine ⟨c :: front, congrArg (c :: ·) text, List.forall_mem_cons.mpr ⟨digit, digits⟩, ?_⟩
      rw [List.map_cons, values]
    · obtain ⟨rfl, rfl⟩ := Prod.mk.inj e
      exact ⟨[], rfl, by simp, rfl⟩

/-- If values are split off, they are those of digits in front of what is left. -/
lemma exists_isDigits_of_splitDigits (e : splitDigits cs = (ds, rest)) (nonempty : ds ≠ []) :
    ∃ front, IsDigits ds front ∧ cs = front ++ rest := by
  obtain ⟨front, text, digits, values⟩ := exists_of_splitDigits e
  refine ⟨front, ⟨digits, values, ?_⟩, text⟩
  rintro rfl
  exact nonempty values.symm

/-- A single zero is written in one way. -/
lemma IsDigits.eq_of_zero (h : IsDigits [0] cs) : cs = ['0'] := by
  obtain ⟨c, rfl, value⟩ := List.map_eq_singleton_iff.mp h.values
  have range : 48 ≤ c.toNat ∧ c.toNat ≤ 57 := Char.isDigit_iff_toNat.mp (h.isDigit c (by simp))
  have value : c.toNat - 48 = 0 := value
  have zero : c = '0' := Char.toNat_inj.mp (show c.toNat = 48 by omega)
  rw [zero]

/-- What is scanned before the point are the digits of a whole number. -/
lemma exists_isWhole_of_scanWhole (e : scanWhole cs = some (ds, rest)) :
    ∃ front, IsWhole ds front ∧ cs = front ++ rest := by
  cases split : splitDigits cs with
  | mk values behind =>
    rw [Lexeme.scanWhole, split] at e
    rcases values with _ | ⟨_ | n, _ | ⟨m, values⟩⟩
    · cases e
    · obtain ⟨rfl, rfl⟩ := Prod.mk.inj (Option.some.inj e)
      obtain ⟨front, digits, rfl⟩ := exists_isDigits_of_splitDigits split (by simp)
      obtain rfl := digits.eq_of_zero
      exact ⟨['0'], .zero, rfl⟩
    · cases e
    all_goals
      obtain ⟨rfl, rfl⟩ := Prod.mk.inj (Option.some.inj e)
      obtain ⟨front, digits, rfl⟩ := exists_isDigits_of_splitDigits split (by simp)
      exact ⟨front, .digits n.succ_ne_zero digits, rfl⟩

/-- What is scanned behind the whole number is a fraction. -/
lemma exists_isFraction_of_scanFraction (e : scanFraction cs = some (ds, rest)) :
    ∃ front, IsFraction ds front ∧ cs = front ++ rest := by
  unfold Lexeme.scanFraction at e
  split at e
  · next cs =>
    cases split : splitDigits cs with
    | mk values behind =>
      rw [split] at e
      cases values with
      | nil => cases e
      | cons n values =>
        obtain ⟨rfl, rfl⟩ := Prod.mk.inj (Option.some.inj e)
        obtain ⟨front, digits, rfl⟩ := exists_isDigits_of_splitDigits split (by simp)
        exact ⟨'.' :: front, .point digits, rfl⟩
  · obtain ⟨rfl, rfl⟩ := Prod.mk.inj (Option.some.inj e)
    exact ⟨[], .absent, rfl⟩

/-- What is scanned behind the sign of an exponent are its digits. -/
lemma exists_isDigits_of_scanExponentDigits {negative : Bool}
    (e : scanExponentDigits negative cs = some (exponent, rest)) :
    ∃ ds front, exponent = some (negative, ds) ∧ IsDigits ds front ∧ cs = front ++ rest := by
  cases split : splitDigits cs with
  | mk values behind =>
    rw [Lexeme.scanExponentDigits, split] at e
    cases values with
    | nil => cases e
    | cons n values =>
      obtain ⟨rfl, rfl⟩ := Prod.mk.inj (Option.some.inj e)
      obtain ⟨front, digits, rfl⟩ := exists_isDigits_of_splitDigits split (by simp)
      exact ⟨_, front, rfl, digits, rfl⟩

/-- What is scanned behind the fraction is an exponent. -/
lemma exists_isExponent_of_scanExponent (e : scanExponent cs = some (exponent, rest)) :
    ∃ front, IsExponent exponent front ∧ cs = front ++ rest := by
  unfold Lexeme.scanExponent at e
  split at e
  · split_ifs at e with mark
    · split at e
      · obtain ⟨ds, front, rfl, digits, rfl⟩ := exists_isDigits_of_scanExponentDigits e
        exact ⟨_, .minus mark digits, rfl⟩
      · obtain ⟨ds, front, rfl, digits, rfl⟩ := exists_isDigits_of_scanExponentDigits e
        exact ⟨_, .plus mark digits, rfl⟩
      · obtain ⟨ds, front, rfl, digits, rfl⟩ := exists_isDigits_of_scanExponentDigits e
        exact ⟨_, .unsigned mark digits, rfl⟩
    · obtain ⟨rfl, rfl⟩ := Prod.mk.inj (Option.some.inj e)
      exact ⟨[], .absent, rfl⟩
  · obtain ⟨rfl, rfl⟩ := Prod.mk.inj (Option.some.inj e)
    exact ⟨[], .absent, rfl⟩

/-- What is scanned at the start of a text is the number that is written there. -/
theorem exists_isNumber_of_scan (e : scan cs = some (lexeme, rest)) :
    ∃ front, IsNumber lexeme front ∧ cs = front ++ rest := by
  unfold scan at e
  simp only [Option.bind_eq_bind, Option.bind_eq_some_iff] at e
  obtain ⟨⟨whole, mid⟩, scannedWhole, ⟨fraction, mid'⟩, scannedFraction, ⟨exponent, behind⟩,
    scannedExponent, parts⟩ := e
  obtain ⟨rfl, rfl⟩ := Prod.mk.inj (Option.some.inj parts)
  obtain ⟨fs, hf, rfl⟩ := exists_isFraction_of_scanFraction scannedFraction
  obtain ⟨es, he, rfl⟩ := exists_isExponent_of_scanExponent scannedExponent
  split at scannedWhole
  · obtain ⟨ws, hw, rfl⟩ := exists_isWhole_of_scanWhole scannedWhole
    exact ⟨_, .minus (.unsigned hw hf he), by simp⟩
  · obtain ⟨ws, hw, rfl⟩ := exists_isWhole_of_scanWhole scannedWhole
    exact ⟨_, .unsigned hw hf he, by simp⟩

/-! ## Decimal forms -/

/-- Only the decimal form of zero starts with a zero. -/
lemma eq_nil_of_toDigits_eq_cons {n : Nat} (h : Nat.toDigits 10 n = '0' :: cs) : cs = [] := by
  induction n using Nat.strong_induction_on generalizing cs with
  | h n ih =>
    by_cases small : n < 10
    · rw [Nat.toDigits_of_lt_base small] at h
      exact (List.cons.inj h).2.symm
    · rw [Nat.toDigits_of_base_le (by omega) (by omega)] at h
      -- The digits before the last one are those of a smaller number that is not zero.
      cases front : Nat.toDigits 10 (n / 10) with
      | nil => exact absurd front Nat.toDigits_ne_nil
      | cons d ds =>
        rw [front, List.cons_append] at h
        obtain ⟨rfl, -⟩ := List.cons.inj h
        obtain rfl := ih (n / 10) (by omega) front
        have value := @Nat.ofDigitChars_ten_toDigits (n / 10)
        rw [front] at value
        have zero : 0 = n / 10 := value
        omega

/-- The values of the digits of a number. -/
def digitsOf (n : Nat) : List Nat :=
  (Nat.toDigits 10 n).map fun c => c.toNat - '0'.toNat

/-- The value of digits is that of their decimal numeral. -/
lemma ofDigits_map (cs : List Char) (n : Nat) :
    (cs.map fun c => c.toNat - '0'.toNat).foldl (fun n d => n * 10 + d) n =
      Nat.ofDigitChars 10 cs n := by
  induction cs generalizing n with
  | nil => rfl
  | cons c cs ih => rw [List.map_cons, List.foldl_cons, ih, Nat.ofDigitChars_cons, Nat.mul_comm]

/-- A number is the value of its decimal digits. -/
lemma ofDigits_digitsOf (n : Nat) : ofDigits (digitsOf n) = n := by
  rw [ofDigits, digitsOf, ofDigits_map, Nat.ofDigitChars_ten_toDigits]

/-- A decimal form does not start with zero unless it is that of zero. -/
lemma isWhole_toDigits (n : Nat) : IsWhole (digitsOf n) (Nat.toDigits 10 n) := by
  have digits : IsDigits (digitsOf n) (Nat.toDigits 10 n) :=
    ⟨fun c => isDigit_of_mem_toDigits, rfl, Nat.toDigits_ne_nil⟩
  obtain ⟨c, cs, form, digit⟩ := digits.exists_cons
  rw [digitsOf] at digits ⊢
  rw [form] at digits ⊢
  by_cases zero : c = '0'
  · subst zero
    obtain rfl := eq_nil_of_toDigits_eq_cons form
    exact .zero
  · refine .digits ?_ digits
    have range : 48 ≤ c.toNat ∧ c.toNat ≤ 57 := Char.isDigit_iff_toNat.mp digit
    have other : c.toNat ≠ 48 := fun same => zero (Char.toNat_inj.mp same)
    exact Nat.sub_ne_zero_of_lt (show 48 < c.toNat by omega)

/-- The decimal digits of a natural number are a number without sign, fraction and exponent. -/
lemma isNumber_toDigits (n : Nat) :
    IsNumber ⟨false, digitsOf n, [], none⟩ (Nat.toDigits 10 n) := by
  have number := IsNumber.unsigned (isWhole_toDigits n) .absent .absent
  rwa [List.append_nil, List.append_nil] at number

/-! ## Integers among the numbers -/

/-- The integer before the point. -/
def integer (number : Lexeme) : Int :=
  if number.negative then -(ofDigits number.whole : Int) else ofDigits number.whole

end Lexeme

/-- An integer of 64 bits, with or without a sign. -/
def IsWord (i : Int) : Prop :=
  -0x8000000000000000 ≤ i ∧ i < Numeral.word64Bound

namespace Lexeme

variable {lexeme : Lexeme} {i : Int}

/-- The value of digits is at least that of the first. -/
lemma le_ofDigits (n : Nat) (ds : List Nat) : n ≤ ofDigits (n :: ds) := by
  have grows (m : Nat) : m ≤ ds.foldl (fun n d => n * 10 + d) m := by
    induction ds generalizing m with
    | nil => exact le_rfl
    | cons d ds ih => exact le_trans (by omega) (ih (m * 10 + d))
  calc n
    _ = 0 * 10 + n := by omega
    _ ≤ ofDigits (n :: ds) := grows _

/-- The value of the digits before the point is zero only for a single zero. -/
lemma IsWhole.ofDigits_eq_zero_iff (h : IsWhole ds cs) : ofDigits ds = 0 ↔ cs = ['0'] := by
  cases h with
  | zero => simp [ofDigits]
  | @digits n ds _ nonzero digits =>
    have positive := le_ofDigits n ds
    refine ⟨fun zero => absurd zero (by omega), ?_⟩
    rintro rfl
    have value : n = 0 := (List.cons.inj digits.values).1.symm
    exact absurd value nonzero

/-- A number without fraction and exponent is a negative zero if it is written as one. -/
lemma IsNumber.negativeZero_iff (h : IsNumber lexeme cs) (noFraction : lexeme.fraction = [])
    (noExponent : lexeme.exponent = none) :
    (lexeme.negative ∧ ofDigits lexeme.whole = 0) ↔ cs = ['-', '0'] := by
  cases h with
  | unsigned hw _ _ =>
    obtain ⟨c, ws, rfl, digit⟩ := hw.exists_cons
    have noMinus : c ≠ '-' := ne_of_isDigit digit rfl
    simp [noMinus]
  | minus h =>
    obtain rfl := noFraction
    obtain rfl := noExponent
    cases h with
    | unsigned hw hf he =>
      cases hf with
      | absent =>
        cases he with
        | absent => simp [hw.ofDigits_eq_zero_iff]
      | point digits => exact absurd rfl digits.ne_nil

/-- A number is an integer exactly if it has no fraction and no exponent, is not a negative zero,
and fits 64 bits. -/
lemma toInteger?_eq_some_iff : lexeme.toInteger? = some i ↔
    lexeme.fraction = [] ∧ lexeme.exponent = none ∧
      ¬(lexeme.negative ∧ ofDigits lexeme.whole = 0) ∧ IsWord i ∧ i = lexeme.integer := by
  unfold toInteger? integer IsWord
  by_cases parts : lexeme.fraction = [] ∧ lexeme.exponent = none
  · obtain ⟨noFraction, noExponent⟩ := parts
    simp only [noFraction, noExponent, ne_eq, not_true_eq_false, or_self, if_false, true_and]
    generalize ofDigits lexeme.whole = n
    cases lexeme.negative with
    | false =>
      simp only [Bool.false_eq_true, if_false, false_and, not_false_eq_true, true_and]
      split_ifs with small
      · simp only [Option.some.injEq]
        omega
      · rw [false_iff]
        omega
    | true =>
      simp only [if_true, true_and]
      split_ifs with small
      · simp only [Option.some.injEq]
        omega
      · rw [false_iff]
        omega
  · have other : lexeme.fraction ≠ [] ∨ lexeme.exponent ≠ none := by tauto
    rw [if_pos other]
    tauto

/-- A number is kept as an integer exactly if it is one. -/
lemma toNumber?_eq_integer_iff :
    lexeme.toNumber? = some (.integer i) ↔ lexeme.toInteger? = some i := by
  unfold toNumber?
  cases lexeme.toInteger? with
  | some j => simp
  | none => simp

end Lexeme

/-- An integer of 64 bits is read back from its decimal form. -/
lemma scan_toString {i : Int} (word : IsWord i) (ends : EndsNumber rest) :
    ∃ lexeme, Lexeme.scan ((toString i).toList ++ rest) = some (lexeme, rest) ∧
      lexeme.toNumber? = some (.integer i) := by
  simp only [Lexeme.toNumber?_eq_integer_iff, Lexeme.toInteger?_eq_some_iff]
  rcases toList_toString_cases i with ⟨n, rfl, form⟩ | ⟨n, positive, rfl, form⟩
  · refine ⟨_, form ▸ Lexeme.scan_append (Lexeme.isNumber_toDigits n) ends, rfl, rfl, ?_⟩
    simp [Lexeme.integer, Lexeme.ofDigits_digitsOf, word]
  · refine ⟨_, form ▸ Lexeme.scan_append (.minus (Lexeme.isNumber_toDigits n)) ends, rfl, rfl, ?_⟩
    simp [Lexeme.integer, Lexeme.ofDigits_digitsOf, word, positive.ne']

end ContractCalls.Json

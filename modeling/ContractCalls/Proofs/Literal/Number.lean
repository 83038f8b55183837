import ContractCalls.Proofs.Json.Reading
import ContractCalls.Proofs.Literal.Leaf

/-!
# Numbers as literals of integers

A number of a JSON text is read at an integer type through its printed form. An integer prints as
its digits; a double prints with a point or an exponent (`exists_mem_printDouble`), which no reader
of integers takes. So a number is a value exactly if it is written as an integer of 64 bits that is
in the range of the type, and it is then that integer (`ofJson_number_iff`): nothing is rounded.
-/

namespace ContractCalls

/-- Whether a primitive type has an integer among its values. -/
def Primitive.HasInteger : Primitive → Int → Prop
  | .int t, i => t.least ≤ i ∧ i ≤ t.greatest
  | .bigUint, i => 0 ≤ i
  | .bigInt, _ => True
  | _, _ => False

/-! ## Printed doubles -/

namespace Json.Number

/-- A point, or the mark of an exponent. -/
def IsFractionMark (c : Char) : Prop :=
  c = '.' ∨ c = 'e'

/-- Digits of a double are laid out with a point or an exponent. -/
lemma exists_mem_layout (format : DoubleFormat) (digits : List Char) (top : Int) :
    ∃ c ∈ layout format digits top, IsFractionMark c := by
  unfold layout
  split
  · split
    · exact ⟨'.', by simp, .inl rfl⟩
    · dsimp only
      split
      · exact ⟨'.', by simp, .inl rfl⟩
      · exact ⟨'.', by simp, .inl rfl⟩
  · exact ⟨'e', by simp, .inr rfl⟩

/-- Doubles are written with a point or an exponent. -/
lemma exists_mem_printDouble (x : Binary64) : ∃ c ∈ printDouble x, IsFractionMark c := by
  have behindSign {cs : List Char} (h : ∃ c ∈ cs, IsFractionMark c) :
      ∃ c ∈ (if x.negative then '-' :: cs else cs), IsFractionMark c := by
    obtain ⟨c, hc, mark⟩ := h
    split
    · exact ⟨c, List.mem_cons_of_mem _ hc, mark⟩
    · exact ⟨c, hc, mark⟩
  apply behindSign
  split
  · exact ⟨'.', by simp, .inl rfl⟩
  · exact exists_mem_layout _ _ _

/-- Neither a point nor the mark of an exponent stands in a numeral. -/
lemma IsFractionMark.not_isNumeralChar {c : Char} (h : IsFractionMark c) :
    ¬Numeral.IsNumeralChar c := by
  rcases h with rfl | rfl <;> simp [Numeral.IsNumeralChar]

end Json.Number

namespace Value

variable {p : Primitive} {t : IntType} {i : Int} {v : Value}

/-! ## Integers as values -/

/-- A value of an integer type, with the integer that it is. -/
inductive IsInteger : Primitive → Int → Value → Prop
  | fixed {t : IntType} (n : Fixed t) : IsInteger (.int t) n.val (.int t n)
  | natural (n : Nat) : IsInteger .bigUint n (.bigUint n)
  | integer (i : Int) : IsInteger .bigInt i (.bigInt i)

/-- A primitive type has a value for an integer exactly if the integer is in its range. -/
lemma exists_isInteger_iff : (∃ v, IsInteger p i v) ↔ p.HasInteger i := by
  refine ⟨?_, fun range => ?_⟩
  · rintro ⟨v, h⟩
    cases h with
    | fixed n => exact n.bounds
    | natural n => exact Int.natCast_nonneg n
    | integer i => trivial
  · cases p with
    | int t => exact ⟨_, .fixed ⟨i, range⟩⟩
    | bigUint =>
      lift i to Nat using range
      exact ⟨_, .natural i⟩
    | bigInt => exact ⟨_, .integer i⟩
    | _ => exact range.elim

/-! ## Numerals as values -/

/-- The value of an integer type that is written as a numeral. -/
def ofNumeral? : Primitive → List Char → Option Value
  | .int t, cs => (fixed? t cs).map (.int t)
  | .bigUint, cs => (Numeral.unboundedNatural? cs).map .bigUint
  | .bigInt, cs => (Numeral.unboundedInteger? cs).map .bigInt
  | _, _ => none

/-- Only characters of numerals are read as an integer of fixed width. -/
lemma isNumeralChar_of_fixed? {n : Fixed t} {cs : List Char} (e : fixed? t cs = some n) :
    ∀ c ∈ cs, Numeral.IsNumeralChar c := by
  unfold fixed? at e
  split_ifs at e
  · obtain ⟨i, read, -⟩ := Option.bind_eq_some_iff.mp e
    exact Numeral.isNumeralChar_of_integer? read
  · obtain ⟨n, read, -⟩ := Option.bind_eq_some_iff.mp e
    exact Numeral.isNumeralChar_of_natural? read

/-- Only characters of numerals are read at a primitive type. -/
lemma isNumeralChar_of_ofNumeral? {cs : List Char} (e : ofNumeral? p cs = some v) :
    ∀ c ∈ cs, Numeral.IsNumeralChar c := by
  cases p with
  | int t =>
    obtain ⟨n, read, -⟩ := Option.map_eq_some_iff.mp e
    exact isNumeralChar_of_fixed? read
  | bigUint =>
    obtain ⟨n, read, -⟩ := Option.map_eq_some_iff.mp e
    exact Numeral.isNumeralChar_of_unboundedNatural? read
  | bigInt =>
    obtain ⟨i, read, -⟩ := Option.map_eq_some_iff.mp e
    exact Numeral.isNumeralChar_of_unboundedInteger? read
  | _ => cases e

/-- No printed double is a numeral. -/
lemma ofNumeral?_printDouble (p : Primitive) (x : Binary64) :
    ofNumeral? p (Json.Number.printDouble x) = none := by
  obtain ⟨c, h, mark⟩ := Json.Number.exists_mem_printDouble x
  rw [Option.eq_none_iff_forall_ne_some]
  intro v e
  exact mark.not_isNumeralChar (isNumeralChar_of_ofNumeral? e c h)

/-- The decimal form of an integer is that integer, at a type that has it. -/
lemma ofNumeral?_toString_eq_some_iff :
    ofNumeral? p (toString i).toList = some v ↔ IsInteger p i v := by
  refine ⟨fun e => ?_, fun h => ?_⟩
  · cases p with
    | int t =>
      obtain ⟨n, read, rfl⟩ := Option.map_eq_some_iff.mp e
      obtain rfl := fixed?_toString_eq_some_iff.mp read
      exact .fixed n
    | bigUint =>
      obtain ⟨n, read, rfl⟩ := Option.map_eq_some_iff.mp e
      obtain rfl := Numeral.unboundedNatural?_toString_eq_some_iff.mp read
      exact .natural n
    | bigInt =>
      obtain ⟨j, read, rfl⟩ := Option.map_eq_some_iff.mp e
      rw [Numeral.unboundedInteger?_toString] at read
      obtain rfl := Option.some.inj read
      exact .integer i
    | _ => cases e
  · cases h with
    | fixed n => rw [ofNumeral?, fixed?_toString_eq_some_iff.mpr rfl, Option.map_some]
    | natural n =>
      rw [ofNumeral?, Numeral.unboundedNatural?_toString_eq_some_iff.mpr rfl, Option.map_some]
    | integer i => rw [ofNumeral?, Numeral.unboundedInteger?_toString, Option.map_some]

/-! ## Literals -/

/-- What is required is found or refused as a literal of its form. -/
lemma map_require (expected : String) (literal : Json) {α : Type} (found : Option α)
    (make : α → Value) :
    (∃ v, found.map make = some v ∧ (require expected literal found).map make = .ok v) ∨
      found.map make = none ∧ ∃ form,
        (require expected literal found).map make = .error (.invalid form literal.text) := by
  cases found with
  | some a => exact .inl ⟨make a, rfl, rfl⟩
  | none => exact .inr ⟨rfl, expected, rfl⟩

/-- A number is read through its printed form, or refused. -/
lemma ofJsonPrimitive_number (p : Primitive) (n : Json.Number) :
    (∃ v, ofNumeral? p n.print = some v ∧ ofJsonPrimitive p (.number n) = .ok v) ∨
      ofNumeral? p n.print = none ∧ ∃ expected,
        ofJsonPrimitive p (.number n) = .error (.invalid expected (Json.number n).text) := by
  cases p with
  | int t => exact map_require _ _ (fixed? t n.print) (.int t)
  | bigUint => exact map_require _ _ (Numeral.unboundedNatural? n.print) .bigUint
  | bigInt => exact map_require _ _ (Numeral.unboundedInteger? n.print) .bigInt
  | _ => exact .inr ⟨rfl, _, rfl⟩

/-- A number is read at a primitive type exactly if its printed form is. -/
lemma ofJson_number_eq_ok_iff {n : Json.Number} :
    ofJson (.primitive p) (.number n) = .ok v ↔ ofNumeral? p n.print = some v := by
  rw [ofJson]
  rcases ofJsonPrimitive_number p n with ⟨u, numeral, read⟩ | ⟨numeral, expected, read⟩
  · rw [numeral, read, Except.ok.injEq, Option.some.injEq]
  · simp [numeral, read]

variable {lexeme : Json.Lexeme}

/-- What is written as a number is read as the integer that it denotes, if it denotes one. -/
lemma reads_toNumber?_iff :
    (∃ n, lexeme.toNumber? = some n ∧ ofJson (.primitive p) (.number n) = .ok v) ↔
      ∃ i, lexeme.toInteger? = some i ∧ IsInteger p i v := by
  simp only [ofJson_number_eq_ok_iff]
  refine ⟨?_, ?_⟩
  · rintro ⟨n, number, read⟩
    cases n with
    | integer i =>
      exact ⟨i, Json.Lexeme.toNumber?_eq_integer_iff.mp number,
        ofNumeral?_toString_eq_some_iff.mp read⟩
    | double x =>
      rw [Json.Number.print, ofNumeral?_printDouble] at read
      cases read
  · rintro ⟨i, integer, h⟩
    exact ⟨.integer i, Json.Lexeme.toNumber?_eq_integer_iff.mpr integer,
      ofNumeral?_toString_eq_some_iff.mpr h⟩

/-- A number denotes an integer of 64 bits if it has neither fraction nor exponent and is not written
as a negative zero. -/
lemma toInteger?_eq_some_iff_of_isNumber {cs : List Char} (written : lexeme.IsNumber cs) :
    lexeme.toInteger? = some i ↔ lexeme.fraction = [] ∧ lexeme.exponent = none ∧
      cs ≠ ['-', '0'] ∧ Json.IsWord lexeme.integer ∧ i = lexeme.integer := by
  rw [Json.Lexeme.toInteger?_eq_some_iff]
  refine and_congr_right fun noFraction => and_congr_right fun noExponent => ?_
  rw [written.negativeZero_iff noFraction noExponent, and_congr_right_iff]
  rintro -
  exact and_congr_left fun value => by rw [value]

/-- A number is a value of a primitive type exactly if its text has neither fraction nor exponent, is
not that of a negative zero and denotes an integer of 64 bits that the type has. The value is this
integer. All other numbers are refused, and a number that no double can hold is no JSON text. -/
theorem ofJson_number_iff {text : String} (written : lexeme.IsNumber text.toList) (p : Primitive) :
    ((∃ j v, Json.parse? text = some j ∧ ofJson (.primitive p) j.canonical = .ok v) ↔
      lexeme.fraction = [] ∧ lexeme.exponent = none ∧ text ≠ "-0" ∧
        Json.IsWord lexeme.integer ∧ p.HasInteger lexeme.integer) ∧
    (∀ j, Json.parse? text = some j →
      (∃ v, ofJson (.primitive p) j.canonical = .ok v ∧ IsInteger p lexeme.integer v) ∨
        ∃ expected, ofJson (.primitive p) j.canonical = .error (.invalid expected j.text)) ∧
    (Json.parse? text = none ↔ lexeme.toInteger? = none ∧ lexeme.toDouble = none) := by
  have integer (i : Int) := toInteger?_eq_some_iff_of_isNumber (i := i) written
  have zero : text ≠ "-0" ↔ text.toList ≠ ['-', '0'] := by
    rw [ne_eq, ← String.toList_inj]
    rfl
  simp only [Json.parse?_of_isNumber written, Option.map_eq_some_iff, Option.map_eq_none_iff]
  refine ⟨?_, ?_, ?_⟩
  · rw [zero]
    constructor
    · rintro ⟨_, v, ⟨n, number, rfl⟩, read⟩
      obtain ⟨i, denoted, h⟩ := reads_toNumber?_iff.mp ⟨n, number, read⟩
      obtain ⟨noFraction, noExponent, nonzero, word, rfl⟩ := (integer i).mp denoted
      exact ⟨noFraction, noExponent, nonzero, word, exists_isInteger_iff.mp ⟨v, h⟩⟩
    · rintro ⟨noFraction, noExponent, nonzero, word, range⟩
      obtain ⟨v, h⟩ := exists_isInteger_iff.mpr range
      have denoted := (integer _).mpr ⟨noFraction, noExponent, nonzero, word, rfl⟩
      obtain ⟨n, number, read⟩ := reads_toNumber?_iff.mpr ⟨_, denoted, h⟩
      exact ⟨_, v, ⟨n, number, rfl⟩, read⟩
  · rintro _ ⟨n, number, rfl⟩
    rcases ofJsonPrimitive_number p n with ⟨v, -, read⟩ | ⟨-, expected, read⟩
    · obtain ⟨i, denoted, h⟩ := reads_toNumber?_iff.mp ⟨n, number, read⟩
      obtain ⟨-, -, -, -, rfl⟩ := (integer i).mp denoted
      exact .inl ⟨v, read, h⟩
    · exact .inr ⟨expected, read⟩
  · unfold Json.Lexeme.toNumber?
    cases lexeme.toInteger? <;> simp

/-- The greatest byte is a value of the byte type without a sign, and not of the one with a sign. -/
theorem ofJson_number_iff_greatest_byte :
    Json.Lexeme.IsNumber ⟨false, [2, 5, 5], [], none⟩ "255".toList ∧
    (∃ j v, Json.parse? "255" = some j ∧
      ofJson (.primitive (.int ⟨false, .one⟩)) j.canonical = .ok v) ∧
    ¬∃ j v, Json.parse? "255" = some j ∧
      ofJson (.primitive (.int ⟨true, .one⟩)) j.canonical = .ok v := by
  have digits : Json.Lexeme.IsDigits [2, 5, 5] ['2', '5', '5'] := ⟨by simp, rfl, by simp⟩
  have written : Json.Lexeme.IsNumber ⟨false, [2, 5, 5], [], none⟩ "255".toList :=
    .unsigned (.digits two_ne_zero digits) .absent .absent
  refine ⟨written, ?_, ?_⟩
  · apply (ofJson_number_iff written _).1.mpr
    exact ⟨rfl, rfl, by decide, ⟨by decide, by decide⟩, by decide, by decide⟩
  · rw [(ofJson_number_iff written _).1]
    rintro ⟨-, -, -, -, -, range⟩
    exact absurd range (by decide)

end Value

end ContractCalls

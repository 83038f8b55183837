import ContractCalls.Json.Reader
import ContractCalls.Proofs.Json.Lexical
import ContractCalls.Proofs.Json.Number

/-!
# JSON texts, written and read

A value is read back from its text (`parseFor?_text`), if the shape for which the text is read asks
for everything in the value, if its numbers are integers of 64 bits, and if its arrays and objects
do not stand in one another too deep. The reader counts its steps down, from twice the length of
the text: each value, item and member takes two of them at most for each of its characters.
-/

namespace ContractCalls.Json

variable {shape : Shape} {fuel depth : Nat} {rest : List Char}

/-! ## Values that are read whole -/

mutual

/-- Everything in a value is asked for, and its numbers are integers of 64 bits. -/
def Fits (shape : Shape) : Json → Prop
  | .number (.integer i) => IsWord i
  | .number (.double _) => False
  | .array items => FitsItems shape items
  | .object members => FitsMembers shape members
  | _ => True

/-- Everything in the items of an array is asked for. -/
def FitsItems (shape : Shape) : List Json → Prop
  | [] => True
  | item :: items => item.Fits shape.head ∧ FitsItems shape.tail items

/-- Everything in the members of an object is asked for. -/
def FitsMembers (shape : Shape) : List (String × Json) → Prop
  | [] => True
  | (key, value) :: members =>
    (∃ part, shape.member? key = some part ∧ value.Fits part) ∧ FitsMembers shape members

end

section

variable {items : List Json} {members : List (String × Json)}

/-- A natural number of 64 bits is read for any shape. -/
lemma fits_ofNat {n : Nat} (bound : n < Numeral.word64Bound) : (ofNat n).Fits shape :=
  ⟨by omega, by exact_mod_cast bound⟩

/-- The items of an array are asked for alike, if the shape behind the first one is the same. -/
lemma fitsItems_iff (again : shape.tail = shape) :
    FitsItems shape items ↔ ∀ item ∈ items, item.Fits shape.head := by
  induction items with
  | nil => simp [FitsItems]
  | cons item items ih => rw [FitsItems, again, ih, List.forall_mem_cons]

/-- The members of an object are asked for exactly if the shape has a part for each that asks for
its value. -/
lemma fitsMembers_iff : FitsMembers shape members ↔
    ∀ member ∈ members, ∃ part, shape.member? member.1 = some part ∧ member.2.Fits part := by
  induction members with
  | nil => simp [FitsMembers]
  | cons member members ih => rw [FitsMembers, List.forall_mem_cons, ih]

end

/-! ## Starts of values -/

/-- There is no space to skip in front of another character. -/
lemma skipSpace_cons {c : Char} (solid : isSpace c = false) (cs : List Char) :
    skipSpace (c :: cs) = c :: cs := by
  simp [skipSpace, solid]

/-- The text of an integer starts with a digit or a minus sign. -/
lemma exists_toString_eq_cons (i : Int) :
    ∃ c cs, (toString i).toList = c :: cs ∧ (c.isDigit ∨ c = '-') := by
  rcases toList_toString_cases i with ⟨n, -, form⟩ | ⟨n, -, -, form⟩
  · cases digits : Nat.toDigits 10 n with
    | nil => exact absurd digits Nat.toDigits_ne_nil
    | cons c cs =>
      exact ⟨c, cs, form.trans digits, .inl (isDigit_of_mem_toDigits (n := n) (by simp [digits]))⟩
  · exact ⟨'-', _, form, .inr rfl⟩

/-- The start of a number is no other character. -/
lemma ne_of_isDigit_or_minus {c d : Char} (start : c.isDigit ∨ c = '-') (other : d.isDigit = false)
    (noMinus : d ≠ '-') : c ≠ d := by
  rcases start with digit | rfl
  · exact Lexeme.ne_of_isDigit digit other
  · exact noMinus.symm

/-- A number does not start with a space. -/
lemma isSpace_of_isDigit_or_minus {c : Char} (start : c.isDigit ∨ c = '-') :
    isSpace c = false := by
  simp [isSpace, ne_of_isDigit_or_minus start]

/-- The text of a value starts neither with white space nor with a bracket that closes an array. -/
lemma exists_print_eq_cons {j : Json} (fits : j.Fits shape) :
    ∃ c cs, j.print = c :: cs ∧ isSpace c = false ∧ c ≠ ']' := by
  cases j with
  | null => exact ⟨_, _, rfl, by decide, by decide⟩
  | bool b => cases b <;> exact ⟨_, _, rfl, by decide, by decide⟩
  | number n =>
    cases n with
    | integer i =>
      obtain ⟨c, cs, form, start⟩ := exists_toString_eq_cons i
      exact ⟨c, cs, form, isSpace_of_isDigit_or_minus start,
        ne_of_isDigit_or_minus start (by decide) (by decide)⟩
    | double x => exact fits.elim
  | string s => exact ⟨_, _, rfl, by decide, by decide⟩
  | array items => exact ⟨_, _, rfl, by decide, by decide⟩
  | object members => exact ⟨_, _, rfl, by decide, by decide⟩

/-- A value that is asked for is not written as the empty text. -/
lemma length_print_pos {j : Json} (fits : j.Fits shape) : 0 < j.print.length := by
  obtain ⟨c, cs, form, -⟩ := exists_print_eq_cons fits
  simp [form]

/-! ## Steps of the reader -/

/-- A number is scanned where no other value starts. -/
lemma readValue_of_number {c : Char} (start : c.isDigit ∨ c = '-') (cs : List Char) :
    readValue (fuel + 1) depth shape (c :: cs) = (do
      let (lexeme, rest) ← Lexeme.scan (c :: cs)
      let number ← lexeme.toNumber?
      return (.number number, rest)) := by
  have other := @ne_of_isDigit_or_minus c
  rw [readValue, skipSpace_cons (isSpace_of_isDigit_or_minus start)]
  split
  case h_7 => rfl
  all_goals
    next same =>
    obtain ⟨rfl, -⟩ := List.cons.inj same
    exact absurd start (by decide)

/-- An integer of 64 bits is read back from its decimal text. -/
lemma readValue_toString {i : Int} (word : IsWord i) (ends : EndsNumber rest) :
    readValue (fuel + 1) depth shape ((toString i).toList ++ rest) =
      some (.number (.integer i), rest) := by
  obtain ⟨lexeme, scanned, value⟩ := scan_toString word ends
  obtain ⟨c, cs, form, start⟩ := exists_toString_eq_cons i
  rw [form, List.cons_append] at scanned ⊢
  rw [readValue_of_number start, scanned, Option.bind_eq_bind, Option.bind_some]
  simp [value]

/-- A text is read back from its quotation. -/
lemma readValue_quote (s : String) :
    readValue (fuel + 1) depth shape (quote s ++ rest) = some (.string s, rest) := by
  rw [quote, List.append_assoc, List.cons_append, readValue, skipSpace_cons (by decide)]
  simp only [List.cons_append, List.nil_append, readString_flatMap, Option.map_some,
    String.ofList_toList]

/-- Behind an opening bracket, items are read if the array is not closed there. -/
lemma readValue_array {c : Char} {cs : List Char} (solid : isSpace c = false)
    (opened : c ≠ ']') :
    readValue (fuel + 1) (depth + 1) shape ('[' :: c :: cs) =
      (readItems fuel depth shape (c :: cs)).map fun (items, rest) => (.array items, rest) := by
  rw [readValue, skipSpace_cons (by decide)]
  simp only [skipSpace_cons solid]
  split
  · next same => exact absurd (List.cons.inj same).1 opened
  · rfl

/-- Behind an opening brace, members are read if a key stands there. -/
lemma readValue_object (cs : List Char) :
    readValue (fuel + 1) (depth + 1) shape ('\x7b' :: '"' :: cs) =
      (readMembers fuel depth shape ('"' :: cs)).map fun (members, rest) =>
        (.object members, rest) := by
  rw [readValue, skipSpace_cons (by decide)]
  simp only [skipSpace_cons (show isSpace '"' = false by decide)]
  rfl

section

variable {item value : Json} {items : List Json} {members : List (String × Json)} {key : String}
  {part : Shape} {cs mid : List Char}

/-- The last item is read up to the closing bracket. -/
lemma readItems_of_last (first : readValue fuel depth shape.head cs = some (item, ']' :: rest)) :
    readItems (fuel + 1) depth shape cs = some ([item], rest) := by
  rw [readItems, first, Option.bind_eq_bind, Option.bind_some]
  simp only [skipSpace_cons (show isSpace ']' = false by decide)]

/-- An item in front of others is read up to the comma. -/
lemma readItems_of_next (first : readValue fuel depth shape.head cs = some (item, ',' :: mid))
    (others : readItems fuel depth shape.tail mid = some (items, rest)) :
    readItems (fuel + 1) depth shape cs = some (item :: items, rest) := by
  rw [readItems, first, Option.bind_eq_bind, Option.bind_some]
  simp only [skipSpace_cons (show isSpace ',' = false by decide), others, Option.map_some]

/-- The last member is read up to the closing brace. -/
lemma readMembers_of_last (asked : shape.member? key = some part)
    (first : readValue fuel depth part cs = some (value, '\x7d' :: rest)) :
    readMembers (fuel + 1) depth shape (quote key ++ ':' :: cs) = some ([(key, value)], rest) := by
  rw [quote, List.append_assoc, List.cons_append, readMembers,
    skipSpace_cons (show isSpace '"' = false by decide)]
  simp only [List.cons_append, List.nil_append, readString_flatMap, Option.bind_eq_bind,
    Option.bind_some, skipSpace_cons (show isSpace ':' = false by decide), String.ofList_toList,
    asked, first, Option.map_some, skipSpace_cons (show isSpace '\x7d' = false by decide)]

/-- A member in front of others is read up to the comma. -/
lemma readMembers_of_next (asked : shape.member? key = some part)
    (first : readValue fuel depth part cs = some (value, ',' :: mid))
    (others : readMembers fuel depth shape mid = some (members, rest)) :
    readMembers (fuel + 1) depth shape (quote key ++ ':' :: cs) =
      some ((key, value) :: members, rest) := by
  rw [quote, List.append_assoc, List.cons_append, readMembers,
    skipSpace_cons (show isSpace '"' = false by decide)]
  simp only [List.cons_append, List.nil_append, readString_flatMap, Option.bind_eq_bind,
    Option.bind_some, skipSpace_cons (show isSpace ':' = false by decide), String.ofList_toList,
    asked, first, Option.map_some, skipSpace_cons (show isSpace ',' = false by decide), others]

end

/-! ## Texts -/

/-- A text that goes on with a comma or a closing bracket does not go on with a number. -/
lemma endsNumber_cons {c : Char} (cs : List Char) (h : c = ',' ∨ c = ']' ∨ c = '\x7d') :
    EndsNumber (c :: cs) := by
  rintro d ⟨⟩
  rcases h with rfl | rfl | rfl <;> decide

/-- Texts are joined by a comma behind the first. -/
lemma join_cons (text next : List Char) (texts : List (List Char)) :
    Text.join [','] (text :: next :: texts) = text ++ ',' :: Text.join [','] (next :: texts) :=
  List.append_assoc text [','] _

/-- The texts of items start as that of the first one. -/
lemma exists_join_printItems_eq_cons {item : Json} (fits : item.Fits shape) (items : List Json) :
    ∃ c cs, Text.join [','] (printItems (item :: items)) = c :: cs ∧ isSpace c = false ∧
      c ≠ ']' := by
  obtain ⟨c, cs, form, start⟩ := exists_print_eq_cons fits
  cases items with
  | nil => exact ⟨c, cs, form, start⟩
  | cons next items =>
    refine ⟨c, cs ++ ',' :: Text.join [','] (printItems (next :: items)), ?_, start⟩
    rw [printItems, printItems, join_cons, form, List.cons_append]

/-- The texts of members start with the quote of a key. -/
lemma exists_join_printMembers_eq_cons (key : String) (value : Json)
    (members : List (String × Json)) :
    ∃ cs, Text.join [','] (printMembers ((key, value) :: members)) = '"' :: cs := by
  cases members with
  | nil => exact ⟨_, rfl⟩
  | cons next members => exact ⟨_, rfl⟩

mutual

/-- A value that is asked for as a whole is read back from its text, whatever follows that does not
go on with a number. -/
theorem readValue_print : (j : Json) → {shape : Shape} → {fuel depth : Nat} → {rest : List Char} →
    j.Fits shape → j.depth ≤ depth → 2 * j.print.length ≤ fuel + 2 → EndsNumber rest →
      readValue (fuel + 1) depth shape (j.print ++ rest) = some (j, rest)
  | .null, _, _, _, _, _, _, _, _ => rfl
  | .bool true, _, _, _, _, _, _, _, _ => rfl
  | .bool false, _, _, _, _, _, _, _, _ => rfl
  | .number (.integer _), _, _, _, _, word, _, _, ends => readValue_toString word ends
  | .number (.double _), _, _, _, _, fits, _, _, _ => fits.elim
  | .string s, _, _, _, _, _, _, _, _ => readValue_quote s
  | .array _, _, _, 0, _, _, shallow, _, _ => absurd shallow (Nat.not_succ_le_zero _)
  | .array [], _, _, _ + 1, _, _, _, _, _ => rfl
  | .array (item :: items), shape, fuel, depth + 1, rest, fits, shallow, enough, _ => by
    simp only [print, List.length_append, List.length_cons, List.length_nil] at enough
    have positive := length_print_pos fits.1
    obtain ⟨c, cs, form, solid, opened⟩ := exists_join_printItems_eq_cons fits.1 items
    have nonempty := congrArg List.length form
    rw [List.length_cons] at nonempty
    obtain ⟨fuel, rfl⟩ : ∃ n, fuel = n + 2 := ⟨fuel - 2, by omega⟩
    have room : 2 * (Text.join [','] (printItems (item :: items))).length ≤ fuel + 2 := by omega
    have inner := readItems_print (item :: items) (by simp) fits (Nat.le_of_succ_le_succ shallow)
      room rest
    rw [form] at inner
    rw [print, form]
    simp only [List.cons_append, List.append_assoc, List.nil_append] at inner ⊢
    rw [readValue_array solid opened, inner, Option.map_some]
  | .object _, _, _, 0, _, _, shallow, _, _ => absurd shallow (Nat.not_succ_le_zero _)
  | .object [], _, _, _ + 1, _, _, _, _, _ => rfl
  | .object ((key, value) :: members), shape, fuel, depth + 1, rest, fits, shallow, enough, _ => by
    simp only [print, List.length_append, List.length_cons, List.length_nil] at enough
    obtain ⟨cs, form⟩ := exists_join_printMembers_eq_cons key value members
    have nonempty := congrArg List.length form
    rw [List.length_cons] at nonempty
    obtain ⟨fuel, rfl⟩ : ∃ n, fuel = n + 2 := ⟨fuel - 2, by omega⟩
    have room : 2 * (Text.join [','] (printMembers ((key, value) :: members))).length ≤
        fuel + 2 := by omega
    have inner := readMembers_print ((key, value) :: members) (by simp) fits
      (Nat.le_of_succ_le_succ shallow) room rest
    rw [form] at inner
    rw [print, form]
    simp only [List.cons_append, List.append_assoc, List.nil_append] at inner ⊢
    rw [readValue_object, inner, Option.map_some]

/-- Items are read back from their texts, given enough fuel. -/
theorem readItems_print : (items : List Json) → {shape : Shape} → {fuel depth : Nat} →
    items ≠ [] → FitsItems shape items → depthItems items ≤ depth →
      2 * (Text.join [','] (printItems items)).length ≤ fuel + 2 → (rest : List Char) →
        readItems (fuel + 2) depth shape (Text.join [','] (printItems items) ++ ']' :: rest) =
          some (items, rest)
  | [], _, _, _, nonempty, _, _, _, _ => absurd rfl nonempty
  | [item], shape, fuel, depth, _, fits, shallow, enough, rest => by
    have shallow : item.depth ≤ depth := le_trans (le_max_left _ _) shallow
    have ends : EndsNumber (']' :: rest) := endsNumber_cons _ (by simp)
    exact readItems_of_last (readValue_print item fits.1 shallow enough ends)
  | item :: next :: items, shape, fuel, depth, _, fits, shallow, enough, rest => by
    obtain ⟨here, below⟩ := max_le_iff.mp shallow
    have positive := length_print_pos fits.1
    simp only [printItems, join_cons, List.length_append, List.length_cons] at enough
    obtain ⟨fuel, rfl⟩ : ∃ n, fuel = n + 1 := ⟨fuel - 1, by omega⟩
    have others : 2 * (Text.join [','] (printItems (next :: items))).length ≤ fuel + 2 := by
      rw [printItems]
      omega
    rw [printItems, printItems, join_cons, List.append_assoc]
    exact readItems_of_next
      (readValue_print item fits.1 here (by omega) (endsNumber_cons _ (by simp)))
      (readItems_print (next :: items) (by simp) fits.2 below others rest)

/-- Members are read back from their texts, given enough fuel. -/
theorem readMembers_print : (members : List (String × Json)) → {shape : Shape} →
    {fuel depth : Nat} → members ≠ [] → FitsMembers shape members →
      depthMembers members ≤ depth →
        2 * (Text.join [','] (printMembers members)).length ≤ fuel + 2 → (rest : List Char) →
          readMembers (fuel + 2) depth shape
              (Text.join [','] (printMembers members) ++ '\x7d' :: rest) = some (members, rest)
  | [], _, _, _, nonempty, _, _, _, _ => absurd rfl nonempty
  | [(key, value)], shape, fuel, depth, _, fits, shallow, enough, rest => by
    obtain ⟨⟨part, asked, fits⟩, -⟩ := fits
    have here : value.depth ≤ depth := le_trans (le_max_left _ _) shallow
    simp only [printMembers, Text.join, List.length_append, List.length_cons] at enough
    rw [printMembers, printMembers, Text.join, List.append_assoc, List.cons_append]
    exact readMembers_of_last asked
      (readValue_print value fits here (by omega) (endsNumber_cons _ (by simp)))
  | (key, value) :: (key', value') :: members, shape, fuel, depth, _, fits, shallow, enough,
      rest => by
    obtain ⟨⟨part, asked, fits⟩, fitsBelow⟩ := fits
    obtain ⟨here, below⟩ := max_le_iff.mp shallow
    have positive := length_print_pos fits
    simp only [printMembers, join_cons, List.length_append, List.length_cons] at enough
    obtain ⟨fuel, rfl⟩ : ∃ n, fuel = n + 1 := ⟨fuel - 1, by omega⟩
    have others :
        2 * (Text.join [','] (printMembers ((key', value') :: members))).length ≤ fuel + 2 := by
      rw [printMembers]
      omega
    rw [printMembers, printMembers, join_cons, List.append_assoc, List.append_assoc,
      List.cons_append]
    exact readMembers_of_next asked
      (readValue_print value fits here (by omega) (endsNumber_cons _ (by simp)))
      (readMembers_print ((key', value') :: members) (by simp) fitsBelow below others rest)

end

/-- A value is read back from its text for a shape that asks for everything in it. -/
theorem parseFor?_text {j : Json} (fits : j.Fits shape) (shallow : j.depth ≤ maxDepth) :
    parseFor? shape j.text = some j := by
  have read := readValue_print j fits shallow
    (by omega : 2 * j.print.length ≤ (2 * j.print.length + 1) + 2)
    endsNumber_nil
  rw [List.append_nil] at read
  simp only [parseFor?, text, String.toList_ofList, read]
  rfl

/-! ## Numbers -/

/-- The text of a number holds that number, unless it is too large. -/
theorem parse?_of_isNumber {text : String} {lexeme : Lexeme} (h : lexeme.IsNumber text.toList) :
    parse? text = lexeme.toNumber?.map .number := by
  have scanned := Lexeme.scan_append h endsNumber_nil
  obtain ⟨c, cs, form, start⟩ := h.exists_cons
  rw [List.append_nil, form] at scanned
  simp only [parse?, parseFor?, form, readValue_of_number start, scanned, Option.bind_eq_bind,
    Option.bind_some]
  cases lexeme.toNumber? <;> rfl

end ContractCalls.Json

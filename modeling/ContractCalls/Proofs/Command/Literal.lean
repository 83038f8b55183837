import ContractCalls.Command.Run
import ContractCalls.Proofs.Json.Reading
import ContractCalls.Proofs.Literal.Leaf
import ContractCalls.Proofs.Ty.Spelling

/-!
# Hexadecimal forms as literals of options

A literal of an option that is no JSON text stands for itself, so a hexadecimal form needs no quotes
around it, unless it happens to be a JSON text. It then is a number: digits without a leading zero,
with or without an exponent (`Json.parse?_eq_some_iff_of_isHex`). Bytes with such a form are refused
without quotes, all others are read from their form, and quotes are never wrong
(`Command.readArgument_encode_iff`).
-/

namespace ContractCalls

/-- A word that is skipped stands in front of what is left. -/
lemma Text.eq_append_of_skipWord {word cs rest : List Char} (e : skipWord word cs = some rest) :
    cs = word ++ rest := by
  induction word generalizing cs with
  | nil => exact Option.some.inj e
  | cons w word ih =>
    cases cs with
    | nil => cases e
    | cons c cs =>
      rw [skipWord] at e
      split_ifs at e with same
      rw [← same, ih e, List.cons_append]

/-- A text is split at the first mark. -/
lemma Text.splitFirst_append {mark : Char} {before : List Char} (first : mark ∉ before)
    (behind : List Char) : splitFirst mark (before ++ mark :: behind) = some (before, behind) := by
  induction before with
  | nil => simp [splitFirst]
  | cons c before ih =>
    have other : c ≠ mark := (List.ne_of_not_mem_cons first).symm
    rw [List.cons_append, splitFirst, if_neg other, ih (List.not_mem_of_not_mem_cons first),
      Option.map_some]

/-! ## Texts of hexadecimal digits -/

namespace Json

variable {c : Char} {cs : List Char} {fuel depth : Nat} {shape : Shape} {text : String} {j : Json}
  {lexeme : Lexeme}

/-- A text of lower-case hexadecimal digits. -/
def IsHex (cs : List Char) : Prop :=
  ∀ c ∈ cs, ∃ n < 16, c = Text.hexDigit n

/-- A text is that of a number that is not too large. -/
def HoldsNumber (text : String) (n : Number) : Prop :=
  ∃ lexeme : Lexeme, lexeme.IsNumber text.toList ∧ lexeme.toNumber? = some n

/-- The hexadecimal form of bytes has lower-case digits only. -/
lemma isHex_encode (bs : Bytes) : IsHex (Hex.encode bs).toList :=
  fun _ => Hex.exists_hexDigit_of_mem_encode

/-- No hexadecimal digit is a space. -/
lemma hexDigit_solid :
    ∀ n < 16, isSpace (Text.hexDigit n) = false ∧ Text.isBlank (Text.hexDigit n) = false := by
  decide

/-- The signs of JSON texts that are no hexadecimal digits. -/
lemma hexDigit_notMem : ∀ n < 16,
    Text.hexDigit n ∉ ['"', '[', '\x7b', 'n', 't', 'l', '-', '+', '.', 'E'] := by
  decide

/-- No hexadecimal digits hold a sign of JSON texts that is none. -/
lemma IsHex.notMem (hex : IsHex cs) (h : c ∈ cs) :
    c ∉ ['"', '[', '\x7b', 'n', 't', 'l', '-', '+', '.', 'E'] := by
  obtain ⟨n, small, rfl⟩ := hex c h
  exact hexDigit_notMem n small

/-- There is no space to skip in front of hexadecimal digits. -/
lemma IsHex.skipSpace (hex : IsHex cs) : skipSpace cs = cs := by
  cases cs with
  | nil => rfl
  | cons c cs =>
    obtain ⟨n, small, rfl⟩ := hex c (by simp)
    exact skipSpace_cons (hexDigit_solid n small).1 cs

/-- There is no blank space around hexadecimal digits. -/
lemma IsHex.trim (hex : IsHex cs) : Text.trim cs = cs := by
  have solid (c : Char) (h : c ∈ cs) : ¬Text.isBlank c := by
    obtain ⟨n, small, rfl⟩ := hex c h
    simp [(hexDigit_solid n small).2]
  exact Text.trim_of_not_isBlank solid

/-- Hexadecimal digits do not start with the word `false`. -/
lemma IsHex.skipWord (hex : IsHex cs) : Text.skipWord ['a', 'l', 's', 'e'] cs = none := by
  rw [Option.eq_none_iff_forall_ne_some]
  intro rest e
  have word := Text.eq_append_of_skipWord e
  exact absurd (by simp) (hex.notMem (c := 'l') (by simp [word]))

/-- Only a number can be read at the start of hexadecimal digits. -/
lemma readValue_of_isHex (hex : IsHex cs) :
    readValue (fuel + 1) depth shape cs = (do
      let (lexeme, rest) ← Lexeme.scan cs
      let number ← lexeme.toNumber?
      return (.number number, rest)) := by
  rw [readValue, hex.skipSpace]
  split
  case h_6 rest =>
    -- The word `false` starts with a digit, but goes on with a letter that is none.
    have behind : IsHex rest := fun c h => hex c (List.mem_cons_of_mem _ h)
    rw [behind.skipWord]
    rfl
  case h_7 => rfl
  all_goals exact absurd (by simp) (hex.notMem (List.mem_cons_self ..))

/-- Hexadecimal digits are a JSON text exactly if they are a number that is not too large. -/
theorem parse?_eq_some_iff_of_isHex (hex : IsHex text.toList) :
    parse? text = some j ↔ ∃ n, HoldsNumber text n ∧ j = .number n := by
  refine ⟨fun read => ?_, ?_⟩
  · simp only [parse?, parseFor?, readValue_of_isHex hex] at read
    cases scanned : Lexeme.scan text.toList with
    | none => simp [scanned] at read
    | some result =>
      obtain ⟨lexeme, rest⟩ := result
      obtain ⟨front, written, split⟩ := Lexeme.exists_isNumber_of_scan scanned
      have solid : IsHex rest := fun c h => hex c (by simp [split, h])
      cases value : lexeme.toNumber? with
      | none => simp [scanned, value] at read
      | some n =>
        simp [scanned, value, solid.skipSpace] at read
        obtain ⟨rfl, rfl⟩ := read
        rw [List.append_nil] at split
        exact ⟨n, ⟨lexeme, split ▸ written, value⟩, rfl⟩
  · rintro ⟨n, ⟨lexeme, written, value⟩, rfl⟩
    rw [parse?_of_isNumber written, value, Option.map_some]

/-- A number of hexadecimal digits has no sign, no point and an exponent without a sign. -/
lemma Lexeme.IsNumber.cases_of_isHex (written : lexeme.IsNumber cs) (hex : IsHex cs) :
    ∃ ws, IsWhole lexeme.whole ws ∧
      (cs = ws ∨ ∃ ds es, IsDigits ds es ∧ cs = ws ++ 'e' :: es) := by
  cases written with
  | minus _ => exact absurd (by simp) (hex.notMem (List.mem_cons_self ..))
  | @unsigned _ _ _ ws fs es whole fraction exponent =>
    refine ⟨ws, whole, ?_⟩
    cases fraction with
    | point _ => exact absurd (by simp) (hex.notMem (c := '.') (by simp))
    | absent =>
      cases exponent with
      | absent => exact .inl (by simp)
      | plus _ _ => exact absurd (by simp) (hex.notMem (c := '+') (by simp))
      | minus _ _ => exact absurd (by simp) (hex.notMem (c := '-') (by simp))
      | unsigned mark digits =>
        rcases mark with rfl | rfl
        · exact .inr ⟨_, _, digits, by simp⟩
        · exact absurd (by simp) (hex.notMem (c := 'E') (by simp))

/-- A text of a number is taken as the number. -/
lemma HoldsNumber.ofLiteral {n : Number} (h : HoldsNumber text n) :
    ofLiteral text = .number n := by
  obtain ⟨lexeme, written, value⟩ := h
  rw [Json.ofLiteral, parse?_of_isNumber written, value]
  rfl

/-- Hexadecimal digits that are no number are taken as a text. -/
lemma ofLiteral_of_isHex (hex : IsHex text.toList) (other : ¬∃ n, HoldsNumber text n) :
    ofLiteral text = .string text := by
  have unread : parse? text = none := by
    rw [Option.eq_none_iff_forall_ne_some]
    intro j read
    obtain ⟨n, holds, -⟩ := (parse?_eq_some_iff_of_isHex hex).mp read
    exact other ⟨n, holds⟩
  rw [ofLiteral, unread]

/-- Between quotes, a text stands for itself. -/
lemma ofLiteral_text_string (s : String) : ofLiteral (Json.string s).text = .string s := by
  have read : parse? (Json.string s).text = some (.string s) :=
    parseFor?_text trivial (Nat.zero_le _)
  rw [ofLiteral, read]
  rfl

end Json

/-! ## Hexadecimal forms without quotes -/

namespace Value

variable {text : String}

/-- A text of the hexadecimal form of bytes is read as the bytes. -/
lemma ofJson_bytes_string_encode (bs : Bytes) :
    ofJson (.primitive .bytes) (.string (Hex.encode bs)) = .ok (.bytes bs) := by
  rw [ofJson, ofJsonPrimitive, readHex_encode]
  rfl

/-- A text that is a number is refused, even if all of its characters are hexadecimal digits. -/
lemma ofJson_bytes_of_holdsNumber {n : Json.Number} (h : Json.HoldsNumber text n) :
    ofJson (.primitive .bytes) (.ofLiteral text) =
      .error (.invalid "bytes (hex)" (Json.number n).text) := by
  rw [h.ofLiteral]
  rfl

/-- The hexadecimal form of bytes is read as the bytes exactly if it is not the text of a number. -/
lemma ofJson_bytes_encode_iff (bs : Bytes) :
    ofJson (.primitive .bytes) (.ofLiteral (Hex.encode bs)) = .ok (.bytes bs) ↔
      ¬∃ n, Json.HoldsNumber (Hex.encode bs) n := by
  refine ⟨?_, fun other => ?_⟩
  · rintro read ⟨n, h⟩
    cases read.symm.trans (ofJson_bytes_of_holdsNumber h)
  · rw [Json.ofLiteral_of_isHex (Json.isHex_encode bs) other, ofJson_bytes_string_encode]

end Value

/-! ## Options -/

namespace Command

open Json

variable {text : String}

/-- No name of a primitive type holds the sign between a type and a value. -/
lemma notMem_name (p : Primitive) : '=' ∉ p.name.toList := by
  rcases p with ⟨⟨_ | _⟩, _ | _ | _ | _⟩ | _ | _ | _ | _ | _ | _ | _ | _ <;>
    simp [Primitive.name]

/-- The value of an argument of a primitive type is that of its literal. -/
lemma readArgument_append (table : Ty.Table) (index : Nat) (p : Primitive)
    (trimmed : Text.trim text.toList = text.toList) :
    readArgument table index (p.name ++ "=" ++ text) =
      orReport (fun e => .around ("Invalid argument " ++ toString index) (literalReport e))
        (Value.ofJson (.primitive p) (.ofLiteral text)) := by
  have name : Text.trim p.name.toList = p.name.toList := p.isName_name.trimmed.trim_eq
  have form : (p.name ++ "=" ++ text).toList = p.name.toList ++ '=' :: text.toList := by simp
  have split : splitArgument (p.name ++ "=" ++ text) = .ok (p.name, .ofLiteral text) := by
    simp only [splitArgument, form, Text.splitFirst_append (notMem_name p), name, trimmed,
      String.ofList_toList]
  simp only [readArgument, split, ok_bind, Ty.parse_primitive_name]
  rfl

/-- A literal that is read as bytes is encoded as these at the top level. -/
lemma encodeLiteral_of_ofJson_eq_ok {bs : Bytes} (settings : Settings)
    (read : Value.ofJson (.primitive .bytes) (.ofLiteral text) = .ok (.bytes bs)) :
    encodeLiteral settings (.primitive .bytes) text .top =
      .ok (.success (if settings.isJson then
          jsonLines (Json.ofMembers [("type", .string "bytes"), ("hex", .string (Hex.encode bs))])
        else Hex.encode bs ++ "\n")) := by
  have name : (Ty.primitive .bytes).display = "bytes" := String.ofList_toList
  rw [encodeLiteral, read, ← name]
  rfl

/-- An argument of bytes in hexadecimal form is read as the bytes exactly if the form is not the
text of a number. -/
lemma readArgument_bytes_iff (table : Ty.Table) (index : Nat) (bs : Bytes) :
    readArgument table index ("bytes=" ++ Hex.encode bs) = .ok (.bytes bs) ↔
      ¬∃ n, HoldsNumber (Hex.encode bs) n := by
  have argument := readArgument_append table index .bytes (isHex_encode bs).trim
  rw [show "bytes=" ++ Hex.encode bs = Primitive.bytes.name ++ "=" ++ Hex.encode bs from rfl,
    argument, orReport, mapError_eq_ok_iff, Value.ofJson_bytes_encode_iff]

/-- The arguments of a call are all read from their hexadecimal forms if none of these is a number. -/
theorem readArguments_bytes_iff (table : Ty.Table) (index : Nat) (items : List Bytes) :
    readArguments table index (items.map fun bs => "bytes=" ++ Hex.encode bs) =
      .ok (items.map .bytes) ↔ ∀ bs ∈ items, ¬∃ n, HoldsNumber (Hex.encode bs) n := by
  induction items generalizing index with
  | nil => simp [readArguments]
  | cons bs items ih =>
    rw [List.forall_mem_cons, ← ih (index + 1), ← readArgument_bytes_iff table index]
    simp only [List.map_cons, readArguments, bind_eq_ok_iff, pure_eq_ok_iff]
    refine ⟨?_, ?_⟩
    · rintro ⟨v, first, vs, others, same⟩
      obtain ⟨rfl, rfl⟩ := List.cons.inj same
      exact ⟨first, others⟩
    · rintro ⟨first, others⟩
      exact ⟨_, first, _, others, rfl⟩

/-- Bytes are read from their hexadecimal form without quotes, unless the form is a number. Numbers
are refused. Between quotes every form is read. -/
theorem readArgument_encode_iff (bs : Bytes) :
    let text := Hex.encode bs
    let read := Value.ofJson (.primitive .bytes) (.ofLiteral text)
    (read = .ok (.bytes bs) ↔ ¬∃ n, HoldsNumber text n) ∧
    (∀ n, HoldsNumber text n → read = .error (.invalid "bytes (hex)" (Json.number n).text)) ∧
    (∀ n, HoldsNumber text n → ∃ whole ws, Lexeme.IsWhole whole ws ∧
      (text.toList = ws ∨ ∃ ds es, Lexeme.IsDigits ds es ∧ text.toList = ws ++ 'e' :: es)) ∧
    (∀ table index, readArgument table index ("bytes=" ++ text) = .ok (.bytes bs) ↔
      ¬∃ n, HoldsNumber text n) ∧
    (∀ settings, encodeLiteral settings (.primitive .bytes) text .top =
      .ok (.success (if settings.isJson then
          jsonLines (Json.ofMembers [("type", .string "bytes"), ("hex", .string text)])
        else text ++ "\n")) ↔ ¬∃ n, HoldsNumber text n) ∧
    Value.ofJson (.primitive .bytes) (.ofLiteral (Json.string text).text) = .ok (.bytes bs) := by
  intro text read
  have accepted : read = .ok (.bytes bs) ↔ ¬∃ n, HoldsNumber text n :=
    Value.ofJson_bytes_encode_iff bs
  refine ⟨accepted, fun n h => Value.ofJson_bytes_of_holdsNumber h, ?_,
    fun table index => readArgument_bytes_iff table index bs, fun settings => ?_, ?_⟩
  · rintro n ⟨lexeme, written, -⟩
    exact ⟨_, written.cases_of_isHex (isHex_encode bs)⟩
  · refine ⟨?_, fun other => encodeLiteral_of_ofJson_eq_ok settings (accepted.mpr other)⟩
    rintro answer ⟨n, h⟩
    simp only [encodeLiteral, Value.ofJson_bytes_of_holdsNumber h] at answer
    cases answer
  · rw [ofLiteral_text_string]
    exact Value.ofJson_bytes_string_encode bs

/-- The byte 26 is read from its form `1a`, the byte 18 is not read from its form `12`. -/
theorem readArgument_encode_iff_letter :
    readArgument [] 0 "bytes=1a" = .ok (.bytes [26]) ∧ HoldsNumber "12" (.integer 12) ∧
      Value.ofJson (.primitive .bytes) (.ofLiteral "12") =
        .error (.invalid "bytes (hex)" "12") := by
  obtain ⟨accepted, -, -, argument, -⟩ := readArgument_encode_iff [26]
  obtain ⟨-, refused, -⟩ := readArgument_encode_iff [18]
  have read : Value.ofJson (.primitive .bytes) (.ofLiteral (Hex.encode [26])) =
      .ok (.bytes [26]) := by cbv
  have digits : Lexeme.IsDigits [1, 2] ['1', '2'] := ⟨by simp, rfl, by simp⟩
  have holds : HoldsNumber "12" (.integer 12) :=
    ⟨⟨false, [1, 2], [], none⟩, .unsigned (.digits one_ne_zero digits) .absent .absent, rfl⟩
  exact ⟨(argument [] 0).mpr (accepted.mp read), holds, refused _ holds⟩

/-- The byte 18 is not read from its hexadecimal form without quotes. -/
theorem not_readArgument_encode :
    Hex.encode [18] = "12" ∧
    Value.ofJson (.primitive .bytes) (.ofLiteral "12") = .error (.invalid "bytes (hex)" "12") ∧
    readArgument [] 0 "bytes=12" =
      .error ⟨"Invalid argument 0", ["expected bytes (hex), got 12"]⟩ ∧
    encodeLiteral .default (.primitive .bytes) "12" .top =
      .error ⟨"expected bytes (hex), got 12", []⟩ := by
  refine ⟨by cbv, by cbv, by cbv, by cbv⟩

end Command

end ContractCalls

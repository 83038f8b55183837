import ContractCalls.Proofs.Call.Payload

/-!
# Call data part by part

What a text is read as, and what it is refused for, is told by its parts between separators. The
name is what stands before the first separator (`namePart`), the arguments are the parts behind it
(`argumentParts`). A text is call data exactly if it has a name and all its arguments are
hexadecimal forms; it is then rendered again but for the case of the digits. The first argument that
is no form is the fault.
-/

namespace ContractCalls

namespace Text

/-- The first part is what stands before the first mark. -/
lemma splitOn_eq_takeWhile_cons (mark : Char) (cs : List Char) :
    cs.splitOn mark = cs.takeWhile (· ≠ mark) :: (cs.splitOn mark).tail := by
  induction cs with
  | nil => rfl
  | cons c cs ih =>
    rw [List.splitOn_cons_eq_if_modifyHead, List.takeWhile_cons]
    by_cases same : c = mark
    · simp [same]
    · simp only [beq_iff_eq, same, ne_eq, not_false_eq_true, decide_true, if_true, if_false]
      rw [ih]
      rfl

/-- The other parts, with a mark before each, are what stands behind. -/
lemma flatMap_tail_splitOn (mark : Char) (cs : List Char) :
    (cs.splitOn mark).tail.flatMap (mark :: ·) = cs.dropWhile (· ≠ mark) := by
  induction cs with
  | nil => rfl
  | cons c cs ih =>
    rw [List.splitOn_cons_eq_if_modifyHead, List.dropWhile_cons]
    by_cases same : c = mark
    · simp only [same, beq_self_eq_true, if_true, List.tail_cons]
      rw [splitOn_eq_takeWhile_cons, List.flatMap_cons, ih, List.cons_append,
        List.takeWhile_append_dropWhile]
      simp
    · simp [same, List.tail_modifyHead, ih]

end Text

namespace Payload

variable {p : Payload} {s : String} {index i : Nat} {parts : List (List Char)}
  {arguments : List Bytes}

/-- What stands before the first separator. -/
def namePart (s : String) : List Char :=
  s.toList.takeWhile (· ≠ separator)

/-- The parts behind the first separator. -/
def argumentParts (s : String) : List (List Char) :=
  (s.toList.splitOn separator).tail

/-- Call data splits into the name and the arguments. -/
lemma splitAt_eq_cons (s : String) :
    Text.splitAt separator s.toList = namePart s :: argumentParts s := by
  rw [Text.splitAt_eq_splitOn, Text.splitOn_eq_takeWhile_cons]
  rfl

/-- The arguments, each behind a separator, are what stands behind the name. -/
lemma flatMap_argumentParts (s : String) :
    (argumentParts s).flatMap (separator :: ·) = s.toList.dropWhile (· ≠ separator) :=
  Text.flatMap_tail_splitOn separator s.toList

/-! ## Arguments -/

/-- Arguments are read exactly if each part is decoded to its argument. -/
lemma readArguments_eq_ok_iff : readArguments index parts = .ok arguments ↔
    List.Forall₂ (fun part bs => Hex.decode (String.ofList part) = .ok bs) parts arguments := by
  induction parts generalizing index arguments with
  | nil => simp [readArguments, eq_comm]
  | cons part parts ih =>
    simp only [readArguments, bind_eq_ok_iff, mapError_eq_ok_iff, ih, pure_eq_ok_iff,
      List.forall₂_cons_left_iff]
    refine ⟨fun h => ?_, fun h => ?_⟩
    · obtain ⟨argument, first, others, behind, rfl⟩ := h
      exact ⟨argument, others, first, behind, rfl⟩
    · obtain ⟨argument, others, first, behind, rfl⟩ := h
      exact ⟨argument, first, others, behind, rfl⟩

/-- Hexadecimal forms are read. -/
lemma exists_readArguments (forms : ∀ part ∈ parts, Hex.IsForm part) (index : Nat) :
    ∃ arguments, readArguments index parts = .ok arguments := by
  induction parts generalizing index with
  | nil => exact ⟨[], rfl⟩
  | cons part parts ih =>
    obtain ⟨form, forms⟩ := List.forall_mem_cons.mp forms
    obtain ⟨argument, first, -⟩ := form.exists_decode
    obtain ⟨others, behind⟩ := ih forms (index + 1)
    exact ⟨argument :: others, by rw [readArguments, first, behind]; rfl⟩

/-- What is read are hexadecimal forms. They are written again in lower case. -/
lemma forms_of_readArguments (e : readArguments index parts = .ok arguments) :
    (∀ part ∈ parts, Hex.IsForm part) ∧
      (arguments.flatMap fun bs => separator :: (Hex.encode bs).toList) =
        (parts.flatMap (separator :: ·)).map Char.toLower := by
  rw [readArguments_eq_ok_iff] at e
  induction e with
  | nil => simp
  | cons first _ ih =>
    obtain ⟨form, written⟩ := Hex.decode_eq_ok_iff.mp first
    refine ⟨List.forall_mem_cons.mpr ⟨form, ih.1⟩, ?_⟩
    rw [List.flatMap_cons, List.flatMap_cons, List.map_append, written, ih.2]
    rfl

/-- The first part that is no hexadecimal form is the fault. -/
lemma readArguments_eq_error (h : parts.findIdx? (¬Hex.IsForm ·) = some i) (index : Nat) :
    ∃ part fault, parts[i]? = some part ∧ Hex.decode (String.ofList part) = .error fault ∧
      readArguments index parts = .error (.invalidHex (index + i) fault) := by
  induction parts generalizing index i with
  | nil => simp at h
  | cons part parts ih =>
    rw [List.findIdx?_cons] at h
    rw [readArguments]
    cases first : Hex.decode (String.ofList part) with
    | ok argument =>
      have form := Hex.isForm_of_decode first
      simp only [form, not_true, decide_false, Bool.false_eq_true, if_false,
        Option.map_eq_some_iff] at h
      obtain ⟨j, later, rfl⟩ := h
      obtain ⟨bad, fault, there, refused, failed⟩ := ih later (index + 1)
      refine ⟨bad, fault, there, refused, ?_⟩
      rw [failed, Nat.add_right_comm, Nat.add_assoc]
      rfl
    | error fault =>
      have bad : ¬Hex.IsForm part := fun form => by
        obtain ⟨bs, read, -⟩ := form.exists_decode
        cases first.symm.trans read
      simp only [bad, not_false_eq_true, decide_true, if_true, Option.some.injEq] at h
      obtain rfl := h
      exact ⟨part, fault, rfl, first, rfl⟩

/-! ## Texts -/

/-- Call data with an empty name is refused for that. -/
lemma parse_eq_missingFunction (unnamed : namePart s = []) : parse s = .error .missingFunction := by
  rw [parse, splitAt_eq_cons, unnamed]

/-- Call data with a name is read by reading its arguments. -/
lemma parse_eq_readArguments (named : namePart s ≠ []) :
    parse s = (⟨String.ofList (namePart s), ·⟩) <$> readArguments 0 (argumentParts s) := by
  rw [parse, splitAt_eq_cons]
  cases name : namePart s with
  | nil => exact absurd name named
  | cons c cs =>
    dsimp only
    cases readArguments 0 (argumentParts s) <;> rfl

/-- Call data that is read has a name. -/
lemma named_of_parse (e : parse s = .ok p) : namePart s ≠ [] := by
  intro unnamed
  cases e.symm.trans (parse_eq_missingFunction unnamed)

/-- Call data is what is rendered of a call, but for the case of the digits. -/
lemma render_of_parse (e : parse s = .ok p) :
    p.render.toList = namePart s ++ (s.toList.dropWhile (· ≠ separator)).map Char.toLower := by
  rw [parse_eq_readArguments (named_of_parse e)] at e
  obtain ⟨arguments, read, rfl⟩ := map_eq_ok_iff.mp e
  obtain ⟨-, written⟩ := forms_of_readArguments read
  rw [render, String.toList_ofList, String.toList_ofList, written, flatMap_argumentParts]

/-- Call data is the name of a function, which is not empty, and arguments in hexadecimal form of
either case, with a separator before each. A call of a function with a name is rendered as a text
that is read as the call, and a text that is read as a call is rendered again but for the case
behind the name. A text without a name is refused for that, and any other for the first part that
is no hexadecimal form. -/
theorem parse_render_parts :
    (∀ p : Payload, IsFunctionName p.function → parse p.render = .ok p) ∧
    ∀ s : String,
      ((∃ p, parse s = .ok p) ↔
        namePart s ≠ [] ∧ ∀ part ∈ argumentParts s, Hex.IsForm part) ∧
      (∀ p, parse s = .ok p → p.render.toList =
        namePart s ++ (s.toList.dropWhile (· ≠ separator)).map Char.toLower) ∧
      (namePart s = [] → parse s = .error .missingFunction) ∧
      (∀ i, namePart s ≠ [] → (argumentParts s).findIdx? (¬Hex.IsForm ·) = some i →
        ∃ part fault, (argumentParts s)[i]? = some part ∧
          Hex.decode (String.ofList part) = .error fault ∧
            parse s = .error (.invalidHex i fault)) := by
  refine ⟨fun p named => parse_render_eq_ok_iff.mpr named, fun s => ⟨⟨fun h => ?_, fun h => ?_⟩,
    fun p e => render_of_parse e, parse_eq_missingFunction, fun i named bad => ?_⟩⟩
  · obtain ⟨p, e⟩ := h
    have named := named_of_parse e
    rw [parse_eq_readArguments named] at e
    obtain ⟨arguments, read, -⟩ := map_eq_ok_iff.mp e
    exact ⟨named, (forms_of_readArguments read).1⟩
  · obtain ⟨named, forms⟩ := h
    obtain ⟨arguments, read⟩ := exists_readArguments forms 0
    exact ⟨_, by rw [parse_eq_readArguments named, read]; rfl⟩
  · obtain ⟨part, fault, there, refused, failed⟩ := readArguments_eq_error bad 0
    rw [Nat.zero_add] at failed
    exact ⟨part, fault, there, refused, by rw [parse_eq_readArguments named, failed]; rfl⟩

/-- Call data with a capital digit, and a text whose third part has too few digits. -/
theorem parse_render_parts_digits :
    parse (render ⟨"f", [[10]]⟩) = .ok ⟨"f", [[10]]⟩ ∧
    (∃ p, parse "f@0A" = .ok p ∧ p.render.toList = "f@0a".toList) ∧
    parse "@00" = .error .missingFunction ∧
    ∃ fault, parse "f@00@0@zz" = .error (.invalidHex 1 fault) := by
  obtain ⟨back, texts⟩ := parse_render_parts
  have form : ∀ part ∈ argumentParts "f@0A", Hex.IsForm part := by
    have parts : argumentParts "f@0A" = [['0', 'A']] := rfl
    simp [parts, Hex.IsForm, Hex.digits]
  have bad : (argumentParts "f@00@0@zz").findIdx? (¬Hex.IsForm ·) = some 1 := by
    have parts : argumentParts "f@00@0@zz" = [['0', '0'], ['0'], ['z', 'z']] := rfl
    simp [parts, List.findIdx?_cons, Hex.IsForm, Hex.digits]
  refine ⟨back _ ⟨by decide, by decide⟩, ?_, (texts "@00").2.2.1 (by decide), ?_⟩
  · obtain ⟨read, again, -⟩ := texts "f@0A"
    obtain ⟨p, e⟩ := read.mpr ⟨by decide, form⟩
    exact ⟨p, e, again p e⟩
  · obtain ⟨part, fault, -, -, failed⟩ := (texts "f@00@0@zz").2.2.2 1 (by decide) bad
    exact ⟨fault, failed⟩

end Payload

end ContractCalls

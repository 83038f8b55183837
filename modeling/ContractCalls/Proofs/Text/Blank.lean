import Mathlib
import ContractCalls.Text.Blank

/-!
# Blank space at the ends of a text

What is left when a text is trimmed is its part without blank ends (`Text.trim_eq_iff`), and a text
is divided in one way only into blank space and a rest that starts with none
(`Text.IsBlankText.append_inj`).
-/

namespace ContractCalls.Text

/-- A text of blank characters alone. -/
def IsBlankText (cs : List Char) : Prop :=
  ∀ c ∈ cs, isBlank c

/-- A text that neither starts nor ends with a blank character. -/
structure IsTrimmed (cs : List Char) : Prop where
  start : ∀ c ∈ cs.head?, ¬isBlank c
  stop : ∀ c ∈ cs.getLast?, ¬isBlank c

variable {before cs name after rest : List Char} {c d : Char}

/-- No blank space is blank space. -/
lemma isBlankText_nil : IsBlankText [] := by
  simp [IsBlankText]

/-- A text without blank characters has no blank ends. -/
lemma isTrimmed_of_not_isBlank (solid : ∀ c ∈ cs, ¬isBlank c) : IsTrimmed cs :=
  ⟨fun c h => solid c (List.mem_of_mem_head? h), fun c h => solid c (List.mem_of_getLast? h)⟩

/-! ## The start -/

/-- Blank space in front is trimmed. -/
lemma trimStart_append (blank : IsBlankText before) : trimStart (before ++ cs) = trimStart cs :=
  List.dropWhile_append_of_pos blank

/-- A character that is not blank is not trimmed. -/
lemma trimStart_cons (solid : ¬isBlank c) : trimStart (c :: cs) = c :: cs :=
  List.dropWhile_cons_of_neg solid

/-- Nothing is left exactly of blank space. -/
lemma trimStart_eq_nil_iff : trimStart cs = [] ↔ IsBlankText cs :=
  List.dropWhile_eq_nil_iff

/-- A text that does not start with blank space is left as it is. -/
lemma trimStart_of_start (start : ∀ c ∈ cs.head?, ¬isBlank c) : trimStart cs = cs := by
  cases cs with
  | nil => rfl
  | cons c cs => exact trimStart_cons (start c rfl)

/-- What is left does not start with blank space. -/
lemma start_of_trimStart (cs : List Char) : ∀ c ∈ (trimStart cs).head?, ¬isBlank c := by
  intro c h
  have stopped := List.head?_dropWhile_not isBlank cs
  rw [show (cs.dropWhile isBlank).head? = some c from h] at stopped
  simpa using stopped

/-- The blank space in front of what is left. -/
lemma exists_eq_append_trimStart (cs : List Char) :
    ∃ before, IsBlankText before ∧ cs = before ++ trimStart cs :=
  ⟨cs.takeWhile isBlank, fun _ h => List.mem_takeWhile_imp h,
    List.takeWhile_append_dropWhile.symm⟩

/-! ## The end -/

/-- The end is trimmed as the start of the text backwards. -/
lemma trimEnd_eq (cs : List Char) : trimEnd cs = (trimStart cs.reverse).reverse := rfl

/-- What is left does not end with blank space. -/
lemma stop_of_trimEnd : ∀ c ∈ (trimEnd cs).getLast?, ¬isBlank c := by
  rw [trimEnd_eq, List.getLast?_reverse]
  exact start_of_trimStart _

/-- The blank space behind what is left. -/
lemma exists_eq_trimEnd_append (cs : List Char) :
    ∃ after, IsBlankText after ∧ cs = trimEnd cs ++ after := by
  obtain ⟨before, blank, split⟩ := exists_eq_append_trimStart cs.reverse
  refine ⟨before.reverse, fun c h => blank c (List.mem_reverse.mp h), ?_⟩
  rw [trimEnd_eq, ← List.reverse_append, ← split, List.reverse_reverse]

/-- Blank space behind a text that ends otherwise is trimmed. -/
lemma trimEnd_append (stop : ∀ c ∈ name.getLast?, ¬isBlank c) (blank : IsBlankText after) :
    trimEnd (name ++ after) = name := by
  have behind : IsBlankText after.reverse := fun c h => blank c (List.mem_reverse.mp h)
  have front : trimStart name.reverse = name.reverse := by
    apply trimStart_of_start
    rwa [List.head?_reverse]
  rw [trimEnd_eq, List.reverse_append, trimStart_append behind, front, List.reverse_reverse]

/-! ## Both ends -/

/-- Trimming leaves the part of a text that has blank space at both sides and none at its ends. -/
theorem trim_eq_iff : trim cs = name ↔ IsTrimmed name ∧ ∃ before after,
    IsBlankText before ∧ IsBlankText after ∧ cs = before ++ name ++ after := by
  refine ⟨?_, ?_⟩
  · rintro rfl
    obtain ⟨before, blankBefore, split⟩ := exists_eq_append_trimStart cs
    obtain ⟨after, blankAfter, split'⟩ := exists_eq_trimEnd_append (trimStart cs)
    refine ⟨⟨?_, stop_of_trimEnd⟩, before, after, blankBefore, blankAfter, ?_⟩
    · -- A first character is that of the text whose end is trimmed.
      intro c h
      apply start_of_trimStart cs
      rw [split', List.head?_append, show (trimEnd (trimStart cs)).head? = some c from h]
      rfl
    · rw [List.append_assoc]
      exact split.trans (congrArg _ split')
  · rintro ⟨trimmed, before, after, blankBefore, blankAfter, rfl⟩
    rw [trim, List.append_assoc, trimStart_append blankBefore]
    cases name with
    | nil =>
      rw [List.nil_append, trimStart_eq_nil_iff.mpr blankAfter]
      rfl
    | cons c name =>
      rw [List.cons_append, trimStart_cons (trimmed.start c rfl), ← List.cons_append]
      exact trimEnd_append trimmed.stop blankAfter

/-- A text without blank ends is left as it is. -/
lemma IsTrimmed.trim_eq (h : IsTrimmed cs) : trim cs = cs :=
  trim_eq_iff.mpr ⟨h, [], [], isBlankText_nil, isBlankText_nil, by simp⟩

/-- Blank space is divided in one way from a character that is not blank. -/
lemma IsBlankText.append_inj (blank : IsBlankText before) (blank' : IsBlankText after)
    (solid : ¬isBlank c) (solid' : ¬isBlank d) (same : before ++ c :: cs = after ++ d :: rest) :
    c = d ∧ cs = rest := by
  have front : trimStart (before ++ c :: cs) = c :: cs := by
    rw [trimStart_append blank, trimStart_cons solid]
  rw [same, trimStart_append blank', trimStart_cons solid'] at front
  exact List.cons.inj front.symm

end ContractCalls.Text

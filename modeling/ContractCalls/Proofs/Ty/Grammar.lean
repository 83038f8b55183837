import ContractCalls.Proofs.Text.Blank
import ContractCalls.Ty.Expression

/-!
# The grammar of type expressions

What the spelling of an expression is, said by rules: a name is named by a maximal run of characters
other than brackets and commas, and it may be followed by parameters between brackets with commas
between them, where blank space may stand behind each parameter and behind the whole. The rules
relate an expression to a text that starts with a spelling of it and to the text behind it. A
spelling is one of a single expression (`IsSpelling.unique`), and the printed form of an expression
whose names can be names is a spelling of it (`HasNames.isSpelling`).
-/

namespace ContractCalls.Expression

open Text

/-- What a name is: a text without delimiters and without blank ends, and not the empty one. -/
structure IsName (name : List Char) : Prop where
  nonempty : name ≠ []
  plain : ∀ c ∈ name, ¬isDelimiter c
  trimmed : IsTrimmed name

/-- A text starts with a run of characters that are no delimiters. The run holds a name between
blank space, and it is maximal: nothing or a delimiter stands behind it. -/
inductive Named : String → List Char → List Char → Prop
  | run {name before after rest : List Char} :
    IsName name → IsBlankText before → IsBlankText after → (∀ c ∈ rest.head?, isDelimiter c) →
      Named (String.ofList name) (before ++ name ++ after ++ rest) rest

mutual

/-- A text starts with a spelling of an expression, and what is left behind that. -/
inductive Derives : Expression → List Char → List Char → Prop
  | bare {name : String} {cs rest : List Char} : Named name cs rest → Derives (mk name []) cs rest
  | applied {name : String} {arguments : List Expression} {cs inside rest : List Char} :
    Named name cs ('<' :: inside) → DerivesAll arguments inside rest →
      Derives (mk name arguments) cs rest

/-- A text starts with spellings of parameters and the bracket that closes them. -/
inductive DerivesAll : List Expression → List Char → List Char → Prop
  | last {e : Expression} {cs blank rest : List Char} :
    Derives e cs (blank ++ '>' :: rest) → IsBlankText blank → DerivesAll [e] cs rest
  | next {e : Expression} {es : List Expression} {cs blank mid rest : List Char} :
    Derives e cs (blank ++ ',' :: mid) → IsBlankText blank → DerivesAll es mid rest →
      DerivesAll (e :: es) cs rest

end

/-- A text is a spelling of an expression, with blank space behind it or none. -/
def IsSpelling (e : Expression) (cs : List Char) : Prop :=
  ∃ blank, IsBlankText blank ∧ Derives e cs blank

mutual

/-- How many brackets stand around one another. -/
def depth : Expression → Nat
  | mk _ [] => 0
  | mk _ (a :: as) => depthAll (a :: as) + 1

/-- How many brackets stand around one another in one of several expressions. -/
def depthAll : List Expression → Nat
  | [] => 0
  | e :: es => max e.depth (depthAll es)

end

/-- All names in an expression can be names. -/
inductive HasNames : Expression → Prop
  | mk {name : String} {arguments : List Expression} :
    IsName name.toList → (∀ e ∈ arguments, HasNames e) → HasNames (mk name arguments)

variable {e e' : Expression} {es es' : List Expression} {name name' : String}
  {cs rest rest' blank blank' : List Char} {c : Char}

/-! ## Delimiters -/

/-- A delimiter is not blank. -/
lemma not_isBlank_of_isDelimiter (h : isDelimiter c) : ¬isBlank c := by
  have one : (c = '<' ∨ c = '>') ∨ c = ',' := by simpa [isDelimiter] using h
  rcases one with (rfl | rfl) | rfl <;> decide

/-- Behind blank space, no bracket opens. -/
def NotOpened (rest : List Char) : Prop :=
  ∀ c ∈ (trimStart rest).head?, c ≠ '<'

/-- No bracket opens where only blank space is left. -/
lemma notOpened_of_isBlankText (blank : IsBlankText rest) : NotOpened rest := by
  intro c h
  rw [trimStart_eq_nil_iff.mpr blank] at h
  cases h

/-- No bracket opens in front of another delimiter. -/
lemma notOpened_append (isBlank : IsBlankText blank) (delimiter : isDelimiter c) (other : c ≠ '<') :
    NotOpened (blank ++ c :: rest) := by
  intro d h
  rw [trimStart_append isBlank, trimStart_cons (not_isBlank_of_isDelimiter delimiter)] at h
  obtain rfl := Option.some.inj h
  exact other

/-- No bracket opens in front of one that closes. -/
lemma notOpened_close (isBlank : IsBlankText blank) : NotOpened (blank ++ '>' :: rest) :=
  notOpened_append isBlank rfl (by decide)

/-- No bracket opens in front of a comma. -/
lemma notOpened_comma (isBlank : IsBlankText blank) : NotOpened (blank ++ ',' :: rest) :=
  notOpened_append isBlank rfl (by decide)

/-- Behind blank space there is one delimiter and one rest. -/
lemma delimited_inj {d : Char} (isBlank : IsBlankText blank) (isBlank' : IsBlankText blank')
    (delimiter : isDelimiter c) (delimiter' : isDelimiter d)
    (same : blank ++ c :: rest = blank' ++ d :: rest') : c = d ∧ rest = rest' :=
  isBlank.append_inj isBlank' (not_isBlank_of_isDelimiter delimiter)
    (not_isBlank_of_isDelimiter delimiter') same

/-! ## Names -/

/-- Behind a run without delimiters stands nothing or a delimiter. -/
lemma maximal_dropWhile (cs : List Char) :
    ∀ c ∈ (cs.dropWhile (!isDelimiter ·)).head?, isDelimiter c := by
  intro c h
  have stopped := List.head?_dropWhile_not (!isDelimiter ·) cs
  rw [show (cs.dropWhile (!isDelimiter ·)).head? = some c from h] at stopped
  simpa using stopped

/-- A text without delimiters is the run at its start, if nothing or a delimiter stands behind. -/
lemma run_append {run : List Char} (plain : ∀ c ∈ run, !isDelimiter c)
    (maximal : ∀ c ∈ rest.head?, isDelimiter c) :
    (run ++ rest).takeWhile (!isDelimiter ·) = run ∧
      (run ++ rest).dropWhile (!isDelimiter ·) = rest := by
  rw [List.takeWhile_append_of_pos plain, List.dropWhile_append_of_pos plain]
  cases rest with
  | nil => simp
  | cons c rest => simp [maximal c rfl]

/-- The run at the start of a text and the name in it. -/
lemma named_iff :
    Named name cs rest ↔ name.toList ≠ [] ∧ trim (cs.takeWhile (!isDelimiter ·)) = name.toList ∧
      rest = cs.dropWhile (!isDelimiter ·) := by
  refine ⟨fun h => ?_, fun h => ?_⟩
  · cases h with
    | @run name before after rest isName blankBefore blankAfter maximal =>
      have plain : ∀ c ∈ before ++ name ++ after, !isDelimiter c := by
        simp only [List.mem_append]
        rintro c ((h | h) | h)
        · simpa using fun delimiter => not_isBlank_of_isDelimiter delimiter (blankBefore c h)
        · simpa using isName.plain c h
        · simpa using fun delimiter => not_isBlank_of_isDelimiter delimiter (blankAfter c h)
      obtain ⟨run, behind⟩ := run_append plain maximal
      rw [run, behind, String.toList_ofList]
      exact ⟨isName.nonempty,
        trim_eq_iff.mpr ⟨isName.trimmed, before, after, blankBefore, blankAfter, rfl⟩, rfl⟩
  · obtain ⟨nonempty, trims, rfl⟩ := h
    obtain ⟨trimmed, before, after, blankBefore, blankAfter, split⟩ := trim_eq_iff.mp trims
    have plain : ∀ c ∈ name.toList, ¬isDelimiter c := by
      intro c h
      have inside : c ∈ cs.takeWhile (!isDelimiter ·) := by
        rw [split]
        simp [h]
      simpa using List.mem_takeWhile_imp inside
    have named := Named.run ⟨nonempty, plain, trimmed⟩ blankBefore blankAfter (maximal_dropWhile cs)
    rwa [← split, List.takeWhile_append_dropWhile, String.ofList_toList] at named

/-- A text starts with one name and leaves one rest. -/
lemma Named.unique (h : Named name cs rest) (h' : Named name' cs rest') :
    name = name' ∧ rest = rest' := by
  obtain ⟨-, trims, rfl⟩ := named_iff.mp h
  obtain ⟨-, trims', rfl⟩ := named_iff.mp h'
  exact ⟨String.toList_inj.mp (trims.symm.trans trims'), rfl⟩

/-- A name takes characters. -/
lemma Named.length_lt (h : Named name cs rest) : rest.length < cs.length := by
  cases h with
  | run isName _ _ _ =>
    have := List.length_pos_iff.mpr isName.nonempty
    simp only [List.length_append]
    omega

/-! ## One reading -/

mutual

/-- An expression takes characters. -/
lemma Derives.length_lt {e : Expression} {cs rest : List Char} :
    Derives e cs rest → rest.length < cs.length
  | .bare named => named.length_lt
  | .applied named inside => by
    have := named.length_lt
    have := inside.length_lt
    simp only [List.length_cons] at *
    omega

/-- Parameters and the bracket that closes them take characters. -/
lemma DerivesAll.length_lt {es : List Expression} {cs rest : List Char} :
    DerivesAll es cs rest → rest.length < cs.length
  | .last first _ => by
    have := first.length_lt
    simp only [List.length_append, List.length_cons] at this
    omega
  | .next first _ others => by
    have := first.length_lt
    have := others.length_lt
    simp only [List.length_append, List.length_cons] at *
    omega

end

/-- A text starts with one expression and leaves one rest, if no bracket opens behind it. -/
lemma Derives.unique (h : Derives e cs rest) (h' : Derives e' cs rest') (closed : NotOpened rest)
    (closed' : NotOpened rest') : e = e' ∧ rest = rest' := by
  -- The second motive says the same of parameters, behind which a bracket has closed.
  induction h using Derives.rec
    (motive_2 := fun es cs rest _ => ∀ es' rest', DerivesAll es' cs rest' → es = es' ∧ rest = rest')
    generalizing e' rest' with
  | bare named =>
    cases h' with
    | bare named' =>
      obtain ⟨rfl, rfl⟩ := named.unique named'
      exact ⟨rfl, rfl⟩
    | applied named' _ =>
      obtain ⟨-, rfl⟩ := named.unique named'
      exact absurd rfl (closed '<' rfl)
  | applied named _ ih =>
    cases h' with
    | bare named' =>
      obtain ⟨-, rfl⟩ := named.unique named'
      exact absurd rfl (closed' _ rfl)
    | applied named' inside' =>
      obtain ⟨rfl, same⟩ := named.unique named'
      obtain rfl := (List.cons.inj same).2
      obtain ⟨rfl, rfl⟩ := ih _ _ inside'
      exact ⟨rfl, rfl⟩
  | last _ isBlank ih es' rest' h' =>
    cases h' with
    | last h' isBlank' =>
      obtain ⟨rfl, same⟩ := ih h' (notOpened_close isBlank) (notOpened_close isBlank')
      obtain ⟨-, rfl⟩ := delimited_inj isBlank isBlank' rfl rfl same
      exact ⟨rfl, rfl⟩
    | next h' isBlank' _ =>
      obtain ⟨-, same⟩ := ih h' (notOpened_close isBlank) (notOpened_comma isBlank')
      have other := (delimited_inj isBlank isBlank' rfl rfl same).1
      simp at other
  | next _ isBlank _ ih ihs es' rest' h' =>
    cases h' with
    | last h' isBlank' =>
      obtain ⟨-, same⟩ := ih h' (notOpened_comma isBlank) (notOpened_close isBlank')
      have other := (delimited_inj isBlank isBlank' rfl rfl same).1
      simp at other
    | next h' isBlank' others' =>
      obtain ⟨rfl, same⟩ := ih h' (notOpened_comma isBlank) (notOpened_comma isBlank')
      obtain ⟨-, rfl⟩ := delimited_inj isBlank isBlank' rfl rfl same
      obtain ⟨rfl, rfl⟩ := ihs _ _ others'
      exact ⟨rfl, rfl⟩

/-- A text spells one expression. -/
lemma IsSpelling.unique (h : IsSpelling e cs) (h' : IsSpelling e' cs) : e = e' := by
  obtain ⟨blank, isBlank, derived⟩ := h
  obtain ⟨blank', isBlank', derived'⟩ := h'
  exact (derived.unique derived' (notOpened_of_isBlankText isBlank)
    (notOpened_of_isBlankText isBlank')).1

/-! ## Printed forms -/

/-- A name is one in front of nothing or a delimiter. -/
lemma named_append (isName : IsName name.toList) (maximal : ∀ c ∈ rest.head?, isDelimiter c) :
    Named name (name.toList ++ rest) rest := by
  simpa using Named.run isName isBlankText_nil isBlankText_nil maximal

/-- The printed form of an expression is derived wherever nothing or a delimiter stands behind. -/
def DerivesPrint (e : Expression) : Prop :=
  ∀ rest : List Char, (∀ c ∈ rest.head?, isDelimiter c) → Derives e (e.print ++ rest) rest

/-- The printed forms of parameters are derived in front of the bracket that closes them. -/
lemma derivesAll_print (h : ∀ a ∈ e :: es, DerivesPrint a) (rest : List Char) :
    DerivesAll (e :: es) (join [','] (printAll (e :: es)) ++ '>' :: rest) rest := by
  induction es generalizing e with
  | nil =>
    have derived := h e (by simp) ([] ++ '>' :: rest) (by simp [isDelimiter])
    exact .last derived isBlankText_nil
  | cons e' es ih =>
    obtain ⟨first, others⟩ := List.forall_mem_cons.mp h
    have derived := first ([] ++ ',' :: (join [','] (printAll (e' :: es)) ++ '>' :: rest))
      (by simp [isDelimiter])
    have next := DerivesAll.next derived isBlankText_nil (ih others)
    simpa [printAll, join] using next

/-- The printed form of an expression of proper names is derived. -/
lemma HasNames.derivesPrint (names : HasNames e) : DerivesPrint e := by
  induction names with
  | @mk name arguments isName _ ih =>
    intro rest maximal
    cases arguments with
    | nil =>
      rw [print]
      exact .bare (named_append isName maximal)
    | cons e es =>
      have opens : ∀ c ∈ ('<' :: (join [','] (printAll (e :: es)) ++ '>' :: rest)).head?,
          isDelimiter c := by
        simp [isDelimiter]
      have derived := Derives.applied (named_append isName opens) (derivesAll_print ih rest)
      simpa [print] using derived

/-- The printed form of an expression of proper names spells it. -/
lemma HasNames.isSpelling (names : HasNames e) : IsSpelling e e.print := by
  have derived := names.derivesPrint [] (by simp)
  rw [List.append_nil] at derived
  exact ⟨[], by simp [IsBlankText], derived⟩

end ContractCalls.Expression

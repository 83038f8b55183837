import ContractCalls.Proofs.Outcome
import ContractCalls.Proofs.Ty.Grammar

/-!
# Reading type expressions

The reader accepts the spellings of the grammar whose brackets do not stand around one another
beyond the limit, and gives the expression that they spell (`parse_eq_ok_iff_isSpelling`). What a
step of the reader gives is said once (`read_eq_ok_iff`, `readArguments_eq_ok_iff`); from there what
is read is derived, by induction on the steps that are left, and what is derived is read, by
induction on the derivation, because each step leaves less text.
-/

namespace ContractCalls.Expression

open Text

variable {e : Expression} {es : List Expression} {name owner : String}
  {cs rest mid inside : List Char} {c : Char} {total fuel depth offset : Nat}

/-! ## Steps -/

/-- A name is read exactly where a text starts with it. -/
lemma readName_eq_ok_iff : readName offset cs = .ok (name, rest) ↔ Named name cs rest := by
  rw [named_iff, readName]
  cases form : trim (cs.takeWhile (!isDelimiter ·)) with
  | nil =>
    refine ⟨?_, ?_⟩
    · rintro ⟨⟩
    · rintro ⟨nonempty, empty, -⟩
      exact absurd empty.symm nonempty
  | cons c run =>
    refine ⟨fun h => ?_, ?_⟩
    · obtain ⟨rfl, rfl⟩ := Prod.mk.inj (Except.ok.inj h)
      rw [String.toList_ofList]
      exact ⟨List.cons_ne_nil c run, rfl, rfl⟩
    · rintro ⟨-, same, rfl⟩
      rw [← String.ofList_toList (s := name), ← same]

/-- A character is eaten exactly if it stands behind blank space or none. -/
lemma eat?_eq_some_iff (solid : ¬isBlank c) :
    eat? c cs = some rest ↔ ∃ blank, IsBlankText blank ∧ cs = blank ++ c :: rest := by
  refine ⟨fun h => ?_, fun h => ?_⟩
  · obtain ⟨blank, isBlank, split⟩ := exists_eq_append_trimStart cs
    refine ⟨blank, isBlank, split.trans (congrArg _ ?_)⟩
    rw [eat?] at h
    split at h
    · cases h
    · next d after form =>
      rw [form]
      split_ifs at h with same
      rw [same, Option.some.inj h]
  · obtain ⟨blank, isBlank, rfl⟩ := h
    simp [eat?, trimStart_append isBlank, trimStart_cons solid]

/-- No bracket is eaten exactly where none opens. -/
lemma eat?_open_eq_none_iff : eat? '<' cs = none ↔ NotOpened cs := by
  rw [eat?, NotOpened]
  cases trimStart cs with
  | nil => simp
  | cons d after => simp

/-- Behind a run, a bracket opens without blank space before it. -/
lemma Named.eat?_open_iff (named : Named name cs mid) :
    eat? '<' mid = some inside ↔ mid = '<' :: inside := by
  cases named with
  | run _ _ _ maximal =>
    rw [eat?_eq_some_iff (by decide)]
    refine ⟨?_, fun h => ⟨[], by simp [IsBlankText], h⟩⟩
    rintro ⟨blank, isBlank, rfl⟩
    cases blank with
    | nil => rfl
    | cons d blank =>
      exact absurd (isBlank d (by simp)) (not_isBlank_of_isDelimiter (maximal d rfl))

/-- What a step of the reader gives: a name behind which no bracket opens, or a name with what is
read between brackets. -/
lemma read_eq_ok_iff : read total (fuel + 1) depth cs = .ok (e, rest) ↔
    ∃ name, (Named name cs rest ∧ NotOpened rest ∧ e = mk name []) ∨
      ∃ inside arguments, Named name cs ('<' :: inside) ∧ depth < maxDepth ∧
        readArguments total fuel (depth + 1) name inside = .ok (arguments, rest) ∧
          e = mk name arguments := by
  rw [read, bind_eq_ok_iff]
  refine ⟨?_, ?_⟩
  · rintro ⟨⟨name, mid⟩, named, h⟩
    rw [readName_eq_ok_iff] at named
    refine ⟨name, ?_⟩
    cases opened : eat? '<' mid with
    | none =>
      simp only [opened] at h
      obtain ⟨rfl, rfl⟩ := Prod.mk.inj (Except.ok.inj h)
      exact .inl ⟨named, eat?_open_eq_none_iff.mp opened, rfl⟩
    | some inside =>
      simp only [opened] at h
      obtain rfl := named.eat?_open_iff.mp opened
      split_ifs at h with deep
      obtain ⟨⟨arguments, rest⟩, read, h⟩ := bind_eq_ok_iff.mp h
      obtain ⟨rfl, rfl⟩ := Prod.mk.inj (Except.ok.inj h)
      exact .inr ⟨inside, arguments, named, by omega, read, rfl⟩
  · rintro ⟨name, ⟨named, closed, rfl⟩ | ⟨inside, arguments, named, shallow, read, rfl⟩⟩
    · refine ⟨(name, rest), readName_eq_ok_iff.mpr named, ?_⟩
      simp only [eat?_open_eq_none_iff.mpr closed]
    · refine ⟨(name, '<' :: inside), readName_eq_ok_iff.mpr named, ?_⟩
      simp only [named.eat?_open_iff.mpr rfl, if_neg (Nat.not_le.mpr shallow), read, ok_bind]

/-- What a step of the reader gives between brackets: an expression with a closing bracket behind
it, or one with a comma and further ones. -/
lemma readArguments_eq_ok_iff : readArguments total (fuel + 1) depth owner cs = .ok (es, rest) ↔
    ∃ e blank, IsBlankText blank ∧
      ((read total fuel depth cs = .ok (e, blank ++ '>' :: rest) ∧ es = [e]) ∨
        ∃ after others, read total fuel depth cs = .ok (e, blank ++ ',' :: after) ∧
          readArguments total fuel depth owner after = .ok (others, rest) ∧ es = e :: others) := by
  rw [readArguments, bind_eq_ok_iff]
  refine ⟨?_, ?_⟩
  · rintro ⟨⟨e, mid⟩, first, h⟩
    cases comma : eat? ',' mid with
    | some after =>
      simp only [comma] at h
      obtain ⟨blank, isBlank, rfl⟩ := (eat?_eq_some_iff (by decide)).mp comma
      obtain ⟨⟨others, rest⟩, next, h⟩ := bind_eq_ok_iff.mp h
      obtain ⟨rfl, rfl⟩ := Prod.mk.inj (Except.ok.inj h)
      exact ⟨e, blank, isBlank, .inr ⟨after, others, first, next, rfl⟩⟩
    | none =>
      cases close : eat? '>' mid with
      | none => simp [comma, close] at h
      | some after =>
        simp only [comma, close] at h
        obtain ⟨blank, isBlank, rfl⟩ := (eat?_eq_some_iff (by decide)).mp close
        obtain ⟨rfl, rfl⟩ := Prod.mk.inj (Except.ok.inj h)
        exact ⟨e, blank, isBlank, .inl ⟨first, rfl⟩⟩
  · rintro ⟨e, blank, isBlank, ⟨first, rfl⟩ | ⟨after, others, first, next, rfl⟩⟩
    · refine ⟨_, first, ?_⟩
      have comma : eat? ',' (blank ++ '>' :: rest) = none := by
        simp [eat?, trimStart_append isBlank, @trimStart_cons rest '>' (by decide)]
      have close : eat? '>' (blank ++ '>' :: rest) = some rest :=
        (eat?_eq_some_iff (by decide)).mpr ⟨blank, isBlank, rfl⟩
      simp only [comma, close]
    · refine ⟨_, first, ?_⟩
      have comma : eat? ',' (blank ++ ',' :: after) = some after :=
        (eat?_eq_some_iff (by decide)).mpr ⟨blank, isBlank, rfl⟩
      simp only [comma, next, ok_bind]

/-! ## What is read is derived -/

/-- The brackets around parameters are one more than those in them. -/
lemma depth_mk (h : es ≠ []) : (mk name es).depth = depthAll es + 1 := by
  cases es with
  | nil => exact absurd rfl h
  | cons e es => rw [depth]

/-- There is at least one parameter between brackets. -/
lemma DerivesAll.ne_nil (h : DerivesAll es cs rest) : es ≠ [] := by
  cases h <;> simp

/-- What is read with some number of steps left is derived, and its brackets and those around it do
not exceed the limit. -/
structure ReadsDerived (total fuel : Nat) : Prop where
  expression {depth : Nat} {cs rest : List Char} {e : Expression} :
    depth ≤ maxDepth → read total fuel depth cs = .ok (e, rest) →
      Derives e cs rest ∧ depth + e.depth ≤ maxDepth
  parameters {depth : Nat} {owner : String} {cs rest : List Char} {es : List Expression} :
    depth ≤ maxDepth → readArguments total fuel depth owner cs = .ok (es, rest) →
      DerivesAll es cs rest ∧ depth + depthAll es ≤ maxDepth

/-- Whatever number of steps is left, only what is derived is read. -/
lemma readsDerived (total fuel : Nat) : ReadsDerived total fuel := by
  induction fuel with
  | zero =>
    refine ⟨fun _ h => ?_, fun _ h => ?_⟩
    · simp [read] at h
    · simp [readArguments] at h
  | succ fuel ih =>
    refine ⟨fun shallow h => ?_, fun shallow h => ?_⟩
    · obtain ⟨name, ⟨named, -, rfl⟩ | ⟨inside, arguments, named, room, read, rfl⟩⟩ :=
        read_eq_ok_iff.mp h
      · exact ⟨.bare named, by simpa [depth] using shallow⟩
      · obtain ⟨derived, bound⟩ := ih.parameters room read
        refine ⟨.applied named derived, ?_⟩
        rw [depth_mk derived.ne_nil]
        omega
    · obtain ⟨e, blank, isBlank, ⟨first, rfl⟩ | ⟨after, others, first, next, rfl⟩⟩ :=
        readArguments_eq_ok_iff.mp h
      · obtain ⟨derived, bound⟩ := ih.expression shallow first
        exact ⟨.last derived isBlank, by simpa [depthAll] using bound⟩
      · obtain ⟨derived, bound⟩ := ih.expression shallow first
        obtain ⟨behind, bound'⟩ := ih.parameters shallow next
        refine ⟨.next derived isBlank behind, ?_⟩
        rw [depthAll]
        omega

/-! ## What is derived is read -/

/-- What is derived is read, with as many steps left as the spelling has characters. -/
lemma Derives.read_eq_ok (h : Derives e cs rest) (closed : NotOpened rest)
    (shallow : depth + e.depth ≤ maxDepth) (enough : cs.length ≤ fuel + rest.length) :
    read total fuel depth cs = .ok (e, rest) := by
  -- The second motive says the same of parameters, which take a step of their own.
  induction h using Derives.rec (motive_2 := fun es cs rest _ => ∀ fuel depth owner,
      depth + depthAll es ≤ maxDepth → cs.length < fuel + rest.length →
        readArguments total fuel depth owner cs = .ok (es, rest)) generalizing fuel depth with
  | bare named =>
    have := named.length_lt
    obtain ⟨fuel, rfl⟩ : ∃ n, fuel = n + 1 := ⟨fuel - 1, by omega⟩
    exact read_eq_ok_iff.mpr ⟨_, .inl ⟨named, closed, rfl⟩⟩
  | @applied name arguments cs inside rest named derived ih =>
    have := named.length_lt
    have := derived.length_lt
    rw [depth_mk derived.ne_nil] at shallow
    rw [List.length_cons] at *
    obtain ⟨fuel, rfl⟩ : ∃ n, fuel = n + 1 := ⟨fuel - 1, by omega⟩
    have read := ih fuel (depth + 1) name (by omega) (by omega)
    exact read_eq_ok_iff.mpr ⟨_, .inr ⟨_, _, named, by omega, read, rfl⟩⟩
  | last first isBlank ih fuel depth owner shallow enough =>
    have := first.length_lt
    simp only [List.length_append, List.length_cons] at this
    obtain ⟨fuel, rfl⟩ : ∃ n, fuel = n + 1 := ⟨fuel - 1, by omega⟩
    have read : Expression.read total fuel depth _ = .ok _ := ih (notOpened_close isBlank)
      (by simpa [depthAll] using shallow) (by simp; omega)
    exact readArguments_eq_ok_iff.mpr ⟨_, _, isBlank, .inl ⟨read, rfl⟩⟩
  | next first isBlank others ih ihs fuel depth owner shallow enough =>
    have := first.length_lt
    have := others.length_lt
    simp only [List.length_append, List.length_cons] at *
    rw [depthAll] at shallow
    obtain ⟨fuel, rfl⟩ : ∃ n, fuel = n + 1 := ⟨fuel - 1, by omega⟩
    have read : Expression.read total fuel depth _ = .ok _ :=
      ih (notOpened_comma isBlank) (by omega) (by omega)
    have behind := ihs fuel depth owner (by omega) (by omega)
    exact readArguments_eq_ok_iff.mpr ⟨_, _, isBlank, .inr ⟨_, _, read, behind, rfl⟩⟩

/-! ## Spellings -/

/-- A text is read as an expression exactly if it spells it and its brackets do not exceed the
limit. -/
lemma ofList?_eq_ok_iff : ofList? cs = .ok e ↔ IsSpelling e cs ∧ e.depth ≤ maxDepth := by
  rw [ofList?, bind_eq_ok_iff]
  refine ⟨?_, ?_⟩
  · rintro ⟨⟨read, rest⟩, h, ends⟩
    obtain ⟨derived, bound⟩ := (readsDerived _ _).expression (Nat.zero_le _) h
    cases form : trimStart rest with
    | cons c cs => simp [form] at ends
    | nil =>
      simp only [form] at ends
      obtain rfl := Except.ok.inj ends
      exact ⟨⟨rest, trimStart_eq_nil_iff.mp form, derived⟩, by simpa using bound⟩
  · rintro ⟨⟨blank, isBlank, derived⟩, bound⟩
    have read : read (utf8Length cs) (cs.length + 1) 0 cs = .ok (e, blank) :=
      derived.read_eq_ok (notOpened_of_isBlankText isBlank) (by simpa using bound) (by omega)
    exact ⟨_, read, by simp only [trimStart_eq_nil_iff.mpr isBlank]⟩

/-- A source is parsed to an expression exactly if it spells it and its brackets do not exceed the
limit. -/
lemma parse_eq_ok_iff {source : String} :
    parse source = .ok e ↔ IsSpelling e source.toList ∧ e.depth ≤ maxDepth := by
  rw [← ofList?_eq_ok_iff, parse, mapError_eq_ok_iff]

/-- The reader accepts the grammar. A text is read as an expression exactly if it is a spelling of
it, with brackets around one another up to the limit of 64, and a text is a spelling of at most one
expression. Any other text is a malformed type, reported with its whole spelling. An expression with
names that can be names is read back from its printed form. -/
theorem parse_eq_ok_iff_isSpelling :
    (∀ source e, parse source = .ok e ↔ IsSpelling e source.toList ∧ e.depth ≤ 64) ∧
    (∀ cs e e', IsSpelling e cs → IsSpelling e' cs → e = e') ∧
    (∀ source, (¬∃ e, IsSpelling e source.toList ∧ e.depth ≤ 64) →
      ∃ fault, parse source = .error ⟨source, fault⟩) ∧
    (∀ e, HasNames e → e.depth ≤ 64 → parse e.display = .ok e) := by
  refine ⟨fun source e => parse_eq_ok_iff, fun cs e e' => IsSpelling.unique, ?_, ?_⟩
  · intro source refused
    cases read : ofList? source.toList with
    | ok e => exact absurd ⟨e, ofList?_eq_ok_iff.mp read⟩ refused
    | error fault => exact ⟨fault, by rw [parse, read, Except.mapError]⟩
  · intro e names bound
    apply parse_eq_ok_iff.mpr
    rw [display, String.toList_ofList]
    exact ⟨names.isSpelling, bound⟩

/-- A spelling with blank space wherever the grammar has it, the printed form of the same
expression, and a text with a bracket too many. -/
theorem parse_eq_ok_iff_isSpelling_blank :
    let e := mk "tuple" [mk "u8" [], mk "utf-8 string" []]
    IsSpelling e " tuple < u8 ,\tutf-8 string > ".toList ∧ parse e.display = .ok e ∧
      ∃ fault, parse "tuple<u8>>" = .error ⟨"tuple<u8>>", fault⟩ := by
  intro e
  obtain ⟨accepted, -, refused, printed⟩ := parse_eq_ok_iff_isSpelling
  have read : parse " tuple < u8 ,\tutf-8 string > " = .ok e := by cbv
  have names : HasNames e := by
    have isName : ∀ name ∈ ["tuple", "u8", "utf-8 string"], IsName name.toList := by
      simp only [List.forall_mem_cons]
      refine ⟨?_, ?_, ?_, by simp⟩ <;>
        exact ⟨by simp, by simp [isDelimiter], by rintro c ⟨⟩; decide, by rintro c ⟨⟩; decide⟩
    refine .mk (isName "tuple" (by simp)) (List.forall_mem_cons.mpr ⟨?_, ?_⟩)
    · exact .mk (isName "u8" (by simp)) (by simp)
    · exact List.forall_mem_singleton.mpr (.mk (isName "utf-8 string" (by simp)) (by simp))
  refine ⟨((accepted _ _).mp read).1, printed e names (by decide), refused _ ?_⟩
  rintro ⟨e', h⟩
  have wrong := (accepted "tuple<u8>>" e').mpr h
  have fails : parse "tuple<u8>>" = .error ⟨"tuple<u8>>", .trailing ">"⟩ := by cbv
  cases fails.symm.trans wrong

end ContractCalls.Expression

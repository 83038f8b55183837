import ContractCalls.Call.Interaction
import ContractCalls.Proofs.Codec.Encoding
import ContractCalls.Proofs.Value.Coercion
import ContractCalls.Proofs.Value.HasType

/-!
# Accepted calls can be encoded

Whatever a check of a call accepts has bytes, unless a length does not fit the four bytes it is
written in (`encodeArguments_of_check`). Values of several arguments stand nowhere else than the
declared types allow, because the arguments conform to these types in another form. This takes that
the structs and enums among the arguments carry types of their own kind: one that carries a
primitive type is accepted there with any contents.
-/

namespace ContractCalls

/-- A computation fails in no other way than by a number that does not fit its bytes. -/
def OnlyOverflows {α : Type} (x : Except CodecError α) : Prop :=
  ∀ e, x = .error e → ∃ t width, e = .overflow t width

namespace OnlyOverflows

variable {α β : Type}

/-- A result is no failure. -/
lemma ok (a : α) : OnlyOverflows (.ok a) := by
  intro e h
  cases h

/-- An overflow is the one failure that is left. -/
lemma overflow (t : Ty) (width : Nat) :
    OnlyOverflows (.error (.overflow t width) : Except _ α) := by
  intro e h
  exact ⟨t, width, (Except.error.inj h).symm⟩

/-- Two steps only overflow if each of them does. -/
lemma bind {x : Except CodecError α} {f : α → Except CodecError β} (hx : OnlyOverflows x)
    (hf : ∀ a, OnlyOverflows (f a)) : OnlyOverflows (x >>= f) := by
  cases x with
  | ok a => exact hf a
  | error e =>
    intro e' h
    obtain rfl := Except.error.inj h
    exact hx e rfl

/-- What is done to a result does not make other failures. -/
lemma map {x : Except CodecError α} (f : α → β) (hx : OnlyOverflows x) :
    OnlyOverflows (f <$> x) := by
  rw [← bind_ok_comp]
  exact bind hx fun a => ok (f a)

/-- A step for each of several items only overflows if each does. -/
lemma mapM {f : α → Except CodecError β} {as : List α} (h : ∀ a ∈ as, OnlyOverflows (f a)) :
    OnlyOverflows (as.mapM f) := by
  induction as with
  | nil => exact ok []
  | cons a as ih =>
    simp only [List.forall_mem_cons] at h
    rw [List.mapM_cons]
    exact bind h.1 fun b => bind (ih h.2) fun bs => ok (b :: bs)

end OnlyOverflows

namespace Value

variable {t : Ty} {ts : List Ty} {v : Value} {vs : List Value}

/-- A length that is written can only be too large. -/
lemma encodeLength_onlyOverflows (t : Ty) (n : Nat) : OnlyOverflows (encodeLength t n) := by
  unfold encodeLength
  split_ifs
  · exact .ok _
  · exact .overflow t 4

/-- A payload behind its length can only be too long. -/
lemma encodePrefixed_onlyOverflows (t : Ty) (bs : Bytes) : OnlyOverflows (encodePrefixed t bs) := by
  unfold encodePrefixed
  exact .bind (encodeLength_onlyOverflows t _) fun length => .ok _

/-- What is written in front of the parts of a value of one argument can only be too long. -/
lemma head_onlyOverflows (single : ¬v.isMultiValue) : OnlyOverflows v.head := by
  cases v with
  | bigUint n => exact encodePrefixed_onlyOverflows _ _
  | bigInt i => exact encodePrefixed_onlyOverflows _ _
  | bytes bs => exact encodePrefixed_onlyOverflows _ _
  | text s => exact encodePrefixed_onlyOverflows _ _
  | token s => exact encodePrefixed_onlyOverflows _ _
  | option inner value => cases value <;> exact .ok _
  | list element items => exact encodeLength_onlyOverflows _ _
  | optional inner value => simp [isMultiValue] at single
  | variadic element items => simp [isMultiValue] at single
  | _ => exact .ok _

/-- Nested values one after another only overflow if each does. -/
lemma encodeNestedAll_onlyOverflows (h : ∀ v ∈ vs, OnlyOverflows v.encodeNested) :
    OnlyOverflows (encodeNestedAll vs) := by
  induction vs with
  | nil => exact .ok []
  | cons v vs ih =>
    simp only [List.forall_mem_cons] at h
    rw [encodeNestedAll]
    exact .bind h.1 fun b => .bind (ih h.2) fun c => .ok (b ++ c)

/-- A value without a node of several arguments has a nested form, unless a length is too large. -/
lemma encodeNested_onlyOverflows (single : v.All (¬·.isMultiValue)) :
    OnlyOverflows v.encodeNested := by
  induction v using partsInduction with
  | step v ih =>
    have below := encodeNestedAll_onlyOverflows fun u hu => ih u hu (single.part hu)
    rw [encodeNested_eq]
    exact .bind (head_onlyOverflows single.root) fun h => .bind below fun b => .ok (h ++ b)

/-- A value in which nothing spans several arguments can only overflow as an argument. -/
lemma encodeTop_onlyOverflows (single : v.All (¬·.isMultiValue)) : OnlyOverflows v.encodeTop := by
  induction v using partsInduction with
  | step v ih =>
    cases v with
    | option inner value =>
      cases value with
      | none => exact .ok []
      | some u => exact ih u (by simp [parts]) (single.part (by simp [parts]))
    | list element items =>
      apply encodeNestedAll_onlyOverflows
      intro u hu
      exact encodeNested_onlyOverflows (single.part hu)
    | optional inner value => exact absurd rfl single.root
    | variadic element items => exact absurd rfl single.root
    | bigUint n => exact .ok _
    | bigInt i => exact .ok _
    | bytes bs => exact .ok _
    | text s => exact .ok _
    | token s => exact .ok _
    | _ => exact encodeNested_onlyOverflows single

/-- A value makes arguments if only itself is of several, unless a length is too large. -/
lemma encodeArgument_onlyOverflows (single : ∀ u ∈ v.parts, u.All (¬·.isMultiValue)) :
    OnlyOverflows v.encodeArgument := by
  have inner : ∀ u ∈ v.parts, OnlyOverflows u.encodeTop := by
    intro u hu
    exact encodeTop_onlyOverflows (single u hu)
  -- A value that makes exactly one argument makes its top-level form.
  have one (closed : ¬v.isOpen) (h : OnlyOverflows v.encodeTop) :
      OnlyOverflows v.encodeArgument := by
    rw [encodeArgument_of_not_isOpen closed]
    exact h.map _
  cases v with
  | option claimed value =>
    cases value with
    | none => exact .ok []
    | some u => exact one (by simp [isOpen, isAbsent]) (inner u (by simp [parts]))
  | optional claimed value =>
    cases value with
    | none => exact .ok []
    | some u => exact one (by simp [isOpen, isAbsent]) (inner u (by simp [parts]))
  | variadic element items => exact OnlyOverflows.mapM inner
  | _ =>
    apply one (by simp [isOpen, isAbsent])
    exact encodeTop_onlyOverflows (.intro (by simp [isMultiValue]) single)

/-- A list of arguments only overflows if each argument does. -/
lemma encodeArguments_onlyOverflows (h : ∀ v ∈ vs, OnlyOverflows v.encodeArgument) :
    OnlyOverflows (encodeArguments vs) := by
  induction vs with
  | nil => exact .ok []
  | cons v vs ih =>
    simp only [List.forall_mem_cons] at h
    rw [encodeArguments]
    exact .bind h.1 fun own => .bind (ih h.2) fun others => .ok (own ++ others)

/-- A value of a type spans several arguments exactly if the type does. -/
lemma HasType.isMultiValue_eq (h : HasType t v) : v.isMultiValue = t.isMultiValue := by
  cases h with
  | @primitive p v made label =>
    cases v <;> simp_all [type, isMultiValue, Ty.isMultiValue, IsWellLabelled]
  | _ => rfl

/-- Nothing in a value spans several arguments if nothing in its type does. -/
lemma HasType.all_single (h : HasType t v) (single : t.All (¬·.isMultiValue)) :
    v.All (¬·.isMultiValue) := by
  induction v using partsInduction generalizing t with
  | step v ih =>
    refine .intro ?_ fun u hu => ?_
    · rw [h.isMultiValue_eq]
      exact single.root
    · obtain ⟨s, hs, typed⟩ := h.exists_part hu
      exact ih u hu typed (single.part hs)

/-- An argument that is accepted and carries types of the right kind is encoded, unless a length is
too large. -/
lemma encodeArgument_of_isCompatible (full : t.All (·.hasArity))
    (single : ∀ u ∈ t.parts, u.All (¬·.isMultiValue)) (h : isCompatible t v)
    (label : v.All IsWellLabelled) : OnlyOverflows v.encodeArgument := by
  -- In the form of its type the argument is a value of the type, so nodes of several arguments stand
  -- in it only where they stand in the type.
  have typed : HasType t (Value.coerce t v) :=
    hasType_iff.mpr ⟨conforms_coerce full.root h, label.coerce h⟩
  rw [← encodeArgument_coerce (fun u hu => (single u hu).root) h]
  apply encodeArgument_onlyOverflows
  intro u hu
  obtain ⟨s, hs, inner⟩ := typed.exists_part hu
  exact inner.all_single (single s hs)

/-- Of accepted arguments that carry types of the right kind, each is encoded, unless a length is
too large. -/
lemma encodeArguments_of_isCompatible (full : ∀ t ∈ ts, t.All (·.hasArity))
    (single : ∀ t ∈ ts, ∀ u ∈ t.parts, u.All (¬·.isMultiValue))
    (h : List.Forall₂ (fun t v => isCompatible t v) ts vs)
    (label : ∀ v ∈ vs, v.All IsWellLabelled) : OnlyOverflows (encodeArguments vs) := by
  apply encodeArguments_onlyOverflows
  induction h with
  | nil => simp
  | cons h _ ih =>
    simp only [List.forall_mem_cons] at full single label ⊢
    refine ⟨?_, ih full.2 single.2 label.2⟩
    exact encodeArgument_of_isCompatible full.1 single.1 h label.1

end Value

namespace Endpoint

variable {e : Endpoint} {arguments : List Value} {transferred : Transferred}

/-- As many arguments as inputs pass if each may be passed for its input. -/
lemma checkArgumentsFrom_eq_ok_iff {index : Nat} {inputs : List (Field Ty)}
    (size : arguments.length = inputs.length) :
    checkArgumentsFrom index inputs arguments = .ok () ↔
      List.Forall₂ (fun t v => Value.isCompatible t v) (inputs.map (·.type)) arguments := by
  induction inputs generalizing index arguments with
  | nil =>
    obtain rfl := List.length_eq_zero_iff.mp size
    simp [checkArgumentsFrom]
  | cons input inputs ih =>
    cases arguments with
    | nil => simp at size
    | cons v vs =>
      have others : vs.length = inputs.length := by simpa using size
      rw [List.map_cons, List.forall₂_cons, checkArgumentsFrom]
      split_ifs with compatible
      · simp [compatible, ih others]
      · simp [compatible]

/-- Arguments that pass the check may be passed for the inputs, one by one. -/
lemma isCompatible_of_check (accepted : e.check arguments transferred = .ok ()) :
    List.Forall₂ (fun t v => Value.isCompatible t v) e.inputTypes arguments := by
  obtain ⟨_, -, rest⟩ := bind_eq_ok_iff.mp accepted
  obtain ⟨_, arity, passed⟩ := bind_eq_ok_iff.mp rest
  unfold checkArity at arity
  split_ifs at arity with size
  exact (checkArgumentsFrom_eq_ok_iff size).mp passed

end Endpoint

namespace Interaction

variable {i : Interaction} {view : View} {e : Endpoint} {err : CallError}

/-- A call is wrapped unless the receiver is missing. -/
lemma eq_missingReceiver_of_wrap {call : Payload} (h : i.wrap call = .error err) :
    err = .missingReceiver i.tokens.length := by
  unfold wrap at h
  cases named : i.receiver with
  | none =>
    have missing : i.receiverKey = .error (.missingReceiver i.tokens.length) := by
      rw [receiverKey, named]
    simp only [missing, error_bind] at h
    split at h
    · cases h
    · split_ifs at h
      exact (Except.error.inj h).symm
    · exact (Except.error.inj h).symm
  | some key =>
    have known : i.receiverKey = .ok key := by rw [receiverKey, named]
    simp only [known, ok_bind] at h
    split at h
    · cases h
    · split_ifs at h
      cases h
    · cases h

/-- A call that passes the check is built by encoding its arguments and wrapping them. -/
lemma build_of_check (found : view.endpoint i.function = .ok e)
    (accepted : e.check i.arguments i.transferred = .ok ()) :
    i.build view = (do
      let arguments ← (Value.encodeArguments i.arguments).mapError .codec
      i.wrap ⟨i.function, arguments⟩) := by
  have checked : i.check view = .ok e := by
    rw [check, found]
    change (e.check i.arguments i.transferred >>= fun _ => Except.ok e) = .ok e
    rw [accepted, ok_bind]
  rw [build, checked, ok_bind]

/-- A call that was checked and whose arguments only lack bytes for a length is not built for this
reason, or because the receiver is missing. -/
lemma overflow_or_missingReceiver_of_build (found : view.endpoint i.function = .ok e)
    (accepted : e.check i.arguments i.transferred = .ok ())
    (encodable : OnlyOverflows (Value.encodeArguments i.arguments))
    (h : i.build view = .error err) :
    (∃ t width, err = .codec (.overflow t width)) ∨ err = .missingReceiver i.tokens.length := by
  rw [build_of_check found accepted] at h
  cases encoded : Value.encodeArguments i.arguments with
  | error failure =>
    obtain ⟨t, width, rfl⟩ := encodable failure encoded
    rw [encoded] at h
    exact .inl ⟨t, width, (Except.error.inj h).symm⟩
  | ok args =>
    rw [encoded] at h
    exact .inr (eq_missingReceiver_of_wrap h)

end Interaction

open Value in
/-- Accepted calls, where each generic of the declared types has the parameters it takes and only an
input itself is of several arguments. The arguments in the form of the declared types conform to
them and make the same arguments. They are encoded unless a length is too large, if all structs and
enums in them carry types of their own kind; then the call is built unless a length is too large or
the receiver is missing. -/
theorem encodeArguments_of_check {e : Endpoint} {arguments : List Value} {transferred : Transferred}
    (full : ∀ t ∈ e.inputTypes, t.All (·.hasArity))
    (single : ∀ t ∈ e.inputTypes, ∀ u ∈ t.parts, u.All (¬·.isMultiValue))
    (accepted : e.check arguments transferred = .ok ()) :
    List.Forall₂ (fun t v => conforms t v) e.inputTypes
      (List.zipWith coerce e.inputTypes arguments) ∧
    encodeArguments arguments = encodeArguments (List.zipWith coerce e.inputTypes arguments) ∧
    ((∀ v ∈ arguments, v.All IsWellLabelled) →
      OnlyOverflows (encodeArguments arguments) ∧
      ∀ (i : Interaction) (view : View), view.endpoint i.function = .ok e →
        i.arguments = arguments → i.transferred = transferred → ∀ err, i.build view = .error err →
          (∃ t width, err = .codec (.overflow t width)) ∨ ∃ n, err = .missingReceiver n) := by
  have compatible := Endpoint.isCompatible_of_check accepted
  obtain ⟨conforming, same⟩ := encodeArguments_coerce full single compatible
  refine ⟨conforming, same.symm, fun label => ?_⟩
  have encodable := encodeArguments_of_isCompatible full single compatible label
  refine ⟨encodable, ?_⟩
  rintro i view found rfl rfl err h
  rcases Interaction.overflow_or_missingReceiver_of_build found accepted encodable h with h | h
  · exact .inl h
  · exact .inr ⟨_, h⟩

open Value in
/-- A bare value is passed for an `Option`, an absent `Option` of another type for an `optional`. -/
theorem encodeArguments_of_check_bare_and_crossed :
    let flag := Ty.primitive .bool
    let e := Endpoint.make "vote" []
      [⟨"first", .option flag⟩, ⟨"second", .optional flag⟩, ⟨"others", .variadic flag⟩] [] .mutable []
    let view : View := ⟨[⟨"Poll", [], none, [e], []⟩]⟩
    let i := Interaction.make "vote"
      [bool true, absent (.primitive .bytes), .variadic flag [bool false]]
    let coerced := [present (bool true), absentOptional flag, .variadic flag [bool false]]
    e.check i.arguments i.transferred = .ok () ∧
      List.Forall₂ (fun t v => conforms t v) e.inputTypes coerced ∧
        encodeArguments i.arguments = encodeArguments coerced ∧
          OnlyOverflows (encodeArguments i.arguments) ∧
            ∀ err, i.build view = .error err →
              (∃ t width, err = .codec (.overflow t width)) ∨ ∃ n, err = .missingReceiver n := by
  intro flag e view i coerced
  have accepted : e.check i.arguments i.transferred = .ok () := by decide
  have label : ∀ v ∈ i.arguments, v.All IsWellLabelled := by
    simp only [i, Interaction.make, List.forall_mem_cons, List.not_mem_nil, false_implies,
      implies_true, and_true]
    exact ⟨.leaf trivial rfl, .leaf trivial rfl,
      .intro trivial (List.forall_mem_singleton.mpr (.leaf trivial rfl))⟩
  obtain ⟨conforming, same, encodable⟩ :=
    encodeArguments_of_check (by decide) (by decide) accepted
  obtain ⟨overflows, built⟩ := encodable label
  exact ⟨accepted, conforming, same, overflows, built i view rfl rfl rfl⟩

open Value in
/-- A struct that carries a primitive type is accepted there, but has no bytes if a value of several
arguments stands in it. -/
theorem mislabelled_struct_not_encoded :
    let e := Endpoint.make "set" [] [⟨"value", .primitive .u8⟩] [] .mutable []
    let arguments := [struct (.primitive .u8) [absentOptional (.primitive .u8)]]
    e.check arguments ⟨0, []⟩ = .ok () ∧
      encodeArguments arguments = .error (.notNestable (.optional (.primitive .u8))) := by
  exact ⟨by decide, rfl⟩

end ContractCalls

import ContractCalls.Proofs.Value.Coercion

/-!
# What is accepted where a value may be absent

The rule for an `Option` or `optional` at the boundary of a call is `MayStandFor`: an absent value, a
value of the inner type, and one of it in either wrapper. The check follows the rule with one
exception (`isCompatible_transparent_iff`). It looks for a wrapper around the inner type before it
looks for the inner type itself, so a present value whose own type is the inner one is refused. Such
a value is there only if the inner type is an `Option` or `optional` in its turn.
-/

namespace ContractCalls.Value

/-- The type that the content of a present value was made for, and the content. -/
def present? : Value → Option (Ty × Value)
  | .option inner (some v) => some (inner, v)
  | .optional inner (some v) => some (inner, v)
  | _ => none

/-- What may stand for a value of a type where it may be absent. -/
inductive MayStandFor (inner : Ty) : Value → Prop
  | absent {v : Value} : v.isAbsent → MayStandFor inner v
  | bare {v : Value} : conforms inner v → MayStandFor inner v
  | wrapped {v content : Value} :
    v.present? = some (inner, content) → conforms inner content → MayStandFor inner v

variable {g : Generic} {make : Ty → Option Value → Value} {t inner claimed : Ty} {v content : Value}

/-! ## Present values -/

/-- An absent value has no content. -/
lemma present?_of_isAbsent (absent : v.isAbsent) : v.present? = none := by
  cases v with
  | option claimed value => cases value <;> first | rfl | cases absent
  | optional claimed value => cases value <;> first | rfl | cases absent
  | _ => rfl

/-- A present value carries an `Option` or `optional` type of its content. -/
lemma exists_type_of_present? (h : v.present? = some (claimed, content)) :
    ∃ g make, MayBeAbsent g make ∧ v.type = .generic g [claimed] := by
  cases v with
  | option inner value =>
    cases value with
    | none => simp [present?] at h
    | some w =>
      obtain ⟨rfl, -⟩ : inner = claimed ∧ w = content := by simpa [present?] using h
      exact ⟨.option, .option, .option, rfl⟩
  | optional inner value =>
    cases value with
    | none => simp [present?] at h
    | some w =>
      obtain ⟨rfl, -⟩ : inner = claimed ∧ w = content := by simpa [present?] using h
      exact ⟨.optional, .optional, .optional, rfl⟩
  | _ => simp [present?] at h

/-- No type is an `Option` or `optional` of itself, so a wrapper around a type is none of its values.
-/
lemma not_conforms_of_present? (h : v.present? = some (inner, content)) : ¬conforms inner v := by
  intro c
  obtain ⟨g, make, -, made⟩ := exists_type_of_present? h
  have size := congrArg sizeOf ((type_of_conforms c).symm.trans made)
  simp only [Ty.generic.sizeOf_spec, List.cons.sizeOf_spec] at size
  omega

/-- A value that conforms to a type that may not be absent has no content. -/
lemma present?_eq_none_of_conforms (plain : transparentInner? t = none) (c : conforms t v) :
    v.present? = none := by
  cases h : v.present? with
  | none => rfl
  | some found =>
    obtain ⟨claimed, content⟩ := found
    obtain ⟨g, make, kind, made⟩ := exists_type_of_present? h
    obtain rfl := (type_of_conforms c).symm.trans made
    cases kind <;> cases plain

/-! ## The check -/

/-- A value that conforms to a type that may be absent is absent or has a content that conforms to
the parameter. -/
lemma absent_or_wrapped_of_conforms (kind : MayBeAbsent g make)
    (c : conforms (.generic g [inner]) v) :
    v.isAbsent ∨ ∃ content, v.present? = some (inner, content) ∧ conforms inner content := by
  obtain ⟨p, value, same, rfl, below⟩ := (conforms_mayBeAbsent_iff kind).mp c
  obtain rfl : inner = p := by simpa using same
  cases value with
  | none =>
    left
    cases kind <;> rfl
  | some content =>
    right
    refine ⟨content, ?_, below content rfl⟩
    cases kind <;> rfl

/-- The check in the order in which it is made: a present value is taken as a wrapper, and only other
values are compared with the inner type. -/
lemma isCompatible_iff_of_transparentInner? (transparent : transparentInner? t = some inner) :
    isCompatible t v ↔ conforms t v ∨ v.isAbsent ∨
      (∃ content, v.present? = some (inner, content) ∧ conforms inner content) ∨
        v.present? = none ∧ conforms inner v := by
  simp only [isCompatible, transparent, Bool.or_eq_true]
  refine or_congr_right ?_
  cases v with
  | option claimed value => cases value <;> simp [isAbsent, present?, and_assoc]
  | optional claimed value => cases value <;> simp [isAbsent, present?, and_assoc]
  | _ => simp [isAbsent, present?]

/-- The check follows the rule but for present values of the inner type itself. -/
lemma isCompatible_iff_mayStandFor (kind : MayBeAbsent g make) :
    isCompatible (.generic g [inner]) v ↔
      MayStandFor inner v ∧ ¬(conforms inner v ∧ v.present?.isSome) := by
  have transparent : transparentInner? (.generic g [inner]) = some inner := by cases kind <;> rfl
  rw [isCompatible_iff_of_transparentInner? transparent]
  refine ⟨fun h => ?_, ?_⟩
  · have ways := h.elim (fun c => (absent_or_wrapped_of_conforms kind c).imp id .inl) id
    rcases ways with absent | ⟨content, wrapper, c⟩ | ⟨bare, c⟩
    · exact ⟨.absent absent, by simp [present?_of_isAbsent absent]⟩
    · exact ⟨.wrapped wrapper c, fun h => not_conforms_of_present? wrapper h.1⟩
    · exact ⟨.bare c, by simp [bare]⟩
  · rintro ⟨stands, other⟩
    right
    cases stands with
    | absent absent => exact .inl absent
    | bare c => exact .inr (.inr ⟨by simpa [c] using other, c⟩)
    | wrapped wrapper c => exact .inr (.inl ⟨_, wrapper, c⟩)

/-- Transparency. Where an `Option` or `optional` of a type is declared, an argument is accepted
exactly if it may stand for a value of the type, unless it is a present value that conforms to the
type itself. There are such values only of `Option` and `optional` types; where another type is
declared inside, the rule holds without exception. -/
theorem isCompatible_transparent_iff (inner : Ty) (v : Value) :
    (isCompatible (.option inner) v ↔
      MayStandFor inner v ∧ ¬(conforms inner v ∧ v.present?.isSome)) ∧
    (isCompatible (.optional inner) v ↔
      MayStandFor inner v ∧ ¬(conforms inner v ∧ v.present?.isSome)) ∧
    (transparentInner? inner = none →
      (isCompatible (.option inner) v ↔ MayStandFor inner v) ∧
      (isCompatible (.optional inner) v ↔ MayStandFor inner v)) := by
  have option : isCompatible (.option inner) v ↔
      MayStandFor inner v ∧ ¬(conforms inner v ∧ v.present?.isSome) :=
    isCompatible_iff_mayStandFor .option
  have optional : isCompatible (.optional inner) v ↔
      MayStandFor inner v ∧ ¬(conforms inner v ∧ v.present?.isSome) :=
    isCompatible_iff_mayStandFor .optional
  refine ⟨option, optional, fun plain => ?_⟩
  have regular : ¬(conforms inner v ∧ v.present?.isSome) := by
    rintro ⟨c, present⟩
    simp [present?_eq_none_of_conforms plain c] at present
  simp [option, optional, regular]

/-- A bare truth value where an `optional` one is declared. -/
theorem isCompatible_transparent_iff_bare :
    transparentInner? (.primitive .bool) = none ∧
      isCompatible (.optional (.primitive .bool)) (.bool true) := by
  have plain : transparentInner? (.primitive .bool) = none := rfl
  have rule := (isCompatible_transparent_iff (.primitive .bool) (.bool true)).2.2 plain
  exact ⟨plain, rule.2.mpr (.bare rfl)⟩

/-- A present `Option` of a truth value, where an `Option` of that type is declared. It is a value of
the inner type, and it is refused. -/
theorem present_option_refused :
    let inner : Ty := .option (.primitive .bool)
    let v : Value := .option (.primitive .bool) (some (.bool true))
    inner.All (·.hasArity) ∧ MayStandFor inner v ∧ ¬isCompatible (.option inner) v := by
  intro inner v
  have c : conforms inner v := rfl
  exact ⟨by decide, .bare c, by decide⟩

end ContractCalls.Value

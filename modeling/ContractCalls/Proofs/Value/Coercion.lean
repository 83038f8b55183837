import ContractCalls.Proofs.Codec.Arguments
import ContractCalls.Proofs.Ty.Nodes

/-!
# Arguments in the form of their declared types

At the boundary of a call `Option` and `optional` are transparent, so an argument may have another
form than the declared type. `coerce` gives it that form. The result conforms to the type
(`conforms_coerce`) and makes the same arguments (`encodeArgument_coerce`).
-/

namespace ContractCalls.Value

/-- The content of a value that may be absent; any other value is its own content. -/
def content? : Value → Option Value
  | .option _ value => value
  | .optional _ value => value
  | v => some v

/-- The form of the values of a type that may be absent. -/
def wrapper? : Ty → Option (Option Value → Value)
  | .generic .option (p :: _) => some (.option p)
  | .generic .optional (p :: _) => some (.optional p)
  | _ => none

/-- An argument in the form of its declared type: itself if it conforms to the type, otherwise its
content as that of a value of the type. -/
def coerce (declared : Ty) (v : Value) : Value :=
  if conforms declared v then v
  else
    match wrapper? declared with
    | some wrap => wrap v.content?
    | none => v

variable {t : Ty} {ts : List Ty} {v : Value} {vs : List Value}

/-- A type with an inner type that is transparent is one whose values may be absent. -/
lemma exists_mayBeAbsent_of_transparentInner? {inner : Ty}
    (h : transparentInner? t = some inner) :
    ∃ g make ts, MayBeAbsent g make ∧ t = .generic g (inner :: ts) ∧
      wrapper? t = some (make inner) := by
  unfold transparentInner? at h
  cases first : t.firstParameter? .option with
  | some u =>
    obtain rfl : u = inner := by simpa [first] using h
    obtain ⟨ts, rfl⟩ := Ty.firstParameter?_eq_some_iff.mp first
    exact ⟨.option, .option, ts, .option, rfl, rfl⟩
  | none =>
    have second : t.firstParameter? .optional = some inner := by simpa [first] using h
    obtain ⟨ts, rfl⟩ := Ty.firstParameter?_eq_some_iff.mp second
    exact ⟨.optional, .optional, ts, .optional, rfl, rfl⟩

/-- The content of an argument that is accepted at a transparent type is of the inner type. -/
lemma conforms_content?_of_isCompatible {inner : Ty} (other : ¬conforms t v)
    (h : isCompatible t v) (transparent : transparentInner? t = some inner) :
    ∀ u ∈ v.content?, conforms inner u := by
  intro u hu
  simp only [isCompatible, other, transparent, Bool.false_or] at h
  cases v with
  | option claimed value =>
    cases value with
    | none => simp [content?] at hu
    | some w =>
      obtain rfl : w = u := by simpa [content?] using hu
      simp only [Bool.and_eq_true] at h
      exact h.2
  | optional claimed value =>
    cases value with
    | none => simp [content?] at hu
    | some w =>
      obtain rfl : w = u := by simpa [content?] using hu
      simp only [Bool.and_eq_true] at h
      exact h.2
  | _ =>
    obtain rfl := Option.some.inj hu
    exact h

/-- The ways in which an argument is accepted: it conforms to the type, or it is given the form of
the type and its content is of the inner one. -/
lemma coerce_cases (h : isCompatible t v) :
    (conforms t v ∧ coerce t v = v) ∨
      ∃ g make inner ts, MayBeAbsent g make ∧ t = .generic g (inner :: ts) ∧
        coerce t v = make inner v.content? ∧ ∀ u ∈ v.content?, conforms inner u := by
  by_cases c : conforms t v
  · exact .inl ⟨c, by rw [coerce, if_pos c]⟩
  · cases transparent : transparentInner? t with
    | none => simp [isCompatible, c, transparent] at h
    | some inner =>
      obtain ⟨g, make, ts, kind, shape, wrap⟩ := exists_mayBeAbsent_of_transparentInner? transparent
      have below := conforms_content?_of_isCompatible c h transparent
      refine .inr ⟨g, make, inner, ts, kind, shape, ?_, below⟩
      rw [coerce, if_neg c, wrap]

/-- An accepted argument in the form of the declared type conforms to it. -/
lemma conforms_coerce (full : t.hasArity) (h : isCompatible t v) : conforms t (coerce t v) := by
  rcases coerce_cases h with ⟨c, same⟩ | ⟨g, make, inner, ts, kind, rfl, same, below⟩
  · rwa [same]
  · obtain rfl := Ty.eq_nil_of_hasArity kind.arity_eq full
    rw [same]
    exact (conforms_mayBeAbsent_iff kind).mpr ⟨inner, v.content?, rfl, rfl, below⟩

/-- A value that spans several arguments carries a type that does. -/
lemma isMultiValue_type (several : v.isMultiValue) : v.type.isMultiValue := by
  cases v <;> first | rfl | simp [isMultiValue] at several

/-- A value in another form makes the same arguments, if its content is not of several. -/
lemma encodeArgument_content? {g : Generic} {make : Ty → Option Value → Value}
    (kind : MayBeAbsent g make) (inner : Ty) (single : ∀ u ∈ v.content?, ¬u.isMultiValue) :
    (make inner v.content?).encodeArgument = v.encodeArgument := by
  cases v with
  | option claimed value => cases kind <;> cases value <;> rfl
  | optional claimed value => cases kind <;> cases value <;> rfl
  | variadic element items => simp [content?, isMultiValue] at single
  | _ => cases kind <;> rfl

/-- An accepted argument makes the same arguments in the form of the declared type, if no part of
the type is of several arguments. -/
lemma encodeArgument_coerce (single : ∀ u ∈ t.parts, ¬u.isMultiValue) (h : isCompatible t v) :
    (coerce t v).encodeArgument = v.encodeArgument := by
  rcases coerce_cases h with ⟨c, same⟩ | ⟨g, make, inner, ts, kind, rfl, same, below⟩
  · rw [same]
  · rw [same]
    apply encodeArgument_content? kind
    intro u hu several
    -- The content carries the inner type, which would be of several arguments as well.
    have made := type_of_conforms (below u hu)
    exact single inner (by simp [Ty.parts]) (made ▸ isMultiValue_type several)

/-- The form of the declared type puts no type of the wrong kind into a value. -/
lemma All.coerce (label : v.All IsWellLabelled) (h : isCompatible t v) :
    (Value.coerce t v).All IsWellLabelled := by
  rcases coerce_cases h with ⟨c, same⟩ | ⟨g, make, inner, ts, kind, rfl, same, below⟩
  · rwa [same]
  · rw [same]
    have content : ∀ u ∈ v.content?, u.All IsWellLabelled := by
      intro u hu
      cases v with
      | option claimed value => exact label.part (by simpa [parts, content?] using hu)
      | optional claimed value => exact label.part (by simpa [parts, content?] using hu)
      | _ =>
        obtain rfl := Option.some.inj hu
        exact label
    cases kind <;> exact .intro trivial (by simpa [parts] using content)

/-- Accepted arguments in the form of the declared types conform to them and make the same
arguments. -/
lemma encodeArguments_coerce (full : ∀ t ∈ ts, t.All (·.hasArity))
    (single : ∀ t ∈ ts, ∀ u ∈ t.parts, u.All (¬·.isMultiValue))
    (h : List.Forall₂ (fun t v => isCompatible t v) ts vs) :
    List.Forall₂ (fun t v => conforms t v) ts (List.zipWith Value.coerce ts vs) ∧
      encodeArguments (List.zipWith Value.coerce ts vs) = encodeArguments vs := by
  induction h with
  | nil => exact ⟨.nil, rfl⟩
  | @cons t v ts vs h _ ih =>
    simp only [List.forall_mem_cons] at full single
    obtain ⟨conforming, same⟩ := ih full.2 single.2
    rw [List.zipWith_cons_cons]
    refine ⟨.cons (conforms_coerce full.1.root h) conforming, ?_⟩
    rw [encodeArguments, encodeArguments, same,
      encodeArgument_coerce (fun u hu => (single.1 u hu).root) h]

end ContractCalls.Value

import ContractCalls.Proofs.Codec.Labels
import ContractCalls.Proofs.Codec.Shares

/-!
# Lists of arguments read back

Encoding drops absent values and spreads a `variadic` over several arguments, while decoding goes by
position. `arguments_roundTrip_iff` says for which values both agree. That they agree for no others
rests on a count: decoded values make no more arguments than they were decoded from
(`sum_argumentCount_le`), so an argument that is taken for an absent value is missed further on.
-/

namespace ContractCalls.Value

open Reader (Gives)

variable {t : Ty} {ts : List Ty} {v : Value} {vs : List Value} {args : List Bytes} {index : Nat}

/-- The number of arguments that a value makes. -/
def argumentCount : Value → Nat
  | .variadic _ items => items.length
  | v => if v.isAbsent then 0 else 1

/-- Whether a value makes no argument: it is absent, or a `variadic` without items. -/
def isSilent : Value → Bool
  | .variadic _ items => items.isEmpty
  | v => v.isAbsent

/-- Whether a value does not make exactly one argument by its form: it is absent, or a `variadic`.
-/
def isOpen : Value → Bool
  | .variadic _ _ => true
  | v => v.isAbsent

/-- A value is decoded from its own top-level form. -/
def SurvivesAlone (t : Ty) (v : Value) : Prop :=
  ∃ bs, v.encodeTop = .ok bs ∧ decodeTop t bs = .ok v

/-- A value of a type is decoded from the arguments it makes, each by itself. -/
def Survives (t : Ty) : Value → Prop
  | .variadic element items => ∀ v ∈ items, SurvivesAlone element v
  | v => v.isAbsent ∨ SurvivesAlone t v

/-- A value makes no argument exactly if the number of its arguments is zero. -/
lemma isSilent_iff : v.isSilent ↔ v.argumentCount = 0 := by
  cases v <;> simp [isSilent, argumentCount]

/-- An absent value is dropped from the arguments. -/
lemma encodeArgument_of_isAbsent (absent : v.isAbsent) : v.encodeArgument = .ok [] := by
  unfold isAbsent at absent
  split at absent
  · rfl
  · rfl
  · simp at absent

/-- A value that is neither absent nor a `variadic` makes one argument. -/
lemma encodeArgument_of_not_isOpen (single : ¬v.isOpen) :
    v.encodeArgument = (fun bs => [bs]) <$> v.encodeTop := by
  unfold encodeArgument
  split
  · simp [isOpen, isAbsent] at single
  · simp [isOpen, isAbsent] at single
  · simp [isOpen] at single
  · rfl

/-- Values are encoded as the arguments of the first, followed by those of the others. -/
lemma encodeArguments_cons_eq_ok_iff :
    encodeArguments (v :: vs) = .ok args ↔
      ∃ own others, v.encodeArgument = .ok own ∧ encodeArguments vs = .ok others ∧
        args = own ++ others := by
  simp [encodeArguments, bind_eq_ok_iff, map_eq_ok_iff, @eq_comm _ args]

/-- A value makes as many arguments as `argumentCount` says. -/
lemma length_of_encodeArgument (e : v.encodeArgument = .ok args) :
    args.length = v.argumentCount := by
  unfold encodeArgument at e
  split at e
  · obtain rfl := Except.ok.inj e
    rfl
  · obtain rfl := Except.ok.inj e
    rfl
  · exact (mapM_eq_ok_iff.mp e).length_eq.symm
  · next notAbsent notAbsentOptional notVariadic =>
    obtain ⟨bs, -, rfl⟩ := map_eq_ok_iff.mp e
    have present : v.isAbsent = false := by simp [isAbsent]
    simp [argumentCount, present]

/-- Values make as many arguments as `argumentCount` says of each, added up. -/
lemma length_of_encodeArguments (e : encodeArguments vs = .ok args) :
    args.length = (vs.map argumentCount).sum := by
  induction vs generalizing args with
  | nil => simp [← Except.ok.inj e]
  | cons v vs ih =>
    obtain ⟨own, others, hown, hothers, rfl⟩ := encodeArguments_cons_eq_ok_iff.mp e
    simp [length_of_encodeArgument hown, ih hothers]

/-- Values make no argument at all exactly if none of them makes one. -/
lemma encodeArguments_eq_nil_iff (e : encodeArguments vs = .ok args) :
    args = [] ↔ ∀ v ∈ vs, v.isSilent := by
  rw [← List.length_eq_zero_iff, length_of_encodeArguments e, List.sum_eq_zero_iff]
  simp [isSilent_iff]

/-- Only a `variadic` makes more than one argument. -/
lemma argumentCount_le (single : ∀ element items, v ≠ .variadic element items) :
    v.argumentCount ≤ 1 := by
  unfold argumentCount
  split
  · next element items => exact absurd rfl (single element items)
  · split_ifs <;> omega

/-- A value of a primitive type makes at most one argument. -/
lemma argumentCount_le_of_type {p : Primitive} (made : v.type = .primitive p) :
    v.argumentCount ≤ 1 :=
  argumentCount_le fun element items h => by simp [h, type] at made

/-- A value that is read makes at most one argument. -/
lemma read_gives_argumentCount_le (t : Ty) : (read t).Gives fun v => v.argumentCount ≤ 1 := by
  cases t with
  | primitive p => exact fun _ _ _ e => argumentCount_le_of_type (readPrimitive_gives p e).1
  | generic g params =>
    cases g with
    | option =>
      cases params with
      | nil => exact .fail
      | cons p ps => exact .behind fun value => .pure (argumentCount_le (by simp))
    | list =>
      cases params with
      | nil => exact .fail
      | cons p ps => exact .behind fun _ => .behind fun _ => .behind fun _ => .pure le_rfl
    | tuple => exact .behind fun _ => .pure le_rfl
    | optional => cases params <;> exact .fail
    | variadic => cases params <;> exact .fail
  | array length element => exact .behind fun _ => .behind fun _ => .pure le_rfl
  | struct name fields => exact .behind fun _ => .pure le_rfl
  | enum name variants => exact .behind fun _ => .behind fun _ => .pure le_rfl

/-- A value that was decoded from one argument makes at most one. -/
lemma argumentCount_le_of_decodeTop {bs : Bytes} (e : decodeTop t bs = .ok v) :
    v.argumentCount ≤ 1 := by
  cases decodesTop_of_decodeTop e with
  | primitive e => exact argumentCount_le_of_type (type_of_decodeTopPrimitive e).1
  | nested e => exact read_gives_argumentCount_le t (decodeNested_eq_ok_iff.mp e)
  | _ => exact argumentCount_le (by simp)

/-- A value makes no more arguments than it is made of. -/
lemma IsMadeOf.argumentCount_le (h : IsMadeOf t args v) : v.argumentCount ≤ args.length := by
  cases h with
  | single _ e => exact argumentCount_le_of_decodeTop e
  | absent kind => cases kind <;> exact le_rfl
  | several each => exact each.length_eq.ge

/-- Decoded values make no more arguments than they are decoded from. -/
lemma sum_argumentCount_le (e : decodeArgumentsFrom index ts args = .ok vs) :
    (vs.map argumentCount).sum ≤ args.length := by
  induction ts generalizing index args vs with
  | nil =>
    obtain ⟨rfl, rfl⟩ := decodeArgumentsFrom_nil_eq_ok_iff.mp e
    simp
  | cons t ts ih =>
    obtain ⟨v, others, made, behind, rfl⟩ := decodeArgumentsFrom_cons_eq_ok_iff.mp e
    have own := made.argumentCount_le
    have fewer := ih behind
    have parted := length_share_add_unshared t ts args
    simp only [List.map_cons, List.sum_cons]
    omega

/-- How a value of a type stands in a list of arguments. -/
inductive Stands : Ty → Value → Prop
  | absent {t : Ty} {v : Value} :
    t.firstParameter? .variadic = none → absent? t = some v → v.isAbsent → Stands t v
  | single {t : Ty} {v : Value} :
    t.firstParameter? .variadic = none → ¬v.isOpen → Stands t v
  | several {element : Ty} {items : List Value} :
    Stands (.variadic element) (.variadic element items)

/-- A value that conforms to a type stands in one of these ways. -/
lemma stands_of_conforms (c : conforms t v) : Stands t v := by
  cases several : t.firstParameter? .variadic with
  | some element =>
    cases t with
    | generic g params =>
      obtain rfl : g = .variadic := by
        by_contra other
        simp [Ty.firstParameter?, Ty.parameters?, other] at several
      obtain ⟨p, items, rfl, rfl, -⟩ := (conforms_hasItems_iff .variadic).mp c
      exact .several
    | _ => simp [Ty.firstParameter?, Ty.parameters?] at several
  | none =>
    cases v with
    | option inner value =>
      obtain rfl := type_of_conforms c
      cases value with
      | none => exact .absent rfl rfl rfl
      | some u => exact .single rfl (by simp [isOpen, isAbsent])
    | optional inner value =>
      obtain rfl := type_of_conforms c
      cases value with
      | none => exact .absent rfl rfl rfl
      | some u => exact .single rfl (by simp [isOpen, isAbsent])
    | variadic element items =>
      obtain rfl := type_of_conforms c
      exact .several
    | _ => exact .single several (by simp [isOpen, isAbsent])

/-- An absent value does not make exactly one argument. -/
lemma isOpen_of_isAbsent (absent : v.isAbsent) : v.isOpen := by
  cases v <;> simp_all [isOpen, isAbsent]

/-- An absent value has no argument that it must be decoded from. -/
lemma survives_of_isAbsent (absent : v.isAbsent) : Survives t v := by
  cases v <;> simp_all [Survives, isAbsent]

/-- A value that makes one argument survives if it is decoded from that. -/
lemma survives_iff_of_not_isOpen (single : ¬v.isOpen) : Survives t v ↔ SurvivesAlone t v := by
  have present : v.isAbsent = false := by
    cases v <;> simp_all [isOpen, isAbsent]
  cases v <;> simp_all [Survives, isOpen]

/-- A value survives by itself exactly if it is decoded from its own bytes. -/
lemma survivesAlone_iff {bs : Bytes} (e : v.encodeTop = .ok bs) :
    SurvivesAlone t v ↔ decodeTop t bs = .ok v := by
  simp [SurvivesAlone, e]

/-- Items are decoded from their own bytes exactly if each survives by itself. -/
lemma mapM_decodeTop_iff (e : vs.mapM encodeTop = .ok args) :
    args.mapM (decodeTop t) = .ok vs ↔ ∀ v ∈ vs, SurvivesAlone t v := by
  rw [mapM_eq_ok_iff] at e
  rw [mapM_eq_ok_iff]
  induction e with
  | nil => simp
  | cons e _ ih =>
    rw [List.forall₂_cons, ih, List.forall_mem_cons, survivesAlone_iff e]

/-- An absent value is decoded if no argument is left, and then the others are. -/
lemma decodeArgumentsFrom_absent_iff {others : List Value}
    (single : t.firstParameter? .variadic = none) (own : absent? t = some v)
    (e : encodeArguments others = .ok args) :
    decodeArgumentsFrom index (t :: ts) args = .ok (v :: others) ↔
      args = [] ∧ decodeArgumentsFrom (index + 1) ts args = .ok others := by
  cases args with
  | nil => simp [decodeArgumentsFrom_nil single, own]
  | cons arg args =>
    -- An argument that is taken for the absent value leaves too few for the others.
    simp only [decodeArgumentsFrom_single single, reduceCtorEq, false_and, iff_false]
    intro h
    obtain ⟨u, us, -, hus, same⟩ := h
    obtain ⟨-, rfl⟩ := List.cons.inj same
    have made := length_of_encodeArguments e
    have taken := sum_argumentCount_le hus
    rw [List.length_cons] at made
    omega

/-- A `variadic` is decoded if no argument is left behind its own, and then the others are. -/
lemma decodeArgumentsFrom_variadic_iff {element : Ty} {items others : List Value}
    {own rest : List Bytes} (hown : items.mapM encodeTop = .ok own) :
    decodeArgumentsFrom index (.variadic element :: ts) (own ++ rest)
        = .ok (.variadic element items :: others) ↔
      rest = [] ∧ (∀ v ∈ items, SurvivesAlone element v) ∧
        decodeArgumentsFrom (index + 1) ts rest = .ok others := by
  simp only [decodeArgumentsFrom_variadic (t := .variadic element) rfl, List.cons.injEq,
    variadic.injEq, true_and, ← mapM_decodeTop_iff hown]
  refine ⟨fun h => ?_, fun h => ?_⟩
  · obtain ⟨items', others', hitems, hothers, rfl, rfl⟩ := h
    have made := (mapM_eq_ok_iff.mp hown).length_eq
    have taken := (mapM_eq_ok_iff.mp hitems).length_eq
    -- As many items are decoded as there are arguments, and as were encoded.
    obtain rfl : rest = [] := by
      rw [← List.length_eq_zero_iff]
      rw [List.length_append] at taken
      omega
    exact ⟨rfl, by simpa using hitems, hothers⟩
  · obtain ⟨rfl, hitems, hothers⟩ := h
    exact ⟨items, others, by simpa using hitems, hothers, rfl, rfl⟩

/-- Values are decoded from the arguments they make exactly if only silence follows an open value
and each survives. -/
lemma decodeArgumentsFrom_iff (index : Nat) (c : List.Forall₂ (fun t v => conforms t v) ts vs)
    (e : encodeArguments vs = .ok args) :
    decodeArgumentsFrom index ts args = .ok vs ↔
      vs.Pairwise (fun v w => v.isOpen → w.isSilent) ∧ List.Forall₂ Survives ts vs := by
  induction c generalizing index args with
  | nil =>
    obtain rfl := Except.ok.inj e
    simp [decodeArgumentsFrom]
  | @cons t v ts vs c cs ih =>
    obtain ⟨own, rest, hown, hrest, rfl⟩ := encodeArguments_cons_eq_ok_iff.mp e
    -- The others make no arguments exactly if each of them is silent.
    have silence := encodeArguments_eq_nil_iff hrest
    have others := ih (index + 1) hrest
    rw [List.pairwise_cons, List.forall₂_cons]
    cases stands_of_conforms c with
    | absent single hv absent =>
      obtain rfl := Except.ok.inj ((encodeArgument_of_isAbsent absent).symm.trans hown)
      have survives : Survives t v := survives_of_isAbsent absent
      have opened := isOpen_of_isAbsent absent
      rw [List.nil_append, decodeArgumentsFrom_absent_iff single hv hrest, silence, others]
      simp only [opened, survives, true_and, forall_const]
      tauto
    | single single closed =>
      rw [encodeArgument_of_not_isOpen closed] at hown
      obtain ⟨bs, top, rfl⟩ := map_eq_ok_iff.mp hown
      rw [survives_iff_of_not_isOpen closed, survivesAlone_iff top]
      simp [decodeArgumentsFrom_single single, closed, others]
      tauto
    | @several element items =>
      rw [decodeArgumentsFrom_variadic_iff hown, silence, others]
      simp only [isOpen, Survives, forall_const]
      tauto

/-- Lists of arguments: which values are read back from the arguments they make. They are exactly
the values where only silence follows an absent value or a `variadic`, and where every value and
every item of a `variadic` that makes an argument is decoded from it. So an absent value in front of
a value that makes an argument is never read back. -/
theorem arguments_roundTrip_iff (c : List.Forall₂ (fun t v => conforms t v) ts vs)
    (e : encodeArguments vs = .ok args) :
    (decodeArguments ts args = .ok vs ↔
      vs.Pairwise (fun v w => v.isOpen → w.isSilent) ∧ List.Forall₂ Survives ts vs) ∧
    (¬vs.Pairwise (fun v w => v.isAbsent → w.isSilent) → decodeArguments ts args ≠ .ok vs) := by
  have reads := decodeArgumentsFrom_iff 0 c e
  refine ⟨reads, fun behind h => behind ?_⟩
  exact (reads.mp h).1.imp fun tail absent => tail (isOpen_of_isAbsent absent)

/-- An absent value is read back behind an argument, but not in front of it. -/
theorem arguments_roundTrip_iff_absent :
    let v := bool true
    let w := absent v.type
    decodeArguments [v.type, w.type] [[1]] = .ok [v, w] ∧
      decodeArguments [w.type, v.type] [[1]] ≠ .ok [w, v] := by
  intro v w
  have cv : conforms v.type v := by decide
  have cw : conforms w.type w := by decide
  have behind : encodeArguments [v, w] = .ok [[1]] := rfl
  have before : encodeArguments [w, v] = .ok [[1]] := rfl
  have survives : SurvivesAlone v.type v := ⟨[1], rfl, rfl⟩
  refine ⟨(arguments_roundTrip_iff (.cons cv (.cons cw .nil)) behind).1.mpr ⟨by decide, ?_⟩,
    (arguments_roundTrip_iff (.cons cw (.cons cv .nil)) before).2 (by decide)⟩
  exact .cons (.inr survives) (.cons (.inl rfl) .nil)

end ContractCalls.Value

import ContractCalls.Codec.Decode
import ContractCalls.Proofs.Outcome
import ContractCalls.Proofs.Ty.Nodes
import ContractCalls.Proofs.Value.Conforms

/-!
# The share of each type in a list of arguments

A list of arguments is decoded by position. Each type in front of the first `variadic` has the
argument at its own place, if there is one, the `variadic` has all that follow, and no other type
has any (`share`). One step of decoding makes the first value of the share of its type and leaves
the rest for the others (`decodeArgumentsFrom_cons_eq_ok_iff`). So decoding gives exactly the values
that are made of the shares, one by one, and the shares are all the arguments
(`decodeArguments_eq_ok_iff_isDealt`).
-/

namespace ContractCalls.Value

variable {t : Ty} {ts : List Ty} {v : Value} {vs : List Value} {arg : Bytes} {args : List Bytes}
  {p index : Nat}

/-- The number of types in front of the first `variadic`. -/
def leading (ts : List Ty) : Nat :=
  ts.findIdx fun t => (t.firstParameter? .variadic).isSome

/-- The arguments for the type at position `i`, if `p` types stand in front of the first `variadic`.
-/
def share (p : Nat) (args : List Bytes) (i : Nat) : List Bytes :=
  if i < p then args[i]?.toList else if i = p then args.drop p else []

/-- A value of a type is made of the arguments in the share of the type. -/
inductive IsMadeOf : Ty → List Bytes → Value → Prop
  | single {t : Ty} {arg : Bytes} {v : Value} :
    t.firstParameter? .variadic = none → decodeTop t arg = .ok v → IsMadeOf t [arg] v
  | absent {g : Generic} {make : Ty → Option Value → Value} {t : Ty} {ts : List Ty} :
    MayBeAbsent g make → IsMadeOf (.generic g (t :: ts)) [] (make t none)
  | several {t : Ty} {ts : List Ty} {args : List Bytes} {vs : List Value} :
    List.Forall₂ (fun arg v => decodeTop t arg = .ok v) args vs →
      IsMadeOf (.generic .variadic (t :: ts)) args (.variadic t vs)

/-- Values are made of arguments by position: there is one for each type, each is made of the share
of its type, and without a `variadic` there are no more arguments than types. -/
structure IsDealt (ts : List Ty) (args : List Bytes) (vs : List Value) : Prop where
  length_eq : vs.length = ts.length
  length_le : leading ts = ts.length → args.length ≤ leading ts
  isMadeOf : ∀ i t v, ts[i]? = some t → vs[i]? = some v → IsMadeOf t (share (leading ts) args i) v

/-! ## Shares -/

/-- No type stands in front of a `variadic` that comes first. -/
lemma leading_of_variadic (several : (t.firstParameter? .variadic).isSome) :
    leading (t :: ts) = 0 := by
  rw [leading, List.findIdx_cons, several, cond_true]

/-- A type of one argument is one more in front of the first `variadic`. -/
lemma leading_of_single (single : t.firstParameter? .variadic = none) :
    leading (t :: ts) = leading ts + 1 := by
  rw [leading, List.findIdx_cons, single, Option.isSome_none, cond_false, leading]

/-- No more types stand in front of the first `variadic` than there are. -/
lemma leading_le (ts : List Ty) : leading ts ≤ ts.length :=
  List.findIdx_le_length

/-- Without arguments all shares are empty. -/
@[simp]
lemma share_nil (p i : Nat) : share p [] i = [] := by
  simp [share]

/-- Behind the first argument and the first type the shares are the same. -/
@[simp]
lemma share_succ (p : Nat) (arg : Bytes) (args : List Bytes) (i : Nat) :
    share (p + 1) (arg :: args) (i + 1) = share p args i := by
  simp [share]

/-- The first type has the first argument if it is no `variadic`. -/
@[simp]
lemma share_succ_zero (p : Nat) (arg : Bytes) (args : List Bytes) :
    share (p + 1) (arg :: args) 0 = [arg] := by
  simp [share]

/-- A `variadic` that comes first has all arguments. -/
@[simp]
lemma share_zero_zero (args : List Bytes) : share 0 args 0 = args := by
  simp [share]

/-- Types behind a `variadic` that comes first have no argument. -/
@[simp]
lemma share_zero_succ (args : List Bytes) (i : Nat) : share 0 args (i + 1) = [] := by
  simp [share]

/-- The shares are the arguments, one after another, unless there are more arguments than types and
no `variadic` that takes them. -/
lemma flatMap_share_eq_iff {n : Nat} (h : p ≤ n) :
    (List.range n).flatMap (share p args) = args ↔ (p = n → args.length ≤ p) := by
  induction n generalizing p args with
  | zero =>
    obtain rfl := Nat.le_zero.mp h
    cases args <;> simp
  | succ n ih =>
    rw [List.range_succ_eq_map, List.flatMap_cons, List.flatMap_map]
    cases p with
    | zero => simp
    | succ p =>
      cases args with
      | nil => simp
      | cons arg args => simpa using ih (Nat.le_of_succ_le_succ h)

/-- The arguments that are left for the types behind the first one. -/
def unshared (ts : List Ty) (args : List Bytes) : List Bytes :=
  args.drop (share (leading ts) args 0).length

/-- A `variadic` leaves no argument for the types behind it. -/
lemma unshared_of_variadic (several : (t.firstParameter? .variadic).isSome) (args : List Bytes) :
    unshared (t :: ts) args = [] := by
  simp [unshared, leading_of_variadic several]

/-- A type of one argument leaves all but the first. -/
lemma unshared_of_single (single : t.firstParameter? .variadic = none) (arg : Bytes)
    (args : List Bytes) : unshared (t :: ts) (arg :: args) = args := by
  simp [unshared, leading_of_single single]

/-- The share of the first type and what is left are all the arguments. -/
lemma length_share_add_unshared (t : Ty) (ts : List Ty) (args : List Bytes) :
    (share (leading (t :: ts)) args 0).length + (unshared (t :: ts) args).length = args.length := by
  have bound : (share (leading (t :: ts)) args 0).length ≤ args.length := by
    cases leading (t :: ts) with
    | zero => simp
    | succ p => cases args <;> simp
  rw [unshared, List.length_drop]
  omega

/-- The shares of the types behind the first one are those of what it leaves. -/
lemma share_leading_succ (t : Ty) (ts : List Ty) (args : List Bytes) (i : Nat) :
    share (leading (t :: ts)) args (i + 1) = share (leading ts) (unshared (t :: ts) args) i := by
  cases several : t.firstParameter? .variadic with
  | some element =>
    have several : (t.firstParameter? .variadic).isSome := by simp [several]
    simp [leading_of_variadic several, unshared_of_variadic several]
  | none =>
    cases args with
    | nil => simp [unshared]
    | cons arg args => simp [leading_of_single several, unshared_of_single several]

/-- Arguments are left over behind a list of types if they are so behind all but the first. -/
lemma length_le_leading_cons_iff (t : Ty) (ts : List Ty) (args : List Bytes) :
    (leading (t :: ts) = (t :: ts).length → args.length ≤ leading (t :: ts)) ↔
      (leading ts = ts.length → (unshared (t :: ts) args).length ≤ leading ts) := by
  cases several : t.firstParameter? .variadic with
  | some element =>
    have several : (t.firstParameter? .variadic).isSome := by simp [several]
    simp [leading_of_variadic several, unshared_of_variadic several]
  | none =>
    cases args with
    | nil => simp [unshared]
    | cons arg args => simp [leading_of_single several, unshared_of_single several]

/-! ## Values made of shares -/

/-- A type has an absent value exactly if it is an `Option` or an `optional`. -/
lemma absent?_eq_some_iff :
    absent? t = some v ↔ ∃ g make u us, MayBeAbsent g make ∧ t = .generic g (u :: us) ∧
      v = make u none := by
  refine ⟨fun e => ?_, fun h => ?_⟩
  · unfold absent? at e
    split at e
    · next inner first =>
      obtain ⟨ts, rfl⟩ := Ty.firstParameter?_eq_some_iff.mp first
      exact ⟨.option, .option, inner, ts, .option, rfl, (Option.some.inj e).symm⟩
    · obtain ⟨inner, first, rfl⟩ := Option.map_eq_some_iff.mp e
      obtain ⟨ts, rfl⟩ := Ty.firstParameter?_eq_some_iff.mp first
      exact ⟨.optional, .optional, inner, ts, .optional, rfl, rfl⟩
  · obtain ⟨g, make, u, us, kind, rfl, rfl⟩ := h
    cases kind <;> rfl

/-- A `variadic` is made of arguments exactly if each is decoded to its item. -/
lemma isMadeOf_variadic_iff {element : Ty} (several : t.firstParameter? .variadic = some element) :
    IsMadeOf t args v ↔
      ∃ items, args.mapM (decodeTop element) = .ok items ∧ v = .variadic element items := by
  simp only [mapM_eq_ok_iff]
  obtain ⟨ts, rfl⟩ := Ty.firstParameter?_eq_some_iff.mp several
  refine ⟨fun h => ?_, fun h => ?_⟩
  · cases h with
    | single single => exact absurd (several.symm.trans single) (by simp)
    | absent kind => cases kind
    | several each => exact ⟨_, each, rfl⟩
  · obtain ⟨items, each, rfl⟩ := h
    exact .several each

/-- A value of a type of one argument is made of one exactly if it is decoded from it. -/
lemma isMadeOf_singleton_iff (single : t.firstParameter? .variadic = none) :
    IsMadeOf t [arg] v ↔ decodeTop t arg = .ok v := by
  refine ⟨fun h => ?_, fun e => .single single e⟩
  cases h with
  | single _ e => exact e
  | several => simp [Ty.firstParameter?, Ty.parameters?] at single

/-- A value of a type of one argument is made of none exactly if it is the absent one. -/
lemma isMadeOf_nil_iff (single : t.firstParameter? .variadic = none) :
    IsMadeOf t [] v ↔ absent? t = some v := by
  rw [absent?_eq_some_iff]
  refine ⟨fun h => ?_, fun h => ?_⟩
  · cases h with
    | absent kind => exact ⟨_, _, _, _, kind, rfl, rfl⟩
    | several => simp [Ty.firstParameter?, Ty.parameters?] at single
  · obtain ⟨g, make, u, us, kind, rfl, rfl⟩ := h
    exact .absent kind

/-! ## Decoding deals the shares -/

/-- A `variadic` takes all arguments that are left. -/
lemma decodeArgumentsFrom_variadic {element : Ty}
    (several : t.firstParameter? .variadic = some element) :
    decodeArgumentsFrom index (t :: ts) args = .ok vs ↔
      ∃ items others, args.mapM (decodeTop element) = .ok items ∧
        decodeArgumentsFrom (index + 1) ts [] = .ok others ∧
        .variadic element items :: others = vs := by
  simp [decodeArgumentsFrom, several, bind_eq_ok_iff, map_eq_ok_iff]

/-- Any other type takes one argument. -/
lemma decodeArgumentsFrom_single (single : t.firstParameter? .variadic = none) (arg : Bytes) :
    decodeArgumentsFrom index (t :: ts) (arg :: args) = .ok vs ↔
      ∃ v others, decodeTop t arg = .ok v ∧
        decodeArgumentsFrom (index + 1) ts args = .ok others ∧ v :: others = vs := by
  simp [decodeArgumentsFrom, single, bind_eq_ok_iff, map_eq_ok_iff]

/-- Any other type is absent where no argument is left. -/
lemma decodeArgumentsFrom_nil (single : t.firstParameter? .variadic = none) :
    decodeArgumentsFrom index (t :: ts) [] = .ok vs ↔
      ∃ v others, absent? t = some v ∧
        decodeArgumentsFrom (index + 1) ts [] = .ok others ∧ v :: others = vs := by
  simp only [decodeArgumentsFrom, single, decodeAbsent]
  cases absent? t <;> simp [map_eq_ok_iff]

/-- Without types, only no arguments are decoded. -/
lemma decodeArgumentsFrom_nil_eq_ok_iff :
    decodeArgumentsFrom index [] args = .ok vs ↔ args = [] ∧ vs = [] := by
  cases args <;> simp [decodeArgumentsFrom, eq_comm]

/-- The first value is made of the share of its type, the others of what is left behind it. -/
lemma decodeArgumentsFrom_cons_eq_ok_iff :
    decodeArgumentsFrom index (t :: ts) args = .ok vs ↔
      ∃ v others, IsMadeOf t (share (leading (t :: ts)) args 0) v ∧
        decodeArgumentsFrom (index + 1) ts (unshared (t :: ts) args) = .ok others ∧
          v :: others = vs := by
  cases several : t.firstParameter? .variadic with
  | some element =>
    have spans : (t.firstParameter? .variadic).isSome := by simp [several]
    simp only [decodeArgumentsFrom_variadic several, leading_of_variadic spans, share_zero_zero,
      isMadeOf_variadic_iff several, unshared_of_variadic spans]
    refine ⟨fun h => ?_, fun h => ?_⟩
    · obtain ⟨items, others, decoded, behind, rfl⟩ := h
      exact ⟨_, others, ⟨items, decoded, rfl⟩, behind, rfl⟩
    · obtain ⟨_, others, ⟨items, decoded, rfl⟩, behind, rfl⟩ := h
      exact ⟨items, others, decoded, behind, rfl⟩
  | none =>
    cases args with
    | nil =>
      simp only [decodeArgumentsFrom_nil several, share_nil, isMadeOf_nil_iff several, unshared,
        List.drop_nil]
    | cons arg args =>
      simp only [decodeArgumentsFrom_single several, leading_of_single several, share_succ_zero,
        isMadeOf_singleton_iff several, unshared_of_single several]

/-- Without types, only no values are made of no arguments. -/
lemma isDealt_nil_iff : IsDealt [] args vs ↔ args = [] ∧ vs = [] := by
  refine ⟨fun h => ?_, fun h => ?_⟩
  · exact ⟨List.eq_nil_of_length_eq_zero (Nat.le_zero.mp (h.length_le rfl)),
      List.eq_nil_of_length_eq_zero h.length_eq⟩
  · obtain ⟨rfl, rfl⟩ := h
    exact ⟨rfl, fun _ => Nat.zero_le _, by simp⟩

/-- Values are made by position exactly if the first is made of its share and the others of what is
left. -/
lemma isDealt_cons_iff :
    IsDealt (t :: ts) args vs ↔
      ∃ v others, IsMadeOf t (share (leading (t :: ts)) args 0) v ∧
        IsDealt ts (unshared (t :: ts) args) others ∧ v :: others = vs := by
  refine ⟨fun h => ?_, fun h => ?_⟩
  · obtain ⟨size, few, made⟩ := h
    cases vs with
    | nil => simp at size
    | cons v vs =>
      have first := made 0 t v rfl rfl
      have behind := (length_le_leading_cons_iff t ts args).mp few
      refine ⟨v, vs, first, ⟨Nat.succ.inj size, behind, fun i u w hu hw => ?_⟩, rfl⟩
      rw [← share_leading_succ]
      exact made (i + 1) u w hu hw
  · obtain ⟨v, others, first, ⟨size, few, made⟩, rfl⟩ := h
    have behind := (length_le_leading_cons_iff t ts args).mpr few
    refine ⟨congrArg Nat.succ size, behind, fun i u w hu hw => ?_⟩
    cases i with
    | zero =>
      obtain rfl := Option.some.inj hu
      obtain rfl := Option.some.inj hw
      exact first
    | succ i =>
      rw [share_leading_succ]
      exact made i u w hu hw

/-- From any position on, arguments are decoded exactly to the values that are made of them by
position. -/
lemma decodeArgumentsFrom_eq_ok_iff_isDealt (index : Nat) :
    decodeArgumentsFrom index ts args = .ok vs ↔ IsDealt ts args vs := by
  induction ts generalizing index args vs with
  | nil => rw [decodeArgumentsFrom_nil_eq_ok_iff, isDealt_nil_iff]
  | cons t ts ih => simp only [decodeArgumentsFrom_cons_eq_ok_iff, ih, isDealt_cons_iff]

/-- A list of arguments is decoded to values exactly if there is one for each type and each is made
of the share of its type: a type in front of the first `variadic` is decoded from the argument at its
place or is absent where there is none, the `variadic` is decoded from all arguments that follow, and
the types behind it are absent or a `variadic` without items. The shares, in the order of the types,
are then all the arguments, so each is decoded once and none is dropped. -/
theorem decodeArguments_eq_ok_iff_isDealt (ts : List Ty) (args : List Bytes) (vs : List Value) :
    (decodeArguments ts args = .ok vs ↔ IsDealt ts args vs) ∧
    (decodeArguments ts args = .ok vs →
      (List.range ts.length).flatMap (share (leading ts) args) = args) := by
  have dealt : decodeArguments ts args = .ok vs ↔ IsDealt ts args vs :=
    decodeArgumentsFrom_eq_ok_iff_isDealt 0
  refine ⟨dealt, fun e => ?_⟩
  exact (flatMap_share_eq_iff (leading_le ts)).mpr (dealt.mp e).length_le

/-- A `variadic` that does not stand last leaves nothing for the types behind it. -/
theorem decodeArguments_eq_ok_iff_isDealt_inner :
    let flag := Ty.primitive .bool
    let ts := [flag, .variadic flag, .option flag, .variadic flag]
    let args := [[1], [0], [1]]
    let vs := [bool true, variadic flag [bool false, bool true], absent flag, variadic flag []]
    decodeArguments ts args = .ok vs ∧ IsDealt ts args vs ∧
      (List.range 4).flatMap (share 1 args) = args := by
  intro flag ts args vs
  obtain ⟨dealt, all⟩ := decodeArguments_eq_ok_iff_isDealt ts args vs
  have decoded : decodeArguments ts args = .ok vs := rfl
  exact ⟨decoded, dealt.mp decoded, all decoded⟩

end ContractCalls.Value

import ContractCalls.Proofs.Codec.Form

/-!
# The check of a count of items

Before the items of a list or an array are read, their count is compared with the bytes that are
left, by the least size of the items. `readWith` is the reader of nested values with this check left
open. With a check that only limits items without bytes it has the same results and leaves the same
bytes (`readWith_agrees`): items that are read fill what the full check asks for
(`checkCount_times_agree`), so that refuses only what would fail further on.
-/

namespace ContractCalls

namespace Reader

variable {α β : Type} {x y z : Reader α} {f g : α → Reader β}

/-- How a count of items is checked, given the type of their container and their own type. -/
abbrev CountCheck := Ty → Ty → Nat → Reader Unit

/-- Refuses a count only of items that may take no bytes, beyond the limit. -/
def checkEmptyItems : CountCheck := fun type element count =>
  if element.minWidth = 0 ∧ maxEmptyItems < count then
    fail (.tooManyItems type count maxEmptyItems)
  else return ()

/-- Two readers have the same results and leave the same bytes behind them; they may fail in
different ways. -/
def Agree (x y : Reader α) : Prop :=
  ∀ bs a rest, x bs = (.ok a, rest) ↔ y bs = (.ok a, rest)

/-- A reader agrees with itself. -/
lemma Agree.refl (x : Reader α) : x.Agree x :=
  fun _ _ _ => Iff.rfl

/-- Agreement carries over from one reader to the next. -/
lemma Agree.trans (h : x.Agree y) (h' : y.Agree z) : x.Agree z :=
  fun bs a rest => (h bs a rest).trans (h' bs a rest)

/-- Readers in two steps agree if both steps do. -/
lemma Agree.bind (h : x.Agree y) (h' : ∀ a, (f a).Agree (g a)) : (x >>= f).Agree (y >>= g) := by
  intro bs b rest
  simp only [bind_eq_ok_iff, h bs, h' _ _ b rest]

/-- What is read behind the same reader may be replaced. -/
lemma Agree.behind (x : Reader α) (h : ∀ a, (f a).Agree (g a)) : (x >>= f).Agree (x >>= g) :=
  .bind (.refl x) h

/-- Readers agree as often as they are repeated. -/
lemma Agree.times (h : x.Agree y) (n : Nat) : (times x n).Agree (times y n) := by
  induction n with
  | zero => exact .refl _
  | succ n ih => exact .bind h fun _ => .bind ih fun _ => .refl _

/-- The reduced check passes exactly if items that may take no bytes are within the limit, and takes
no bytes. -/
lemma checkEmptyItems_eq_ok_iff {type element : Ty} {count : Nat} {bs rest : Bytes} :
    checkEmptyItems type element count bs = (.ok (), rest) ↔
      (element.minWidth = 0 → count ≤ maxEmptyItems) ∧ bs = rest := by
  rw [checkEmptyItems]
  split_ifs with many
  · simp [many.1, not_le.mpr many.2]
  · simp only [not_and, not_lt] at many
    rw [pure_eq_ok_iff]
    exact ⟨fun same => ⟨many, same.2⟩, fun h => ⟨rfl, h.2⟩⟩

end Reader

namespace Value

open Reader (CountCheck checkCount checkEmptyItems times checkCount_eq_ok_iff
  checkEmptyItems_eq_ok_iff)

variable {check : CountCheck} {t : Ty} {n : Nat}

/-! ## Readers with any check -/

mutual

/-- Reads a nested value of a type, where counts of items are checked in the given way. -/
def readWith (check : CountCheck) : Ty → Reader Value
  | .primitive p => readPrimitive p
  | .generic g params =>
    match g, params with
    | .option, p :: ps =>
      return .option p (← readOption (.generic .option (p :: ps)) (readWith check p))
    | .list, p :: ps => do
      let count ← Reader.takeLength (.generic .list (p :: ps))
      check (.generic .list (p :: ps)) p count
      return .list p (← times (readWith check p) count)
    | .tuple, params => return .tuple (← readAllWith check params)
    | .optional, params => Reader.fail (.notNestable (.generic .optional params))
    | .variadic, params => Reader.fail (.notNestable (.generic .variadic params))
    | g, [] => Reader.fail (.underflow (.generic g []) 1 0)
  | .array length element => do
    check (.array length element) element length.toNat
    return .array element (← times (readWith check element) length.toNat)
  | .struct name fields => return .struct (.struct name fields) (← readFieldsWith check fields)
  | .enum name variants => do
    let discriminant ← Reader.takeByte (.enum name variants)
    return .enum (.enum name variants) discriminant
      (← readVariantWith check (.enum name variants) discriminant variants)

/-- Reads nested values of several types. -/
def readAllWith (check : CountCheck) : List Ty → Reader (List Value)
  | [] => return []
  | t :: ts => return (← readWith check t) :: (← readAllWith check ts)

/-- Reads nested values of several fields. -/
def readFieldsWith (check : CountCheck) : List (Field Ty) → Reader (List Value)
  | [] => return []
  | ⟨_, t⟩ :: fields => return (← readWith check t) :: (← readFieldsWith check fields)

/-- Reads the fields of the first variant with a discriminant. -/
def readVariantWith (check : CountCheck) (owner : Ty) (discriminant : UInt8) :
    List (Variant Ty) → Reader (List Value)
  | [] => Reader.fail (.invalidDiscriminant owner discriminant)
  | ⟨d, _, fields⟩ :: variants =>
    if d = discriminant then readFieldsWith check fields
    else readVariantWith check owner discriminant variants

end

mutual

/-- With the check of the reader, it is the reader. -/
lemma readWith_checkCount : (t : Ty) → readWith checkCount t = read t
  | .primitive p => by rw [readWith, read]
  | .generic g params => by
    cases g <;> cases params <;>
      simp only [readWith, read, readWith_checkCount, readAllWith_checkCount]
  | .array length element => by simp only [readWith, read, readWith_checkCount]
  | .struct name fields => by simp only [readWith, read, readFieldsWith_checkCount]
  | .enum name variants => by simp only [readWith, read, readVariantWith_checkCount]

/-- With the check of the decoder, types one after another are read as by the decoder. -/
lemma readAllWith_checkCount : (ts : List Ty) → readAllWith checkCount ts = readAll ts
  | [] => rfl
  | t :: ts => by simp only [readAllWith, readAll, readWith_checkCount, readAllWith_checkCount]

/-- With the check of the decoder, fields are read as by the decoder. -/
lemma readFieldsWith_checkCount :
    (fields : List (Field Ty)) → readFieldsWith checkCount fields = readFields fields
  | [] => rfl
  | ⟨_, t⟩ :: fields => by
    simp only [readFieldsWith, readFields, readWith_checkCount, readFieldsWith_checkCount]

/-- With the check of the decoder, the fields of a variant are read as by the decoder. -/
lemma readVariantWith_checkCount (owner : Ty) (d : UInt8) : (variants : List (Variant Ty)) →
    readVariantWith checkCount owner d variants = readVariant owner d variants
  | [] => rfl
  | ⟨_, _, fields⟩ :: variants => by
    simp only [readVariantWith, readVariant, readFieldsWith_checkCount, readVariantWith_checkCount]

end

/-! ## The check makes no difference -/

/-- In front of the items themselves, the check refuses nothing but too many items without bytes. -/
lemma checkCount_times_agree (owner : Ty) (t : Ty) (n : Nat) (f : List Value → Reader Value) :
    (do checkEmptyItems owner t n; let vs ← times (read t) n; f vs).Agree
      (do checkCount owner t n; let vs ← times (read t) n; f vs) := by
  intro bs v rest
  simp only [Reader.bind_eq_ok_iff]
  refine ⟨fun h => ?_, fun h => ?_⟩
  · obtain ⟨_, _, passed, vs, mid, items, made⟩ := h
    obtain ⟨few, rfl⟩ := checkEmptyItems_eq_ok_iff.mp passed
    obtain ⟨front, rfl, rfl, forms, -⟩ := areForms_of_times (readsForms t) items
    exact ⟨(), _, checkCount_append owner forms few mid, vs, mid, items, made⟩
  · obtain ⟨_, _, counted, others⟩ := h
    obtain ⟨-, rfl⟩ := checkCount_eq_ok_iff.mp counted
    exact ⟨(), _, checkEmptyItems_eq_ok_iff.mpr ⟨le_of_checkCount counted, rfl⟩, others⟩

/-- Readers of an optional content agree if the readers of the content do. -/
lemma readOption_agree (owner : Ty) {x y : Reader Value} (h : x.Agree y) :
    (readOption owner x).Agree (readOption owner y) := by
  refine .behind _ fun mark => ?_
  split_ifs
  · exact .refl _
  · exact .bind h fun _ => .refl _
  · exact .refl _

mutual

/-- The reader that only limits items without bytes has the results of the one with the full check.
-/
lemma readWith_agrees : (t : Ty) → (readWith checkEmptyItems t).Agree (read t)
  | .primitive p => by
    rw [readWith, read]
    exact .refl _
  | .generic g params => by
    cases g with
    | option =>
      cases params with
      | nil => exact .refl _
      | cons p ps => exact .bind (readOption_agree _ (readWith_agrees p)) fun _ => .refl _
    | list =>
      cases params with
      | nil => exact .refl _
      | cons p ps =>
        refine .behind _ fun count => .trans ?_ (checkCount_times_agree _ p count _)
        exact .behind _ fun _ => .bind ((readWith_agrees p).times count) fun _ => .refl _
    | tuple => exact .bind (readAllWith_agrees params) fun _ => .refl _
    | optional => cases params <;> exact .refl _
    | variadic => cases params <;> exact .refl _
  | .array length element => by
    refine .trans ?_ (checkCount_times_agree (.array length element) element length.toNat _)
    exact .behind _ fun _ => .bind ((readWith_agrees element).times length.toNat) fun _ => .refl _
  | .struct name fields => .bind (readFieldsWith_agrees fields) fun _ => .refl _
  | .enum name variants =>
    .behind _ fun d =>
      .bind (readVariantWith_agrees (.enum name variants) d variants) fun _ => .refl _

/-- With the reduced check, types one after another have the same results as in the decoder. -/
lemma readAllWith_agrees : (ts : List Ty) → (readAllWith checkEmptyItems ts).Agree (readAll ts)
  | [] => .refl _
  | t :: ts => .bind (readWith_agrees t) fun _ => .bind (readAllWith_agrees ts) fun _ => .refl _

/-- With the reduced check, fields have the same results as in the decoder. -/
lemma readFieldsWith_agrees :
    (fields : List (Field Ty)) → (readFieldsWith checkEmptyItems fields).Agree (readFields fields)
  | [] => .refl _
  | ⟨_, t⟩ :: fields =>
    .bind (readWith_agrees t) fun _ => .bind (readFieldsWith_agrees fields) fun _ => .refl _

/-- With the reduced check, the fields of a variant have the same results as in the decoder. -/
lemma readVariantWith_agrees (owner : Ty) (d : UInt8) : (variants : List (Variant Ty)) →
    (readVariantWith checkEmptyItems owner d variants).Agree (readVariant owner d variants)
  | [] => .refl _
  | ⟨_, _, fields⟩ :: variants => by
    rw [readVariantWith, readVariant]
    split_ifs
    · exact readFieldsWith_agrees fields
    · exact readVariantWith_agrees owner d variants

end

/-- The check of a count is not seen where a value is read. With its own check in place `readWith` is
the reader; with the check reduced to the limit on items without bytes it reads a value of a type, at
any place of any bytes, exactly if the reader does, and it gives the same value and leaves the same
bytes. -/
theorem read_eq_ok_iff_checkEmptyItems (t : Ty) (data : Bytes) (start : Nat) :
    readWith checkCount t = read t ∧
    ∀ v rest, read t (data.drop start) = (.ok v, rest) ↔
      readWith checkEmptyItems t (data.drop start) = (.ok v, rest) :=
  ⟨readWith_checkCount t, fun v rest => (readWith_agrees t (data.drop start) v rest).symm⟩

end Value

end ContractCalls

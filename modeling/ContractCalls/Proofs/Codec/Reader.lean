import ContractCalls.Codec.Decode
import ContractCalls.Codec.Encode
import ContractCalls.Proofs.Bytes.BigEndian
import ContractCalls.Proofs.Outcome

/-!
# What readers take

When a reader has a result, and which bytes it leaves: one equivalence for each way to build a
reader. Read from right to left they run a reader on bytes that are known, from left to right they
tell which bytes a result was read from.
-/

namespace ContractCalls

namespace Reader

variable {α β : Type} {a : α} {b : β} {bs rest : Bytes} {t : Ty} {n : Nat}

/-- Nothing is read for a result that is given. -/
@[simp]
lemma pure_eq_ok_iff {a' : α} : (pure a : Reader α) bs = (.ok a', rest) ↔ a = a' ∧ bs = rest := by
  change (Except.ok a, bs) = (.ok a', rest) ↔ _
  simp

/-- Two readers have a result if the second one has it on the bytes that the first one leaves. -/
lemma bind_eq_ok_iff {x : Reader α} {f : α → Reader β} :
    (x >>= f) bs = (.ok b, rest) ↔ ∃ a mid, x bs = (.ok a, mid) ∧ f a mid = (.ok b, rest) := by
  change Reader.bind x f bs = _ ↔ _
  unfold Reader.bind
  split <;> simp_all

/-- A result without reading leaves all bytes. -/
@[simp]
lemma ofExcept_eq_ok_iff {result : Except CodecError α} :
    ofExcept result bs = (.ok a, rest) ↔ result = .ok a ∧ bs = rest := by
  simp [ofExcept]

/-- A reader that fails has no result. -/
@[simp]
lemma fail_ne_ok {e : CodecError} : (fail e : Reader α) bs ≠ (.ok a, rest) := by
  simp [fail]

/-- Bytes that are taken stand at the front. -/
lemma take_eq_ok_iff {front : { bs : Bytes // bs.length = n }} :
    take t n bs = (.ok front, rest) ↔ bs = front.val ++ rest := by
  obtain ⟨front, size⟩ := front
  unfold take
  split
  · simp only [Prod.mk.injEq, Except.ok.injEq, Subtype.mk.injEq]
    refine ⟨fun h => ?_, fun h => ?_⟩
    · obtain ⟨rfl, rfl⟩ := h
      exact (List.take_append_drop n bs).symm
    · obtain rfl := h
      simp [← size]
  · next short =>
    simp only [Prod.mk.injEq, reduceCtorEq, false_and, false_iff]
    intro same
    subst same
    simp [← size] at short

/-- A byte that is taken stands at the front. -/
lemma takeByte_eq_ok_iff {c : UInt8} : takeByte t bs = (.ok c, rest) ↔ bs = c :: rest := by
  simp only [takeByte, bind_eq_ok_iff, take_eq_ok_iff, pure_eq_ok_iff]
  refine ⟨fun h => ?_, fun h => ?_⟩
  · obtain ⟨⟨front, size⟩, _, rfl, rfl, rfl⟩ := h
    obtain ⟨c, rfl⟩ := List.length_eq_one_iff.mp size
    rfl
  · obtain rfl := h
    exact ⟨⟨[c], rfl⟩, rest, rfl, rfl, rfl⟩

/-- A length that is taken stands at the front, in four bytes. -/
lemma takeLength_eq_ok_iff :
    takeLength t bs = (.ok n, rest) ↔
      n < Value.lengthBound ∧ bs = Bytes.ofNatFixed 4 n ++ rest := by
  simp only [takeLength, bind_eq_ok_iff, take_eq_ok_iff, pure_eq_ok_iff]
  refine ⟨fun h => ?_, fun h => ?_⟩
  · -- Four bytes are the digits of their number.
    obtain ⟨⟨front, size⟩, _, rfl, rfl, rfl⟩ := h
    refine ⟨by simpa [size, Value.lengthBound] using Bytes.toNat_lt front, ?_⟩
    have digits := Bytes.ofNatFixed_toNat front
    rw [size] at digits
    rw [digits]
  · obtain ⟨small, rfl⟩ := h
    refine ⟨⟨Bytes.ofNatFixed 4 n, by simp⟩, rest, rfl, ?_, rfl⟩
    rw [Bytes.toNat_ofNatFixed]
    exact Nat.mod_eq_of_lt small

/-- Bytes that are taken behind their length stand at the front, behind it. -/
lemma takePrefixed_eq_ok_iff {payload : Bytes} :
    takePrefixed t bs = (.ok payload, rest) ↔
      payload.length < Value.lengthBound ∧
        bs = Bytes.ofNatFixed 4 payload.length ++ payload ++ rest := by
  simp only [takePrefixed, bind_eq_ok_iff, takeLength_eq_ok_iff, take_eq_ok_iff, pure_eq_ok_iff]
  refine ⟨fun h => ?_, fun h => ?_⟩
  · obtain ⟨_, _, ⟨small, rfl⟩, ⟨front, rfl⟩, _, rfl, rfl, rfl⟩ := h
    exact ⟨small, by simp⟩
  · obtain ⟨small, rfl⟩ := h
    exact ⟨_, payload ++ rest, ⟨small, by simp⟩, ⟨payload, rfl⟩, rest, rfl, rfl, rfl⟩

/-- A count of items passes if there are few of them or, unless they may take no bytes, enough bytes
are left. -/
lemma checkCount_eq_ok_iff {element : Ty} :
    checkCount t element n bs = (.ok (), rest) ↔
      (if element.minWidth = 0 then n ≤ maxEmptyItems
        else Ty.saturate (n * element.minWidth) ≤ bs.length) ∧ bs = rest := by
  simp only [checkCount]
  split_ifs with zero many short
  · simp [not_le.mpr many]
  · simp [not_lt.mp many]
  · simp [not_le.mpr short]
  · simp [not_lt.mp short]

/-- Read no times, a reader takes nothing. -/
@[simp]
lemma times_zero_eq_ok_iff {x : Reader α} {as : List α} :
    times x 0 bs = (.ok as, rest) ↔ [] = as ∧ bs = rest := by
  simp [times]

/-- Read once more, a reader takes one value in front of the others. -/
lemma times_succ_eq_ok_iff {x : Reader α} {as : List α} :
    times x (n + 1) bs = (.ok as, rest) ↔
      ∃ a mid tail, x bs = (.ok a, mid) ∧ times x n mid = (.ok tail, rest) ∧ a :: tail = as := by
  simp only [times, bind_eq_ok_iff, pure_eq_ok_iff]
  refine ⟨fun h => ?_, fun h => ?_⟩
  · obtain ⟨a, mid, ha, tail, _, htail, rfl, rfl⟩ := h
    exact ⟨a, mid, tail, ha, htail, rfl⟩
  · obtain ⟨a, mid, tail, ha, htail, rfl⟩ := h
    exact ⟨a, mid, ha, tail, rest, htail, rfl, rfl⟩

end Reader

namespace Value

variable {t : Ty} {v : Value} {bs : Bytes}

/-- Fields are read as their types, one after another. -/
lemma readFields_eq (fields : List (Field Ty)) :
    readFields fields = readAll (fields.map (·.type)) := by
  induction fields with
  | nil => rfl
  | cons field fields ih => simp [readFields, readAll, ih]

/-- Reading a variant is reading the types of the fields of the first one with the discriminant. -/
lemma readVariant_eq_of_find? {owner : Ty} {d : UInt8} {variants : List (Variant Ty)}
    {variant : Variant Ty} (found : variants.find? (·.discriminant = d) = some variant) :
    readVariant owner d variants = readAll (variant.fields.map (·.type)) := by
  induction variants with
  | nil => simp at found
  | cons first variants ih =>
    by_cases h : first.discriminant = d
    · simp only [List.find?_cons, h, decide_true, Option.some.injEq] at found
      simp [readVariant, ← found, h, readFields_eq]
    · simp only [List.find?_cons, h, decide_false] at found
      simp [readVariant, h, ih found]

/-- Bytes are decoded to a value that reading them gives, if it leaves none. -/
lemma decodeNested_eq_ok_iff : decodeNested t bs = .ok v ↔ read t bs = (.ok v, []) := by
  unfold decodeNested
  split <;> simp_all

end Value

end ContractCalls

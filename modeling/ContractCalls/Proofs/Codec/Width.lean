import ContractCalls.Codec.Width
import ContractCalls.Proofs.Codec.Leaf
import ContractCalls.Proofs.Ty.Nodes

/-!
# The least size of a type is one

`Ty.exactWidth` is the least size of a type where numbers have no bound. The least size in 64 bits is
never more (`minWidth_le_exactWidth`), and the same where the exact one is a number of 64 bits
(`minWidth_eq_exactWidth`). It is zero for the same types, unless the sum over the items of a tuple
wraps around; `tupleFits` says that a tuple's does not. A decoder that checks its arithmetic stops on
such a type instead of wrapping around, so theorems that promise a result leave these types out also
where the proof could do without.

Bytes fill a size if they are at least as many, and none where it is zero. The first is what makes the
check of a count of items pass for bytes that were written, the second is why lists of items without
bytes cannot be told apart at the top level. Here for values of primitive types, for all nested forms
in `IsForm.fills`.
-/

namespace ContractCalls

namespace Ty

mutual

/-- The fewest bytes of a nested value, where numbers have no bound. -/
def exactWidth : Ty → Nat
  | .primitive p => p.fixedWidth?.getD 4
  | .generic g params =>
    match g with
    | .option => 1
    | .list => 4
    | .tuple => exactWidths params
    | .optional => 0
    | .variadic => 0
  | .array length element => length.toNat * element.exactWidth
  | .struct _ fields => exactWidthFields fields
  | .enum _ _ => 1

/-- The fewest bytes of the items of a tuple, where numbers have no bound. -/
def exactWidths : List Ty → Nat
  | [] => 0
  | t :: ts => t.exactWidth + exactWidths ts

/-- The fewest bytes of the fields of a struct, where numbers have no bound. -/
def exactWidthFields : List (Field Ty) → Nat
  | [] => 0
  | ⟨_, t⟩ :: fields => t.exactWidth + exactWidthFields fields

end

/-- Whether the least sizes of the items of a tuple add up to a number of 64 bits. -/
def tupleFits : Ty → Bool
  | .generic .tuple params => (params.map minWidth).sum ≤ maxSize
  | _ => true

variable {t : Ty}

/-! ## Sums and products -/

/-- A size that stops growing is no more than before. -/
lemma saturate_le (n : Nat) : saturate n ≤ n :=
  min_le_left _ _

/-- A size that wraps around is no more than before. -/
lemma wrap_le (n : Nat) : wrap n ≤ n :=
  Nat.mod_le _ _

/-- A size of 64 bits is not cut. -/
lemma saturate_of_le {n : Nat} (h : n ≤ maxSize) : saturate n = n :=
  min_eq_left h

/-- A size of 64 bits does not wrap around. -/
lemma wrap_of_le {n : Nat} (h : n ≤ maxSize) : wrap n = n :=
  Nat.mod_eq_of_lt (Nat.lt_succ_of_le h)

/-- A size that stops growing is zero only if it was before. -/
lemma saturate_eq_zero_iff {n : Nat} : saturate n = 0 ↔ n = 0 := by
  simp only [saturate, maxSize]
  omega

/-- The least size of the items of a tuple is the sum of theirs, wrapped around once. -/
lemma minWidths_eq (ts : List Ty) : minWidths ts = wrap (ts.map minWidth).sum := by
  induction ts with
  | nil => rfl
  | cons t ts ih =>
    rw [minWidths, ih, List.map_cons, List.sum_cons, wrap, wrap, wrap, Nat.add_mod_mod]

/-- The least size of the fields of a struct is the sum of theirs, where that stops growing. -/
lemma minWidthFields_eq (fields : List (Field Ty)) :
    minWidthFields fields = saturate ((fields.map (·.type)).map minWidth).sum := by
  induction fields with
  | nil => rfl
  | cons field fields ih =>
    simp only [minWidthFields, ih, List.map_cons, List.sum_cons, saturate]
    omega

/-- The exact least size of the items of a tuple is the sum of theirs. -/
lemma exactWidths_eq (ts : List Ty) : exactWidths ts = (ts.map exactWidth).sum := by
  induction ts with
  | nil => rfl
  | cons t ts ih => rw [exactWidths, ih, List.map_cons, List.sum_cons]

/-- The exact least size of the fields of a struct is that of their types. -/
lemma exactWidthFields_eq (fields : List (Field Ty)) :
    exactWidthFields fields = exactWidths (fields.map (·.type)) := by
  induction fields with
  | nil => rfl
  | cons field fields ih => rw [exactWidthFields, ih, List.map_cons, exactWidths]

/-- Items of one type take so many times its exact least size. -/
lemma exactWidths_replicate (n : Nat) (t : Ty) :
    exactWidths (List.replicate n t) = n * t.exactWidth := by
  simp [exactWidths_eq]

/-- Items take no bytes exactly if none of their types asks for any. -/
lemma exactWidths_eq_zero_iff {ts : List Ty} :
    exactWidths ts = 0 ↔ ∀ t ∈ ts, t.exactWidth = 0 := by
  simp [exactWidths_eq, List.sum_eq_zero_iff]

/-- A primitive type asks for at least one byte. -/
lemma exactWidth_primitive_pos (p : Primitive) : 0 < (primitive p).exactWidth := by
  cases p with
  | int t => rcases t with ⟨_ | _, _ | _ | _ | _⟩ <;> decide
  | _ => decide

/-! ## The least size in 64 bits -/

/-- The least size in 64 bits is no more than the exact one. -/
lemma minWidth_le_exactWidth (t : Ty) : t.minWidth ≤ t.exactWidth := by
  induction t with
  | primitive p => exact le_rfl
  | generic g params ih =>
    cases g with
    | tuple =>
      rw [minWidth, minWidths_eq, exactWidth, exactWidths_eq]
      exact (wrap_le _).trans (List.sum_le_sum ih)
    | _ => exact le_rfl
  | array length t ih =>
    rw [minWidth, exactWidth]
    exact (saturate_le _).trans (Nat.mul_le_mul_left _ ih)
  | struct name fields ih =>
    rw [minWidth, minWidthFields_eq, exactWidth, exactWidthFields_eq, exactWidths_eq]
    exact (saturate_le _).trans (List.sum_le_sum (List.forall_mem_map.mpr ih))
  | enum name variants ih => exact le_rfl

/-- Least sizes of types agree in 64 bits if their exact sum is a number of 64 bits. -/
lemma map_minWidth_eq {ts : List Ty}
    (h : ∀ t ∈ ts, t.exactWidth ≤ maxSize → t.minWidth = t.exactWidth)
    (small : exactWidths ts ≤ maxSize) : (ts.map minWidth).sum = exactWidths ts := by
  rw [exactWidths_eq] at small ⊢
  refine congrArg List.sum (List.map_congr_left fun t ht => h t ht (le_trans ?_ small))
  exact List.single_le_sum (by simp) _ (List.mem_map_of_mem ht)

/-- The least size in 64 bits is the exact one if that is a number of 64 bits. -/
lemma minWidth_eq_exactWidth (small : t.exactWidth ≤ maxSize) : t.minWidth = t.exactWidth := by
  induction t with
  | primitive p => rfl
  | generic g params ih =>
    cases g with
    | tuple =>
      rw [exactWidth] at small
      rw [minWidth, minWidths_eq, map_minWidth_eq ih small, wrap_of_le small, exactWidth]
    | _ => rfl
  | array length t ih =>
    rw [exactWidth] at small
    rcases Nat.eq_zero_or_pos length.toNat with empty | nonempty
    · rw [minWidth, exactWidth, empty, Nat.zero_mul, Nat.zero_mul, saturate_eq_zero_iff]
    · have item := ih ((Nat.le_mul_of_pos_left _ nonempty).trans small)
      rw [minWidth, exactWidth, item, saturate_of_le small]
  | struct name fields ih =>
    rw [exactWidth, exactWidthFields_eq] at small
    have sum := map_minWidth_eq (List.forall_mem_map.mpr ih) small
    rw [minWidth, minWidthFields_eq, sum, saturate_of_le small, exactWidth, exactWidthFields_eq]
  | enum name variants ih => rfl

/-- A type in which no tuple wraps around asks for no bytes in 64 bits only if it asks for none. -/
lemma exactWidth_eq_zero (fits : t.All (·.tupleFits)) (zero : t.minWidth = 0) :
    t.exactWidth = 0 := by
  induction t with
  | primitive p => exact zero
  | generic g params ih =>
    cases g with
    | tuple =>
      have small : (params.map minWidth).sum ≤ maxSize := by simpa [tupleFits] using fits.root
      rw [minWidth, minWidths_eq, wrap_of_le small, List.sum_eq_zero_iff,
        List.forall_mem_map] at zero
      rw [exactWidth, exactWidths_eq_zero_iff]
      exact fun t ht => ih t ht (fits.param ht) (zero t ht)
    | _ => exact zero
  | array length t ih =>
    rw [minWidth, saturate_eq_zero_iff] at zero
    rw [exactWidth]
    rcases Nat.mul_eq_zero.mp zero with empty | item
    · rw [empty, Nat.zero_mul]
    · rw [ih fits.element item, Nat.mul_zero]
  | struct name fields ih =>
    rw [minWidth, minWidthFields_eq, saturate_eq_zero_iff, List.sum_eq_zero_iff,
      List.forall_mem_map] at zero
    rw [exactWidth, exactWidthFields_eq, exactWidths_eq_zero_iff]
    intro t ht
    obtain ⟨field, hf, rfl⟩ := List.mem_map.mp ht
    exact ih field hf (fits.fieldType _ ht) (zero _ ht)
  | enum name variants ih => exact zero

-- Two arrays take one byte more than the greatest size together, and their tuple asks for none.
example :
    let pair := tuple (List.replicate 2 (.array 0x8000000000000000 (.primitive .u8)))
    pair.minWidth = 0 ∧ pair.exactWidth = maxSize + 1 := by decide

end Ty

/-- Bytes are at least so many, and none where none are asked for. -/
def Fills (width : Nat) (bs : Bytes) : Prop :=
  width ≤ bs.length ∧ (width = 0 → bs = [])

namespace Fills

variable {m n : Nat} {bs cs : Bytes}

/-- No bytes fill nothing. -/
lemma nil : Fills 0 [] :=
  ⟨le_rfl, fun _ => rfl⟩

/-- Bytes are as many as a positive number that their number reaches. -/
lemma of_pos (pos : 0 < n) (h : n ≤ bs.length) : Fills n bs :=
  ⟨h, fun zero => absurd zero (by omega)⟩

/-- Bytes behind bytes are as many as both together. -/
lemma append (hb : Fills m bs) (hc : Fills n cs) : Fills (m + n) (bs ++ cs) := by
  refine ⟨by simpa using Nat.add_le_add hb.1 hc.1, fun zero => ?_⟩
  rw [hb.2 (by omega), hc.2 (by omega), List.append_nil]

end Fills

namespace Value

variable {v : Value} {bs : Bytes}

/-- The nested form of a value of a primitive type has the size that the type fixes, or starts with
a length. -/
lemma IsLeaf.fills {p : Primitive} (h : IsLeaf p v) (e : v.encodeNested = .ok bs) :
    Fills (Ty.exactWidth (.primitive p)) bs := by
  refine .of_pos (Ty.exactWidth_primitive_pos p) ?_
  cases h with
  | int t n =>
    obtain rfl : n.toBytes = bs := by simpa [encodeNested] using e
    simp [Ty.exactWidth, Primitive.fixedWidth?]
  | bool b =>
    obtain rfl : [if b then 1 else 0] = bs := by simpa [encodeNested] using e
    simp [Ty.exactWidth, Primitive.fixedWidth?]
  | address key =>
    obtain rfl : key.bytes = bs := by simpa [encodeNested] using e
    simp [Ty.exactWidth, Primitive.fixedWidth?, key.length_bytes]
  | hash key =>
    obtain rfl : key.bytes = bs := by simpa [encodeNested] using e
    simp [Ty.exactWidth, Primitive.fixedWidth?, key.length_bytes]
  | payload sizeless _ nested _ =>
    obtain ⟨-, rfl⟩ := encodePrefixed_eq_ok_iff.mp (nested ▸ e)
    simp [Ty.exactWidth, sizeless]

end Value

end ContractCalls

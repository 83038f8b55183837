import ContractCalls.Codec.Decode
import ContractCalls.Proofs.Codec.Leaf
import ContractCalls.Proofs.Codec.Reader

/-!
# Decoded values carry types of their own kind

A struct or an enum that is read carries the type it was read at, so a decoder never makes a value
with a label of the wrong kind: `wellLabelled_of_decodeNested` and `wellLabelled_of_decodeTop`. What
a reader gives is described by `Reader.Gives`, which passes along the ways to build a reader.
-/

namespace ContractCalls

namespace Reader

variable {α β : Type} {P : α → Prop} {Q : β → Prop}

/-- Whatever a reader gives has a property. -/
def Gives (P : α → Prop) (x : Reader α) : Prop :=
  ∀ ⦃bs a rest⦄, x bs = (.ok a, rest) → P a

/-- A result without reading has the property that it is known to have. -/
lemma Gives.pure {a : α} (h : P a) : Gives P (pure a) := by
  intro bs a' rest e
  obtain ⟨rfl, -⟩ := pure_eq_ok_iff.mp e
  exact h

/-- The second of two readers gives what it gives behind any result of the first. -/
lemma Gives.bind {x : Reader α} {f : α → Reader β} (hx : Gives P x)
    (hf : ∀ a, P a → Gives Q (f a)) : Gives Q (x >>= f) := by
  intro bs b rest e
  obtain ⟨a, mid, ha, hb⟩ := bind_eq_ok_iff.mp e
  exact hf a (hx ha) hb

/-- The second of two readers may give what it gives behind any result at all. -/
lemma Gives.behind {x : Reader α} {f : α → Reader β} (hf : ∀ a, Gives Q (f a)) :
    Gives Q (x >>= f) :=
  .bind (P := fun _ => True) (fun _ _ _ _ => trivial) fun a _ => hf a

/-- A reader that fails gives nothing. -/
lemma Gives.fail {e : CodecError} : Gives P (fail e) :=
  fun _ _ _ h => absurd h fail_ne_ok

/-- A result without reading has the property if the result that may be there has. -/
lemma Gives.ofExcept {result : Except CodecError α} (h : ∀ a, result = .ok a → P a) :
    Gives P (ofExcept result) :=
  fun _ a _ e => h a (ofExcept_eq_ok_iff.mp e).1

/-- What a repeated reader gives has the property of each result. -/
lemma Gives.times {x : Reader α} (h : Gives P x) (n : Nat) :
    Gives (fun as => ∀ a ∈ as, P a) (times x n) := by
  induction n with
  | zero => exact .pure (by simp)
  | succ n ih =>
    refine .bind h fun a ha => .bind ih fun as has => .pure ?_
    exact List.forall_mem_cons.mpr ⟨ha, has⟩

end Reader

namespace Value

open Reader (Gives)

variable {p : Primitive} {t : Ty} {v : Value} {bs : Bytes}

/-- A payload makes a value of its type. -/
lemma type_of_ofPayload (sizeless : p.fixedWidth? = none) (e : ofPayload p bs = .ok v) :
    v.type = .primitive p ∧ v.All IsWellLabelled := by
  cases p with
  | bigUint =>
    obtain rfl : .bigUint (Bytes.toNat bs) = v := by simpa [ofPayload] using e
    exact ⟨rfl, .leaf trivial rfl⟩
  | bigInt =>
    obtain rfl : .bigInt (Bytes.toInt bs) = v := by simpa [ofPayload] using e
    exact ⟨rfl, .leaf trivial rfl⟩
  | bytes =>
    obtain rfl : .bytes bs = v := by simpa [ofPayload] using e
    exact ⟨rfl, .leaf trivial rfl⟩
  | text =>
    obtain ⟨s, -, rfl⟩ := map_eq_ok_iff.mp e
    exact ⟨rfl, .leaf trivial rfl⟩
  | token =>
    obtain ⟨s, -, rfl⟩ := map_eq_ok_iff.mp e
    exact ⟨rfl, .leaf trivial rfl⟩
  | _ => simp [Primitive.fixedWidth?] at sizeless

/-- A value of a primitive type carries that type and nothing of the wrong kind. -/
lemma IsLeaf.type_and_wellLabelled (h : IsLeaf p v) :
    v.type = .primitive p ∧ v.All IsWellLabelled := by
  cases h with
  | payload sizeless _ _ content => exact type_of_ofPayload sizeless content
  | _ => exact ⟨rfl, .leaf trivial rfl⟩

/-- A byte is read as a truth value and as nothing else. -/
lemma exists_of_boolOfByte {b : UInt8} (e : boolOfByte t b = .ok v) : ∃ c, v = .bool c := by
  unfold boolOfByte at e
  split_ifs at e
  · exact ⟨_, (Except.ok.inj e).symm⟩
  · exact ⟨_, (Except.ok.inj e).symm⟩

/-- A value that is read at a primitive type was made for it. -/
lemma readPrimitive_gives (p : Primitive) :
    (readPrimitive p).Gives fun v => v.type = .primitive p ∧ v.All IsWellLabelled := by
  cases sizeless : p.fixedWidth? with
  | none =>
    rw [readPrimitive_eq sizeless]
    exact .behind fun bs => .ofExcept fun v e => type_of_ofPayload sizeless e
  | some width =>
    -- only the types of a fixed size are left
    cases p with
    | int t => exact .behind fun bs => .pure ⟨rfl, .leaf trivial rfl⟩
    | bool =>
      apply Gives.behind
      intro b
      apply Gives.ofExcept
      intro v e
      obtain ⟨c, rfl⟩ := exists_of_boolOfByte e
      exact ⟨rfl, .leaf trivial rfl⟩
    | address => exact .behind fun key => .pure ⟨rfl, .leaf trivial rfl⟩
    | hash => exact .behind fun key => .pure ⟨rfl, .leaf trivial rfl⟩
    | _ => simp [Primitive.fixedWidth?] at sizeless

/-- An optional content has the property of what is read as content. -/
lemma readOption_gives {P : Value → Prop} {content : Reader Value} (h : content.Gives P) :
    (readOption t content).Gives fun value => ∀ v ∈ value, P v := by
  apply Gives.behind
  intro mark
  split_ifs
  · exact .pure (by simp)
  · exact .bind h fun v hv => .pure (by simpa using hv)
  · exact .fail

/-- Values that are read one after another have the property that each reader gives. -/
lemma readAll_gives {P : Value → Prop} {ts : List Ty} (h : ∀ t ∈ ts, (read t).Gives P) :
    (readAll ts).Gives fun vs => ∀ v ∈ vs, P v := by
  induction ts with
  | nil => exact .pure (by simp)
  | cons t ts ih =>
    simp only [List.forall_mem_cons] at h
    refine .bind h.1 fun v hv => .bind (ih h.2) fun vs hvs => .pure ?_
    exact List.forall_mem_cons.mpr ⟨hv, hvs⟩

/-- The values of fields have the property that the readers of their types give. -/
lemma readFields_gives {P : Value → Prop} {fields : List (Field Ty)}
    (h : ∀ field ∈ fields, (read field.type).Gives P) :
    (readFields fields).Gives fun vs => ∀ v ∈ vs, P v := by
  rw [readFields_eq]
  apply readAll_gives
  intro t ht
  obtain ⟨field, hf, rfl⟩ := List.mem_map.mp ht
  exact h field hf

/-- The values of the fields of a variant have the property that the readers of their types give. -/
lemma readVariant_gives {P : Value → Prop} {d : UInt8} {variants : List (Variant Ty)}
    (h : ∀ variant ∈ variants, ∀ field ∈ variant.fields, (read field.type).Gives P) :
    (readVariant t d variants).Gives fun vs => ∀ v ∈ vs, P v := by
  induction variants with
  | nil => exact .fail
  | cons variant variants ih =>
    simp only [List.forall_mem_cons] at h
    rw [readVariant]
    split_ifs
    · exact readFields_gives h.1
    · exact ih h.2

/-- A value that is read carries types of the right kind only. -/
theorem read_gives (t : Ty) : (read t).Gives (All IsWellLabelled) := by
  induction t with
  | primitive p => exact fun _ _ _ e => (readPrimitive_gives p e).2
  | generic g params ih =>
    cases g with
    | option =>
      cases params with
      | nil => exact .fail
      | cons p ps =>
        refine .bind (readOption_gives (ih p (by simp))) fun value hvalue => ?_
        exact .pure (.intro trivial (by simpa [parts] using hvalue))
    | list =>
      cases params with
      | nil => exact .fail
      | cons p ps =>
        exact .behind fun count => .behind fun _ =>
          .bind ((ih p (by simp)).times count) fun vs hvs => .pure (.intro trivial hvs)
    | tuple => exact .bind (readAll_gives ih) fun vs hvs => .pure (.intro trivial hvs)
    | optional => cases params <;> exact .fail
    | variadic => cases params <;> exact .fail
  | array length element ih =>
    exact .behind fun _ => .bind (ih.times _) fun vs hvs => .pure (.intro trivial hvs)
  | struct name fields ih =>
    exact .bind (readFields_gives ih) fun vs hvs => .pure (.intro ⟨name, fields, rfl⟩ hvs)
  | enum name variants ih =>
    exact .behind fun d =>
      .bind (readVariant_gives ih) fun vs hvs => .pure (.intro ⟨name, variants, rfl⟩ hvs)

/-- A value that is decoded from a nested form carries types of the right kind only. -/
theorem wellLabelled_of_decodeNested (e : decodeNested t bs = .ok v) : v.All IsWellLabelled :=
  read_gives t (decodeNested_eq_ok_iff.mp e)

/-- Items that are read to the end have the properties of what their reader gives. -/
lemma forall_of_readItemsToEnd {P : Value → Prop} {owner : Ty} {x : Reader Value} {fuel : Nat}
    {vs : List Value} (h : x.Gives P) (e : readItemsToEnd owner x fuel bs = .ok vs) :
    ∀ v ∈ vs, P v := by
  induction fuel generalizing bs vs with
  | zero =>
    cases bs with
    | nil => simp [← Except.ok.inj e]
    | cons b bs => simp [readItemsToEnd] at e
  | succ fuel ih =>
    cases bs with
    | nil => simp [← Except.ok.inj e]
    | cons b bs =>
      simp only [readItemsToEnd] at e
      split at e
      · next v rest here =>
        split_ifs at e
        obtain ⟨others, hothers, rfl⟩ := map_eq_ok_iff.mp e
        exact List.forall_mem_cons.mpr ⟨h here, ih hothers⟩
      · simp at e

/-- A top-level value of a primitive type without a fixed size is all of its payload. -/
lemma decodeTopPrimitive_eq (sizeless : p.fixedWidth? = none) :
    decodeTopPrimitive p bs = ofPayload p bs := by
  cases p <;> first | rfl | simp [Primitive.fixedWidth?] at sizeless

/-- A value that is decoded at a primitive type was made for it. -/
lemma type_of_decodeTopPrimitive (e : decodeTopPrimitive p bs = .ok v) :
    v.type = .primitive p ∧ v.All IsWellLabelled := by
  cases sizeless : p.fixedWidth? with
  | none => exact type_of_ofPayload sizeless (decodeTopPrimitive_eq sizeless ▸ e)
  | some width =>
    cases p with
    | int t =>
      simp only [decodeTopPrimitive] at e
      split_ifs at e
      obtain rfl := Except.ok.inj e
      exact ⟨rfl, .leaf trivial rfl⟩
    | bool =>
      obtain ⟨c, rfl⟩ : ∃ c, v = .bool c := by
        rcases bs with _ | ⟨b, _ | _⟩
        · exact exists_of_boolOfByte e
        · exact exists_of_boolOfByte e
        · simp [decodeTopPrimitive] at e
      exact ⟨rfl, .leaf trivial rfl⟩
    | address =>
      simp only [decodeTopPrimitive] at e
      split_ifs at e
      exact readPrimitive_gives .address (decodeNested_eq_ok_iff.mp e)
    | hash =>
      simp only [decodeTopPrimitive] at e
      split_ifs at e
      exact readPrimitive_gives .hash (decodeNested_eq_ok_iff.mp e)
    | _ => simp [Primitive.fixedWidth?] at sizeless

/-- The ways in which a value is decoded from its top-level form. -/
inductive DecodesTop : Ty → Bytes → Value → Prop
  | primitive {p : Primitive} {bs : Bytes} {v : Value} :
    decodeTopPrimitive p bs = .ok v → DecodesTop (.primitive p) bs v
  | absent {t : Ty} {ts : List Ty} : DecodesTop (.generic .option (t :: ts)) [] (.option t none)
  | present {t : Ty} {ts : List Ty} {b : UInt8} {bs : Bytes} {v : Value} :
    DecodesTop t (b :: bs) v →
      DecodesTop (.generic .option (t :: ts)) (b :: bs) (.option t (some v))
  | absentOptional {t : Ty} {ts : List Ty} :
    DecodesTop (.generic .optional (t :: ts)) [] (.optional t none)
  | presentOptional {t : Ty} {ts : List Ty} {b : UInt8} {bs : Bytes} {v : Value} :
    DecodesTop t (b :: bs) v →
      DecodesTop (.generic .optional (t :: ts)) (b :: bs) (.optional t (some v))
  | list {t : Ty} {ts : List Ty} {bs : Bytes} {vs : List Value} :
    readItemsToEnd (.generic .list (t :: ts)) (read t) bs.length bs = .ok vs →
      DecodesTop (.generic .list (t :: ts)) bs (.list t vs)
  | nested {t : Ty} {bs : Bytes} {v : Value} : decodeNested t bs = .ok v → DecodesTop t bs v

/-- What is decoded from one argument is decoded by these rules. -/
lemma decodesTop_of_decodeTop (e : decodeTop t bs = .ok v) : DecodesTop t bs v := by
  induction t generalizing bs v with
  | primitive p => exact .primitive e
  | generic g params ih =>
    cases g with
    | option =>
      cases params with
      | nil => simp [decodeTop] at e
      | cons p ps =>
        cases bs with
        | nil =>
          obtain rfl := Except.ok.inj e
          exact .absent
        | cons b bs =>
          obtain ⟨u, hu, rfl⟩ := map_eq_ok_iff.mp e
          exact .present (ih p (by simp) hu)
    | optional =>
      cases params with
      | nil => simp [decodeTop] at e
      | cons p ps =>
        cases bs with
        | nil =>
          obtain rfl := Except.ok.inj e
          exact .absentOptional
        | cons b bs =>
          obtain ⟨u, hu, rfl⟩ := map_eq_ok_iff.mp e
          exact .presentOptional (ih p (by simp) hu)
    | list =>
      cases params with
      | nil => simp [decodeTop] at e
      | cons p ps =>
        obtain ⟨items, hitems, rfl⟩ := map_eq_ok_iff.mp e
        exact .list hitems
    | tuple => exact .nested e
    | variadic => cases params <;> simp [decodeTop] at e
  | array length element ih => exact .nested e
  | struct name fields ih => exact .nested e
  | enum name variants ih => exact .nested e

/-- The rules make values that carry types of the right kind only. -/
lemma DecodesTop.wellLabelled (h : DecodesTop t bs v) : v.All IsWellLabelled := by
  induction h with
  | primitive e => exact (type_of_decodeTopPrimitive e).2
  | absent => exact .leaf trivial rfl
  | present _ ih => exact .intro trivial (by simpa [parts] using ih)
  | absentOptional => exact .leaf trivial rfl
  | presentOptional _ ih => exact .intro trivial (by simpa [parts] using ih)
  | list e => exact .intro trivial (forall_of_readItemsToEnd (read_gives _) e)
  | nested e => exact wellLabelled_of_decodeNested e

/-- A value that is decoded from one argument carries types of the right kind only. -/
theorem wellLabelled_of_decodeTop (e : decodeTop t bs = .ok v) : v.All IsWellLabelled :=
  (decodesTop_of_decodeTop e).wellLabelled

end Value

end ContractCalls

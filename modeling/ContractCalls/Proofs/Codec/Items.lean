import ContractCalls.Proofs.Codec.Form

/-!
# Items without a count

The items of a list that is one argument have no count in front of them: they are read until no bytes
are left. `ReadsToEnd` is this loop by its steps, whose number nothing bounds. It ends on all bytes,
and the decoder, which counts the steps down, has its result (`readItemsToEnd_eq_iff`). What is read
are the nested forms of the items, one after another, as behind a count
(`readItemsToEnd_eq_ok_iff`); only items without bytes are not read, as nothing tells their number.
-/

namespace ContractCalls.Value

variable {t owner : Ty} {v : Value} {vs : List Value} {bs rest : Bytes} {fuel : Nat}
  {result result' : Except CodecError (List Value)}

/-- Items are read one after another until no bytes are left, with the items as the result, or with
the refusal of an item that is not read or takes no byte. -/
inductive ReadsToEnd (owner : Ty) (item : Reader Value) :
    Bytes → Except CodecError (List Value) → Prop
  | done : ReadsToEnd owner item [] (.ok [])
  | failed {b : UInt8} {bs rest : Bytes} {e : CodecError} :
    item (b :: bs) = (.error e, rest) → ReadsToEnd owner item (b :: bs) (.error e)
  | stuck {b : UInt8} {bs rest : Bytes} {v : Value} :
    item (b :: bs) = (.ok v, rest) → rest.length = (b :: bs).length →
      ReadsToEnd owner item (b :: bs) (.error (.trailingBytes (b :: bs).length owner))
  | next {b : UInt8} {bs rest : Bytes} {v : Value} {result : Except CodecError (List Value)} :
    item (b :: bs) = (.ok v, rest) → rest.length ≠ (b :: bs).length →
      ReadsToEnd owner item rest result → ReadsToEnd owner item (b :: bs) ((v :: ·) <$> result)

/-! ## The loop ends -/

/-- A reader leaves no more bytes than it was given. -/
lemma length_le_of_read (e : read t bs = (.ok v, rest)) : rest.length ≤ bs.length := by
  obtain ⟨front, rfl, -, -⟩ := read_eq_ok_iff.mp e
  simp

/-- The loop ends with what the decoder gives, if that may take a step for each byte. -/
lemma readsToEnd_readItemsToEnd (owner t : Ty) (enough : bs.length ≤ fuel) :
    ReadsToEnd owner (read t) bs (readItemsToEnd owner (read t) fuel bs) := by
  induction fuel generalizing bs with
  | zero =>
    obtain rfl := List.eq_nil_of_length_eq_zero (Nat.le_zero.mp enough)
    exact .done
  | succ fuel ih =>
    cases bs with
    | nil => exact .done
    | cons b bs =>
      simp only [readItemsToEnd]
      split
      · next v rest here =>
        have shorter := length_le_of_read here
        split_ifs with taken
        · -- The item took a byte, so there is a step left for each of the others.
          rw [List.length_cons] at taken enough
          have behind : rest.length ≤ fuel := by omega
          exact .next here (by simp; omega) (ih behind)
        · exact .stuck here (by omega)
      · next e rest here => exact .failed here

/-- The loop has one result. -/
lemma ReadsToEnd.unique {item : Reader Value} (h : ReadsToEnd owner item bs result)
    (h' : ReadsToEnd owner item bs result') : result = result' := by
  induction h generalizing result' with
  | done =>
    cases h' with
    | done => rfl
  | failed here =>
    cases h' with
    | failed here' =>
      cases here.symm.trans here'
      rfl
    | stuck here' => cases here.symm.trans here'
    | next here' => cases here.symm.trans here'
  | stuck here size =>
    cases h' with
    | failed here' => cases here.symm.trans here'
    | stuck here' => rfl
    | next here' size' =>
      cases here.symm.trans here'
      exact absurd size size'
  | next here size behind ih =>
    cases h' with
    | failed here' => cases here.symm.trans here'
    | stuck here' size' =>
      cases here.symm.trans here'
      exact absurd size' size
    | next here' size' behind' =>
      cases here.symm.trans here'
      rw [ih behind']

/-- The decoder gives the result of the loop. -/
lemma readItemsToEnd_eq_iff :
    readItemsToEnd owner (read t) bs.length bs = result ↔ ReadsToEnd owner (read t) bs result := by
  have ends := readsToEnd_readItemsToEnd owner t (Nat.le_refl bs.length)
  refine ⟨fun e => ?_, fun h => ends.unique h⟩
  rwa [e] at ends

/-! ## What the loop reads -/

/-- Items that the loop reads are forms one after another, and there are none if their type asks for
no bytes. -/
lemma forms_of_readsToEnd (h : ReadsToEnd owner (read t) bs result) (e : result = .ok vs) :
    AreForms (List.replicate vs.length t) bs vs ∧ (∀ v ∈ vs, v.All HasFewEmptyItems) ∧
      (t.exactWidth = 0 → vs = []) := by
  induction h generalizing vs with
  | done =>
    obtain rfl := Except.ok.inj e
    exact ⟨.nil, by simp, fun _ => rfl⟩
  | failed => cases e
  | stuck => cases e
  | @next b bs rest v result here size behind ih =>
    obtain ⟨others, rfl, rfl⟩ := map_eq_ok_iff.mp e
    obtain ⟨front, same, form, few⟩ := read_eq_ok_iff.mp here
    obtain ⟨forms, fews, -⟩ := ih rfl
    rw [same] at size ⊢
    refine ⟨.cons form forms, List.forall_mem_cons.mpr ⟨few, fews⟩, fun zero => ?_⟩
    -- An item whose type may take no bytes takes none, and then the loop does not go on.
    rw [form.fills.2 zero] at size
    exact absurd rfl size

/-- The loop reads forms one after another, if their type asks for bytes or there are none. -/
lemma readsToEnd_of_forms (owner : Ty) (forms : AreForms (List.replicate vs.length t) bs vs)
    (few : ∀ v ∈ vs, v.All HasFewEmptyItems) (taken : t.exactWidth = 0 → vs = []) :
    ReadsToEnd owner (read t) bs (.ok vs) := by
  induction vs generalizing bs with
  | nil =>
    cases forms with
    | nil => exact .done
  | cons v vs ih =>
    cases forms with
    | @cons _ _ b c _ _ form forms =>
      simp only [List.forall_mem_cons] at few
      have wide : t.exactWidth ≠ 0 := fun zero => List.cons_ne_nil v vs (taken zero)
      have here := form.read_append few.1 c
      have behind := ih forms few.2 fun zero => absurd zero wide
      cases b with
      | nil => exact absurd (Nat.le_zero.mp form.fills.1) wide
      | cons first b => exact .next here (by simp; omega) behind

/-- Items are read to the end exactly if the bytes are their forms and they take bytes. -/
lemma readItemsToEnd_eq_ok_iff :
    readItemsToEnd owner (read t) bs.length bs = .ok vs ↔
      AreForms (List.replicate vs.length t) bs vs ∧ (∀ v ∈ vs, v.All HasFewEmptyItems) ∧
        (t.exactWidth = 0 → vs = []) := by
  rw [readItemsToEnd_eq_iff]
  refine ⟨fun h => forms_of_readsToEnd h rfl, fun h => ?_⟩
  obtain ⟨forms, few, taken⟩ := h
  exact readsToEnd_of_forms owner forms few taken

/-! ## Lists with and without a count -/

end ContractCalls.Value

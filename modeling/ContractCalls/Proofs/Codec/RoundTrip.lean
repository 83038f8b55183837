import ContractCalls.Proofs.Codec.Form

/-!
# Reading what was written

Reading a type takes the nested form of a value of it from the front of bytes and leaves whatever
follows (`HasType.read_append`), because what is written is one of the forms that are read.
-/

namespace ContractCalls.Value

variable {t : Ty} {v : Value} {bs : Bytes}

/-- A value of a type is read from its nested form, and what follows is left, unless it holds more
items without bytes than are allowed. -/
theorem HasType.read_append (h : HasType t v) (e : v.encodeNested = .ok bs)
    (few : v.All HasFewEmptyItems) (s : Bytes) : read t (bs ++ s) = (.ok v, s) :=
  (h.isForm e).read_append few s

/-- Of two values of a type, neither nested form is the start of the other, unless they are the
same. -/
lemma HasType.eq_of_append {w : Value} (hv : HasType t v) (hw : HasType t w)
    (fewv : v.All HasFewEmptyItems) (feww : w.All HasFewEmptyItems) {s : Bytes}
    (ev : v.encodeNested = .ok bs) (ew : w.encodeNested = .ok (bs ++ s)) : v = w ∧ s = [] := by
  -- The same bytes are read twice.
  have readv := hv.read_append ev fewv s
  have readw := hw.read_append ew feww []
  rw [List.append_nil, readv] at readw
  simpa using readw

/-- Nested values: which have a form, and which are read back from it. A value has a nested form
exactly if each of its nodes may stand inside another and the length in front of it fits four bytes.
A value that conforms to a type and has few items without bytes is read back from its form, whatever
follows, exactly if the structs and enums in it carry types of their own kind; of two such values
neither form is the start of the other. Types in which the least size of a tuple overflows are
left out. -/
theorem nested_roundTrip (t : Ty) (v : Value) :
    ((∃ bs, v.encodeNested = .ok bs) ↔ v.All IsNestable) ∧
    ∀ bs, t.All (·.tupleFits) → conforms t v → v.encodeNested = .ok bs →
        v.All HasFewEmptyItems →
      (∀ s, read t (bs ++ s) = (.ok v, s) ↔ v.All IsWellLabelled) ∧
      (decodeNested t bs = .ok v ↔ v.All IsWellLabelled) ∧
      (v.All IsWellLabelled → ∀ w s, conforms t w → w.All IsWellLabelled →
        w.All HasFewEmptyItems → w.encodeNested = .ok (bs ++ s) → v = w ∧ s = []) := by
  -- The sum over a tuple wraps around or stops the program, by how it is built. Where it fits both
  -- are the same, so the statement is kept to such types, though the wrapping sum does not need it.
  refine ⟨exists_encodeNested_iff, fun bs _fits c e few => ?_⟩
  have typed (label : v.All IsWellLabelled) : HasType t v := hasType_iff.mpr ⟨c, label⟩
  have reads (s : Bytes) : read t (bs ++ s) = (.ok v, s) ↔ v.All IsWellLabelled :=
    ⟨fun h => read_gives t h, fun label => (typed label).read_append e few s⟩
  refine ⟨reads, ?_, ?_⟩
  · rw [decodeNested_eq_ok_iff, ← reads [], List.append_nil]
  · intro label w s cw labelw feww ew
    exact (typed label).eq_of_append (hasType_iff.mpr ⟨cw, labelw⟩) few feww e ew

/-- A list of two truth values, present in an `Option`, is read back from its nested form. -/
theorem nested_roundTrip_present_list :
    let v := present (.list (.primitive .bool) [.bool true, .bool false])
    (∀ s, read v.type ([1, 0, 0, 0, 2, 1, 0] ++ s) = (.ok v, s)) ∧
      v.encodeNested = .ok ([1, 0, 0, 0, 2, 1, 0] ++ []) := by
  intro v
  have c : conforms v.type v := by decide
  have e : v.encodeNested = .ok [1, 0, 0, 0, 2, 1, 0] := rfl
  have few : v.All HasFewEmptyItems := by
    refine .intro trivial (List.forall_mem_singleton.mpr (.intro (fun _ => by decide) ?_))
    exact List.forall_mem_cons.mpr ⟨.leaf trivial rfl, by simpa [parts] using .leaf trivial rfl⟩
  have label : v.All IsWellLabelled := by
    refine .intro trivial (List.forall_mem_singleton.mpr (.intro trivial ?_))
    exact List.forall_mem_cons.mpr ⟨.leaf trivial rfl, by simpa [parts] using .leaf trivial rfl⟩
  obtain ⟨reads, -, unique⟩ := (nested_roundTrip v.type v).2 _ (by decide) c e few
  obtain ⟨-, ends⟩ := unique label v [] c label few e
  exact ⟨fun s => (reads s).mpr label, ends ▸ e⟩

/-- A struct that carries a primitive type conforms to it, but is not read back. -/
theorem mislabelled_struct_not_decoded :
    let v := struct (.primitive .u8) []
    conforms (.primitive .u8) v ∧ v.encodeNested = .ok [] ∧ v.All HasFewEmptyItems ∧
      decodeNested (.primitive .u8) [] ≠ .ok v := by
  refine ⟨by decide, rfl, .leaf trivial rfl, ?_⟩
  intro h
  cases h

end ContractCalls.Value

import ContractCalls.Proofs.Interface.Memo

/-!
# Definitions that have a solution are resolved

If a table solves the definitions of a document and no discriminant is repeated, the resolver comes
to it. Each definition that is being resolved needs the next one, so its type in the table is
larger; hence no definition is met again while it is being resolved (`custom_complete`).
-/

namespace ContractCalls

open Ty

/-- Finds the custom types of a table that are smaller than a size, and refuses the others. -/
noncomputable def Ty.Table.below (types : Table) (size : Nat) : Lookup (Except MalformedType) :=
  fun name =>
    match types.lookup name with
    | none => .ok none
    | some t => if sizeOf t < size then .ok (some t) else .error ⟨name, .unknown name⟩

/-- What is found below a size is a type of the table that is smaller than it. -/
lemma Ty.Table.below_eq_ok_some_iff {types : Table} {size : Nat} {name : String} {t : Ty} :
    types.below size name = .ok (some t) ↔ sizeOf t < size ∧ types.lookup name = some t := by
  unfold below
  split
  · next h => simp [h]
  · next u h =>
    split_ifs with small
    · simp only [h, Except.ok.injEq, Option.some.injEq]
      exact ⟨fun same => ⟨same ▸ small, same⟩, And.right⟩
    · simp only [h, Option.some.injEq, false_iff, not_and]
      rintro smaller rfl
      exact small smaller

/-- A type that is smaller than a size is found. -/
lemma Ty.Table.below_of_lt {types : Table} {size : Nat} (name : String) (t : Ty)
    (small : sizeOf t < size) (found : types.find name = .ok (some t)) :
    types.below size name = .ok (some t) :=
  below_eq_ok_some_iff.mpr ⟨small, Except.ok.inj found⟩

namespace Document.Definitions

variable {definitions : Definitions} {name : String} {definition : Definition}
  {memo types : Table} {t : Ty}

/-- Beside a computation with a table runs one with a memo. If the first one has a result, so has
the second one from any memo that is in the table, and it only keeps types of the table. -/
def completeness (types : Table) : Simulation (Except MalformedType) Resolver where
  rel y x := ∀ a, y = .ok a → ∀ memo, memo.Within types →
    ∃ memo', x memo = .ok (a, memo') ∧ memo'.Within types
  pure a := by
    intro b e memo within
    cases e
    exact ⟨memo, rfl, within⟩
  throw e := by
    intro a h
    cases h
  bind {α β y x g f} hx hf := by
    intro b e memo within
    obtain ⟨a, ha, hb⟩ := bind_eq_ok_iff.mp e
    obtain ⟨mid, hmid, withinMid⟩ := hx a ha memo within
    obtain ⟨memo', hmemo', within'⟩ := hf a b hb mid withinMid
    exact ⟨memo', bind_eq_ok_iff.mpr ⟨_, hmid, hmemo'⟩, within'⟩

/-- A definition is resolved to its type in a solution with the smaller types of the solution. -/
lemma resolve_below (solves : definitions.Solves types)
    (distinct : ∀ entry ∈ definitions, entry.2.HasDistinctDiscriminants)
    (declared : definitions.lookup name = some definition) (known : types.lookup name = some t) :
    definition.resolve (types.below (sizeOf t)) name = .ok t := by
  have entry := mem_of_lookup declared
  obtain ⟨u, hu, means⟩ := solves.means _ entry
  obtain rfl : t = u := Option.some.inj (known.symm.trans hu)
  refine resolve_eq_ok_iff.mpr ⟨distinct _ entry, means.imp fun source u small denoted => ?_⟩
  exact parseWith_of_lookup (fun name t => Table.below_of_lt name t) small denoted

/-- A custom type of a solution is found if it is smaller than those of all definitions that are
being resolved. -/
theorem custom_complete (solves : definitions.Solves types)
    (distinct : ∀ entry ∈ definitions, entry.2.HasDistinctDiscriminants) (size : Nat)
    (inProgress : List String)
    (larger : ∀ other ∈ inProgress, ∃ u, types.lookup other = some u ∧ size ≤ sizeOf u)
    (name : String) :
    (completeness types).rel (types.below size name) (definitions.custom inProgress name) := by
  -- The size bounds the types that are being resolved from below, so it goes down with each.
  induction size using Nat.strong_induction_on generalizing inProgress name with
  | h size ih =>
    intro a e memo within
    cases known : types.lookup name with
    | none =>
      obtain rfl : none = a := by simpa [Table.below, known] using e
      have new : memo.lookup name = none := by
        refine Option.eq_none_iff_forall_ne_some.mpr fun t built => ?_
        rw [within name t built] at known
        cases known
      exact ⟨memo, custom_of_undeclared new (solves.lookup_eq_none_iff.mp known), within⟩
    | some t =>
      simp only [Table.below, known] at e
      split_ifs at e with small
      obtain rfl := Except.ok.inj e
      cases built : memo.lookup name with
      | some u =>
        obtain rfl := Option.some.inj (known.symm.trans (within name u built))
        exact ⟨memo, custom_of_built built, within⟩
      | none =>
        obtain ⟨definition, declared⟩ := solves.covers name t known
        -- The types that are being resolved are larger, so this one is not among them.
        have fresh : name ∉ inProgress := by
          intro cyclic
          obtain ⟨u, hu, least⟩ := larger name cyclic
          obtain rfl := Option.some.inj (known.symm.trans hu)
          omega
        have needed : ∀ other ∈ inProgress ++ [name],
            ∃ u, types.lookup other = some u ∧ sizeOf t ≤ sizeOf u := by
          intro other h
          rcases List.mem_append.mp h with h | h
          · obtain ⟨u, hu, least⟩ := larger other h
            exact ⟨u, hu, by omega⟩
          · obtain rfl := List.mem_singleton.mp h
            exact ⟨t, known, le_rfl⟩
        obtain ⟨memo', hmemo', within'⟩ := (completeness types).resolveDefinition
          (ih (sizeOf t) small (inProgress ++ [name]) needed) name definition t
          (resolve_below solves distinct declared known) memo within
        refine ⟨(name, t) :: memo', ?_, within'.of_cons known⟩
        rw [custom_of_new built declared fresh, hmemo']
        rfl

/-- A custom type of a solution is found if no definition is being resolved. -/
lemma custom_nil_complete (solves : definitions.Solves types)
    (distinct : ∀ entry ∈ definitions, entry.2.HasDistinctDiscriminants) (name : String) :
    (completeness types).rel (types.find name) (definitions.custom [] name) := by
  intro a e
  cases known : types.lookup name with
  | none =>
    refine custom_complete solves distinct 0 [] (by simp) name a ?_
    simpa [Table.below, Table.find, known] using e
  | some t =>
    refine custom_complete solves distinct (sizeOf t + 1) [] (by simp) name a ?_
    simpa [Table.below, Table.find, known] using e

/-- The custom types of a solution are found one after another. -/
lemma customs_complete (solves : definitions.Solves types)
    (distinct : ∀ entry ∈ definitions, entry.2.HasDistinctDiscriminants) (names : List String)
    (within : memo.Within types) :
    ∃ found memo', definitions.customs names memo = .ok (found, memo') := by
  induction names generalizing memo with
  | nil => exact ⟨[], memo, rfl⟩
  | cons name names ih =>
    obtain ⟨mid, hmid, withinMid⟩ := custom_nil_complete solves distinct name _ rfl memo within
    obtain ⟨rest, memo', hrest⟩ := ih withinMid
    exact ⟨_, memo', bind_eq_ok_iff.mpr ⟨_, hmid, bind_eq_ok_iff.mpr ⟨_, hrest, rfl⟩⟩⟩

/-- All definitions are resolved exactly if no discriminant is repeated and they have a solution. -/
theorem resolveAll_iff (keys : (definitions.map (·.1)).Nodup) :
    (∃ found memo, definitions.resolveAll [] = .ok (found, memo)) ↔
      (∀ entry ∈ definitions, entry.2.HasDistinctDiscriminants) ∧
        ∃ types, definitions.Solves types := by
  refine ⟨fun h => ?_, fun h => ?_⟩
  · obtain ⟨found, memo, e⟩ := h
    obtain ⟨solves, distinct, -⟩ := resolveAll_sound keys e
    exact ⟨distinct, found, solves⟩
  · obtain ⟨distinct, types, solves⟩ := h
    exact customs_complete solves distinct _ (by simp [Table.Within])

end Document.Definitions

end ContractCalls

import ContractCalls.Proofs.Interface.Solution

/-!
# The memo of a resolution

What the resolver does with its memo. A memo is `Sound` if each of its types is what its definition
is resolved to with the types of any larger table. This holds of the empty memo and is kept by every
step (`custom_sound`), so a type is not kept before it is complete and never changes afterwards.
When all definitions are resolved, the memo is a solution of them (`resolveAll_sound`).
-/

namespace ContractCalls

open Ty

/-- Each custom type of a table is one of another table. -/
def Ty.Table.Within (types types' : Table) : Prop :=
  ∀ name t, types.lookup name = some t → types'.lookup name = some t

namespace Ty.Table.Within

variable {types types' types'' : Table} {name : String} {t : Ty}

/-- A table is within itself. -/
lemma refl (types : Table) : types.Within types :=
  fun _ _ h => h

/-- A table within one that is within another is within that one. -/
lemma trans (h : types.Within types') (h' : types'.Within types'') : types.Within types'' :=
  fun name t found => h' name t (h name t found)

/-- A table is in the one with a further type, unless that replaces another one. -/
lemma cons (h : ∀ u, types.lookup name = some u → u = t) : types.Within ((name, t) :: types) := by
  intro other u found
  rw [List.lookup_cons]
  by_cases same : other = name
  · subst same
    simp [h u found]
  · simpa [beq_false_of_ne same] using found

/-- A table with a further type is in another one that has this type too. -/
lemma of_cons (h : types.Within types') (found : types'.lookup name = some t) :
    Within ((name, t) :: types) types' := by
  intro other u known
  rw [List.lookup_cons] at known
  by_cases same : other = name
  · subst same
    obtain rfl : t = u := by simpa using known
    exact found
  · exact h other u (by simpa [beq_false_of_ne same] using known)

end Ty.Table.Within

namespace Document.Definitions

variable {definitions : Definitions} {inProgress names : List String} {name : String}
  {definition : Definition} {memo memo' types : Table} {t : Ty}

/-! ## One step -/

section

variable {m : Type → Type} [Monad m] [MonadExcept MalformedType m] [MonadStateOf Table m]

/-- One step of finding a custom type, given how the types that it needs are found. -/
def step (definitions : Definitions) (inProgress : List String) (needed : Lookup m)
    (name : String) : m (Option Ty) := do
  match (← get).lookup name with
  | some t => return some t
  | none =>
    match definitions.lookup name with
    | none => return none
    | some definition =>
      if inProgress.contains name then throw ⟨name, .recursive inProgress name⟩
      else
        let t ← definition.resolve needed name
        modify ((name, t) :: ·)
        return some t

end

/-- Finding a custom type is one step, and finding the types that it needs. -/
lemma custom_eq (definitions : Definitions) (inProgress : List String) (name : String) :
    definitions.custom inProgress name =
      definitions.step inProgress (definitions.custom (inProgress ++ [name])) name := by
  rw [custom, step]
  refine congrArg _ (funext fun memo => ?_)
  cases memo.lookup name with
  | some t => rfl
  | none =>
    dsimp only
    split
    · next h => rw [h]
    · next h => simp only [h, dite_eq_ite]

/-- A step goes on with the memo that it gets. -/
lemma get_bind_apply {α : Type} (f : Table → Resolver α) : (get >>= f) memo = f memo memo := rfl

/-- A step that keeps what it builds adds it to the memo. -/
lemma bind_modify_apply {α β : Type} (x : Resolver α) (keep : α → Table → Table) (f : α → β) :
    (do let a ← x; modify (keep a); return f a) memo =
      (x memo).map fun (a, memo') => (f a, keep a memo') := by
  change Except.bind (x memo) _ = _
  cases x memo <;> rfl

/-- A custom type that is in the memo is taken from it. -/
lemma custom_of_built (built : memo.lookup name = some t) :
    definitions.custom inProgress name memo = .ok (some t, memo) := by
  simp only [custom_eq, step, get_bind_apply, built]
  rfl

/-- A name that nothing defines stands for no custom type. -/
lemma custom_of_undeclared (new : memo.lookup name = none)
    (undeclared : definitions.lookup name = none) :
    definitions.custom inProgress name memo = .ok (none, memo) := by
  simp only [custom_eq, step, get_bind_apply, new, undeclared]
  rfl

/-- A definition that needs itself is refused. -/
lemma custom_of_cyclic (new : memo.lookup name = none)
    (declared : definitions.lookup name = some definition) (cyclic : name ∈ inProgress) :
    definitions.custom inProgress name memo = .error ⟨name, .recursive inProgress name⟩ := by
  simp only [custom_eq, step, get_bind_apply, new, declared, List.contains_eq_mem, cyclic,
    decide_true, if_true]
  rfl

/-- A type that is not built is resolved from its definition and kept. -/
lemma custom_of_new (new : memo.lookup name = none)
    (declared : definitions.lookup name = some definition) (fresh : name ∉ inProgress) :
    definitions.custom inProgress name memo =
      (definition.resolve (definitions.custom (inProgress ++ [name])) name memo).map
        fun (t, memo') => (some t, (name, t) :: memo') := by
  rw [custom_eq]
  simp only [step, get_bind_apply, new, declared, List.contains_eq_mem, fresh, decide_false,
    Bool.false_eq_true, if_false, bind_modify_apply]

/-! ## Soundness -/

/-- Each type of a memo is what its definition is resolved to with the types of any larger table. -/
def Sound (definitions : Definitions) (memo : Table) : Prop :=
  ∀ name t, memo.lookup name = some t → ∃ definition, definitions.lookup name = some definition ∧
    ∀ types, memo.Within types → definitions.Covers types →
      definition.resolve types.find name = .ok t

/-- Each name in a sound memo is defined. -/
lemma Sound.covers (sound : definitions.Sound memo) : definitions.Covers memo := by
  intro name t found
  obtain ⟨definition, declared, -⟩ := sound name t found
  exact ⟨definition, declared⟩

/-- The empty memo is sound. -/
lemma sound_nil : definitions.Sound [] := by
  intro name t found
  simp at found

/-- Beside a computation with a memo runs one with a table. The memo stays sound and only grows, and
if all that is in it at the end is in the table, both come to one result. -/
def soundness (definitions : Definitions) (types : Table) :
    Simulation Resolver (Except MalformedType) where
  rel x y := ∀ memo a memo', definitions.Sound memo → x memo = .ok (a, memo') →
    definitions.Sound memo' ∧ memo.Within memo' ∧ (memo'.Within types → y = .ok a)
  pure a := by
    intro memo b memo' sound e
    cases e
    exact ⟨sound, .refl memo, fun _ => rfl⟩
  throw e := by
    intro memo a memo' sound h
    cases h
  bind {α β x y f g} hx hf := by
    intro memo b memo' sound e
    obtain ⟨⟨a, mid⟩, ha, hb⟩ := bind_eq_ok_iff.mp e
    obtain ⟨soundMid, grows, same⟩ := hx memo a mid sound ha
    obtain ⟨sound', grows', same'⟩ := hf a mid b memo' soundMid hb
    refine ⟨sound', grows.trans grows', fun within => ?_⟩
    rw [same (grows'.trans within), ok_bind, same' within]

/-- What is resolved and kept is sound, if the types that it needs are. -/
lemma sound_of_resolve {lookup : Lookup Resolver}
    (needed : ∀ types, definitions.Covers types → ∀ name,
      (soundness definitions types).rel (lookup name) (types.find name))
    (declared : definitions.lookup name = some definition) (sound : definitions.Sound memo)
    (e : definition.resolve lookup name memo = .ok (t, memo')) :
    definitions.Sound ((name, t) :: memo') ∧ memo.Within ((name, t) :: memo') := by
  have resolved (types : Table) (covers : definitions.Covers types) :=
    (soundness definitions types).resolveDefinition (needed types covers) name definition memo t
      memo' sound e
  obtain ⟨sound', grows, -⟩ := resolved [] (by simp [Covers])
  -- A type that was kept for the name meanwhile is the same, since both are resolved alike.
  have same (u : Ty) (known : memo'.lookup name = some u) : u = t := by
    obtain ⟨definition', declared', kept⟩ := sound' name u known
    obtain rfl := Option.some.inj (declared.symm.trans declared')
    have again := (resolved memo' sound'.covers).2.2 (.refl memo')
    exact Except.ok.inj ((kept memo' (.refl memo') sound'.covers).symm.trans again)
  have keeps : memo'.Within ((name, t) :: memo') := .cons same
  refine ⟨fun other u known => ?_, grows.trans keeps⟩
  rw [List.lookup_cons] at known
  by_cases new : other = name
  · subst new
    obtain rfl : t = u := by simpa using known
    exact ⟨definition, declared, fun types within covers =>
      (resolved types covers).2.2 (keeps.trans within)⟩
  · obtain ⟨definition', declared', kept⟩ :=
      sound' other u (by simpa [beq_false_of_ne new] using known)
    exact ⟨definition', declared', fun types within => kept types (keeps.trans within)⟩

/-- A custom type that is found is the one of any table that has all that is kept. -/
theorem custom_sound (inProgress : List String) (types : Table) (covers : definitions.Covers types)
    (name : String) :
    (soundness definitions types).rel (definitions.custom inProgress name) (types.find name) := by
  -- Each definition that is opened is one less to wait for.
  induction h : (definitions.waiting inProgress).length using Nat.strong_induction_on
    generalizing inProgress types name with
  | h waiting ih =>
    subst h
    intro memo a memo' sound e
    cases built : memo.lookup name with
    | some t =>
      rw [custom_of_built built] at e
      cases e
      exact ⟨sound, .refl memo, fun within => congrArg _ (within name t built)⟩
    | none =>
      cases declared : definitions.lookup name with
      | none =>
        rw [custom_of_undeclared built declared] at e
        cases e
        refine ⟨sound, .refl memo, fun _ => congrArg _ (Option.eq_none_iff_forall_ne_some.mpr ?_)⟩
        intro t found
        obtain ⟨definition, declared'⟩ := covers name t found
        rw [declared] at declared'
        cases declared'
      | some definition =>
        by_cases cyclic : name ∈ inProgress
        · rw [custom_of_cyclic built declared cyclic] at e
          cases e
        · rw [custom_of_new built declared cyclic] at e
          obtain ⟨⟨t, mid⟩, ht, same⟩ := map_eq_ok_iff.mp e
          cases same
          have shorter := length_waiting_lt declared (by simpa using cyclic)
          have needed (types : Table) (covers : definitions.Covers types) (other : String) :=
            ih _ shorter (inProgress ++ [name]) types covers other rfl
          obtain ⟨sound', grows⟩ := sound_of_resolve needed declared sound ht
          refine ⟨sound', grows, fun within => congrArg _ (within name t ?_)⟩
          simp

/-- A custom type that is found for a definition is in the memo from then on. -/
lemma lookup_of_custom {found : Option Ty} (declared : definitions.lookup name = some definition)
    (e : definitions.custom inProgress name memo = .ok (found, memo')) :
    ∃ t, found = some t ∧ memo'.lookup name = some t := by
  cases built : memo.lookup name with
  | some t =>
    rw [custom_of_built built] at e
    cases e
    exact ⟨t, rfl, built⟩
  | none =>
    by_cases cyclic : name ∈ inProgress
    · rw [custom_of_cyclic built declared cyclic] at e
      cases e
    · rw [custom_of_new built declared cyclic] at e
      obtain ⟨⟨t, mid⟩, -, same⟩ := map_eq_ok_iff.mp e
      cases same
      exact ⟨t, rfl, by simp⟩

/-- The custom types of several names are found one after another and kept. -/
lemma customs_sound {found : Table} (declared : ∀ name ∈ names, name ∈ definitions.map (·.1))
    (sound : definitions.Sound memo) (e : definitions.customs names memo = .ok (found, memo')) :
    definitions.Sound memo' ∧ memo.Within memo' ∧ found.map (·.1) = names ∧
      ∀ entry ∈ found, memo'.lookup entry.1 = some entry.2 := by
  induction names generalizing memo found memo' with
  | nil =>
    cases e
    exact ⟨sound, .refl memo, rfl, by simp⟩
  | cons name names ih =>
    simp only [List.forall_mem_cons] at declared
    obtain ⟨⟨first, mid⟩, hfirst, e⟩ := bind_eq_ok_iff.mp e
    obtain ⟨⟨rest, last⟩, hrest, e⟩ := bind_eq_ok_iff.mp e
    cases e
    obtain ⟨definition, defined⟩ := exists_lookup_iff_mem.mpr declared.1
    obtain ⟨soundMid, grows, -⟩ :=
      custom_sound [] [] (by simp [Covers]) name memo first mid sound hfirst
    obtain ⟨sound', grows', keys, kept⟩ := ih declared.2 soundMid hrest
    obtain ⟨t, rfl, here⟩ := lookup_of_custom defined hfirst
    refine ⟨sound', grows.trans grows', by simp [keys], ?_⟩
    simpa using ⟨grows' name t here, by simpa using kept⟩

/-- If all definitions are resolved, a type is found for each of them, and the memo has the types
that are found. -/
lemma lookups_of_resolveAll {found : Table}
    (e : definitions.resolveAll [] = .ok (found, memo)) :
    definitions.Sound memo ∧ found.map (·.1) = definitions.map (·.1) ∧
      (∀ entry ∈ found, memo.lookup entry.1 = some entry.2) ∧
      ∀ name, memo.lookup name = found.lookup name := by
  obtain ⟨sound, -, keys, kept⟩ := customs_sound (fun name h => h) sound_nil e
  have agree (name : String) (t : Ty) (h : found.lookup name = some t) :
      memo.lookup name = some t :=
    kept _ (mem_of_lookup h)
  -- All names of the memo are defined, and each defined name is among those that are found.
  have within : memo.Within found := by
    intro name t known
    have declared := exists_lookup_iff_mem.mp (sound.covers name t known)
    obtain ⟨u, here⟩ := exists_lookup_iff_mem.mpr (keys ▸ declared)
    rw [here, ← agree name u here, known]
  exact ⟨sound, keys, kept, fun name => Option.ext fun t => ⟨within name t, agree name t⟩⟩

/-- If all definitions are resolved, the types that are found solve them, no discriminant is
repeated, and the memo has the same types. -/
theorem resolveAll_sound {found : Table} (distinct : (definitions.map (·.1)).Nodup)
    (e : definitions.resolveAll [] = .ok (found, memo)) :
    definitions.Solves found ∧ (∀ entry ∈ definitions, entry.2.HasDistinctDiscriminants) ∧
      ∀ name, memo.lookup name = found.lookup name := by
  obtain ⟨sound, keys, -, complete⟩ := lookups_of_resolveAll e
  have agree (name : String) (t : Ty) (h : found.lookup name = some t) :
      memo.lookup name = some t :=
    (complete name).trans h
  have within : memo.Within found := fun name t h => (complete name).symm.trans h
  have covers : definitions.Covers found := fun name t h => sound.covers name t (agree name t h)
  have resolved (entry : String × Definition) (h : entry ∈ definitions) :
      ∃ t, found.lookup entry.1 = some t ∧ entry.2.resolve found.find entry.1 = .ok t := by
    have declared := lookup_of_mem distinct h
    obtain ⟨t, here⟩ :=
      exists_lookup_iff_mem.mpr (keys ▸ exists_lookup_iff_mem.mp ⟨entry.2, declared⟩)
    obtain ⟨definition, declared', built⟩ := sound _ t (agree _ t here)
    obtain rfl := Option.some.inj (declared.symm.trans declared')
    exact ⟨t, here, built found within covers⟩
  refine ⟨⟨keys, fun entry h => ?_⟩, fun entry h => ?_, complete⟩
  · obtain ⟨t, here, result⟩ := resolved entry h
    exact ⟨t, here, (resolve_eq_ok_iff.mp result).2⟩
  · obtain ⟨t, -, result⟩ := resolved entry h
    exact (resolve_eq_ok_iff.mp result).1

end Document.Definitions

end ContractCalls

import Mathlib

/-!
# Results that may be refusals

How a computation in steps comes to a result: every step does. The lemmas open a chain of steps from
either side, and `mapM_eq_ok_iff` opens a computation on each member of a list.
-/

namespace ContractCalls

variable {ε α β : Type} {a : α} {b : β} {e : ε}

/-- Behind a result the next step goes on. -/
@[simp]
lemma ok_bind (f : α → Except ε β) : (Except.ok a >>= f) = f a := rfl

/-- Behind a refusal nothing goes on. -/
@[simp]
lemma error_bind (f : α → Except ε β) : (Except.error e >>= f) = .error e := rfl

/-- A function is applied to a result. -/
@[simp]
lemma map_ok (f : α → β) : (f <$> (Except.ok a : Except ε α)) = .ok (f a) := rfl

/-- A function leaves a refusal as it is. -/
@[simp]
lemma map_error (f : α → β) : (f <$> (Except.error e : Except ε α)) = .error e := rfl

/-- No steps have the result that is given. -/
@[simp]
lemma pure_eq_ok_iff {a' : α} : (pure a : Except ε α) = .ok a' ↔ a = a' := by
  simp [pure, Except.pure]

/-- A last step that gives what it gets changes nothing. -/
@[simp]
lemma bind_ok (x : Except ε α) : (x >>= Except.ok) = x := by
  cases x <;> rfl

/-- A last step that only gives a result maps the one before it. -/
@[simp]
lemma bind_ok_comp (x : Except ε α) (f : α → β) : (x >>= fun a => .ok (f a)) = f <$> x := by
  cases x <;> rfl

/-- Two steps have a result if the first one has one from which the second one has it. -/
lemma bind_eq_ok_iff {x : Except ε α} {f : α → Except ε β} :
    (x >>= f) = .ok b ↔ ∃ a, x = .ok a ∧ f a = .ok b := by
  cases x <;> simp

/-- Two steps fail if the first one does, or if the second one does after it. -/
lemma bind_eq_error_iff {x : Except ε α} {f : α → Except ε β} :
    (x >>= f) = .error e ↔ x = .error e ∨ ∃ a, x = .ok a ∧ f a = .error e := by
  cases x <;> simp

/-- A mapped computation has the mapped result. -/
lemma map_eq_ok_iff {x : Except ε α} {f : α → β} :
    f <$> x = .ok b ↔ ∃ a, x = .ok a ∧ f a = b := by
  cases x <;> simp

/-- Telling an error in another way changes no result. -/
lemma mapError_eq_ok_iff {ε' : Type} {x : Except ε α} {f : ε → ε'} :
    x.mapError f = .ok a ↔ x = .ok a := by
  cases x <;> simp [Except.mapError]

/-- A computation on each member of a list has as results those on the members, one by one. -/
lemma mapM_eq_ok_iff {f : α → Except ε β} {as : List α} {bs : List β} :
    as.mapM f = .ok bs ↔ List.Forall₂ (fun a b => f a = .ok b) as bs := by
  induction as generalizing bs with
  | nil => cases bs <;> simp
  | cons a as ih =>
    simp only [List.mapM_cons, bind_eq_ok_iff, ih, pure_eq_ok_iff]
    refine ⟨fun h => ?_, fun h => ?_⟩
    · obtain ⟨b, hb, bs, hbs, rfl⟩ := h
      exact .cons hb hbs
    · cases h with
      | cons hb hbs => exact ⟨_, hb, _, hbs, rfl⟩

/-- A result of a computation on each member of a list is that on one of them. -/
lemma exists_of_mem_mapM {f : α → Except ε β} {as : List α} {bs : List β}
    (e : as.mapM f = .ok bs) (h : b ∈ bs) : ∃ a ∈ as, f a = .ok b := by
  rw [mapM_eq_ok_iff] at e
  induction e with
  | nil => simp at h
  | cons first _ ih =>
    rcases List.mem_cons.mp h with rfl | below
    · exact ⟨_, by simp, first⟩
    · obtain ⟨a, ha, made⟩ := ih below
      exact ⟨a, List.mem_cons_of_mem _ ha, made⟩

end ContractCalls

import ContractCalls.Proofs.Interface.Memo

/-!
# How deep a resolution goes

A definition that is being resolved is not resolved again before it is done. So no more definitions
are being resolved at a time than there are: a resolver that gives up beyond this depth does not
give up, and comes to the same as the one without a limit (`customWithin_notGivenUp`).
-/

namespace ContractCalls

open Ty

namespace Document

/-- A resolution that may be given up. -/
abbrev LimitedResolver := StateT Table (ExceptT MalformedType Option)

namespace Definitions

variable {definitions : Definitions} {inProgress : List String} {name : String}

/-- Finds a custom type with at most `depth` definitions being resolved at a time, and gives up if
more are needed. -/
def customWithin (definitions : Definitions) :
    (depth : Nat) → (inProgress : List String) → Lookup LimitedResolver
  | 0, _ => fun _ _ => .mk none
  | depth + 1, inProgress => fun name =>
    definitions.step inProgress (customWithin definitions depth (inProgress ++ [name])) name

/-- Beside a resolution runs one that may be given up, but is not. -/
def notGivenUp : Simulation Resolver LimitedResolver where
  rel x y := ∀ memo, (y.run memo).run = some (x.run memo)
  pure a := fun memo => rfl
  throw e := fun memo => rfl
  bind {α β x y f g} hx hf := by
    intro memo
    have first := hx memo
    cases e : x.run memo with
    | error fault =>
      rw [e] at first
      simp [first, e]
    | ok result =>
      rw [e] at first
      simp [first, e, hf]

/-- One step is not given up if finding the types that it needs is not. -/
lemma step_notGivenUp {needed : Lookup Resolver} {needed' : Lookup LimitedResolver}
    (h : ∀ definition, definitions.lookup name = some definition → name ∉ inProgress →
      ∀ other, notGivenUp.rel (needed other) (needed' other)) :
    notGivenUp.rel (definitions.step inProgress needed name)
      (definitions.step inProgress needed' name) := by
  refine notGivenUp.bind (fun memo => rfl) fun memo => ?_
  cases memo.lookup name with
  | some t => exact notGivenUp.pure _
  | none =>
    cases declared : definitions.lookup name with
    | none => exact notGivenUp.pure _
    | some definition =>
      dsimp only
      split_ifs with cyclic
      · exact notGivenUp.throw _
      · have inner := h definition declared (by simpa using cyclic)
        exact notGivenUp.bind (notGivenUp.resolveDefinition inner name definition) fun t =>
          notGivenUp.bind (fun memo => rfl) fun _ => notGivenUp.pure _

/-- A resolution is not given up if the limit is greater than the number of definitions that are not
being resolved. -/
theorem customWithin_notGivenUp (depth : Nat) (inProgress : List String)
    (enough : (definitions.waiting inProgress).length < depth) (name : String) :
    notGivenUp.rel (definitions.custom inProgress name)
      (definitions.customWithin depth inProgress name) := by
  induction depth generalizing inProgress name with
  | zero => omega
  | succ depth ih =>
    rw [custom_eq, customWithin]
    apply step_notGivenUp
    intro definition declared fresh other
    -- What is opened no longer waits, so the limit may go down with the number that waits.
    have shorter := length_waiting_lt declared (by simpa using fresh)
    exact ih (inProgress ++ [name]) (by omega) other

end Definitions

end Document

end ContractCalls

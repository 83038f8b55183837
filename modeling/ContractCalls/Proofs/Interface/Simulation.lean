import Mathlib
import ContractCalls.Interface.Resolve

/-!
# Resolving side by side

Types and definitions are resolved in any monad, given how custom types are found. So what is kept
by results, refusals and chains of steps, and by finding custom types, is kept by resolving: a
`Simulation` between two monads extends from finding to resolving. The theorems about resolution are
instances, where one side is the resolver with its memo and the other one looks into a table.
-/

namespace ContractCalls

open Ty Document

/-- A relation between the computations of two monads that is kept by results, by refusals and by
chains of steps. -/
structure Simulation (m n : Type → Type) [Monad m] [MonadExcept MalformedType m] [Monad n]
    [MonadExcept MalformedType n] where
  rel {α : Type} : m α → n α → Prop
  pure {α : Type} (a : α) : rel (pure a) (pure a)
  throw {α : Type} (e : MalformedType) : rel (α := α) (throw e) (throw e)
  bind {α β : Type} {x : m α} {y : n α} {f : α → m β} {g : α → n β} :
    rel x y → (∀ a, rel (f a) (g a)) → rel (x >>= f) (y >>= g)

namespace Simulation

variable {m n : Type → Type} [Monad m] [MonadExcept MalformedType m] [Monad n]
  [MonadExcept MalformedType n] (S : Simulation m n) {α β : Type}

/-- A result that may be a refusal is kept. -/
lemma ofExcept (x : Except MalformedType α) :
    S.rel (MonadExcept.ofExcept x) (MonadExcept.ofExcept x) := by
  cases x with
  | ok a => exact S.pure a
  | error e => exact S.throw e

/-- Steps on each member of a list are kept. -/
lemma mapM {f : α → m β} {g : α → n β} (h : ∀ a, S.rel (f a) (g a)) (as : List α) :
    S.rel (as.mapM f) (as.mapM g) := by
  -- `List.mapM` keeps the results so far in reverse.
  have loop (as : List α) (bs : List β) :
      S.rel (List.mapM.loop f as bs) (List.mapM.loop g as bs) := by
    induction as generalizing bs with
    | nil => exact S.pure _
    | cons a as ih => exact S.bind (h a) fun b => ih (b :: bs)
  exact loop as []

/-- Resolving a custom name is kept if finding it is. -/
lemma resolveCustom {lookup : Lookup m} {lookup' : Lookup n}
    (h : ∀ name, S.rel (lookup name) (lookup' name)) (source name : String) (parameterless : Bool) :
    S.rel (resolveCustom lookup source name parameterless)
      (resolveCustom lookup' source name parameterless) := by
  refine S.bind (h name) fun found => ?_
  cases found with
  | none => exact S.throw _
  | some t =>
    cases parameterless
    · exact S.throw _
    · exact S.pure _

mutual

/-- Resolving an expression is kept if finding custom types is. -/
lemma resolve {lookup : Lookup m} {lookup' : Lookup n}
    (h : ∀ name, S.rel (lookup name) (lookup' name)) (source : String) : (e : Expression) →
    S.rel (Ty.resolve lookup source e) (Ty.resolve lookup' source e)
  | .mk name arguments => by
    rw [Ty.resolve, Ty.resolve]
    split
    · -- the name of a primitive type
      split_ifs
      · exact S.pure _
      · exact S.throw _
    split
    · -- the name of a generic type
      split_ifs
      · exact S.bind (resolveAll h source arguments) fun _ => S.pure _
      · exact S.throw _
    split
    · -- the name of an array type
      match arguments with
      | [] => exact S.throw _
      | [argument] => exact S.bind (resolve h source argument) fun _ => S.pure _
      | _ :: _ :: _ => exact S.throw _
    · exact S.resolveCustom h source name _

/-- Resolving several expressions is kept if finding custom types is. -/
lemma resolveAll {lookup : Lookup m} {lookup' : Lookup n}
    (h : ∀ name, S.rel (lookup name) (lookup' name)) (source : String) : (es : List Expression) →
    S.rel (Ty.resolveAll lookup source es) (Ty.resolveAll lookup' source es)
  | [] => S.pure _
  | e :: es =>
    S.bind (resolve h source e) fun _ => S.bind (resolveAll h source es) fun _ => S.pure _

end

section

variable {lookup : Lookup m} {lookup' : Lookup n} (h : ∀ name, S.rel (lookup name) (lookup' name))

include h

/-- Reading a type from its spelling is kept. -/
lemma parseWith (source : String) :
    S.rel (Ty.parseWith lookup source) (Ty.parseWith lookup' source) :=
  S.bind (S.ofExcept _) fun e => S.resolve h source e

/-- Resolving a field is kept. -/
lemma resolveField (field : Field String) :
    S.rel (Document.resolveField lookup field) (Document.resolveField lookup' field) :=
  S.bind (S.parseWith h field.type) fun _ => S.pure _

/-- Resolving variants is kept, whatever discriminants were seen before. -/
lemma resolveVariants (owner : String) (seen : List UInt8) (variants : List (Variant String)) :
    S.rel (Document.resolveVariants lookup owner seen variants)
      (Document.resolveVariants lookup' owner seen variants) := by
  induction variants generalizing seen with
  | nil => exact S.pure _
  | cons variant variants ih =>
    rw [Document.resolveVariants, Document.resolveVariants]
    split_ifs
    · exact S.throw _
    · exact S.bind (S.mapM (S.resolveField h) variant.fields) fun _ =>
        S.bind (ih _) fun _ => S.pure _

/-- Resolving a definition is kept. -/
lemma resolveDefinition (name : String) (definition : Definition) :
    S.rel (definition.resolve lookup name) (definition.resolve lookup' name) := by
  cases definition with
  | struct fields => exact S.bind (S.mapM (S.resolveField h) fields) fun _ => S.pure _
  | enum variants => exact S.bind (S.resolveVariants h name [] variants) fun _ => S.pure _

/-- Resolving an input or output is kept. -/
lemma resolveParameter (isMulti : Option Bool) (p : Parameter) :
    S.rel (p.resolve lookup isMulti) (p.resolve lookup' isMulti) :=
  S.bind (S.parseWith h p.type) fun _ => S.pure _

/-- Resolving inputs is kept. -/
lemma resolveInputs (inputs : List Parameter) :
    S.rel (Document.resolveInputs lookup inputs) (Document.resolveInputs lookup' inputs) := by
  apply S.mapM
  exact fun p => S.resolveParameter h p.multiArg p

/-- Resolving outputs is kept. -/
lemma resolveOutputs (outputs : List Parameter) :
    S.rel (Document.resolveOutputs lookup outputs) (Document.resolveOutputs lookup' outputs) := by
  apply S.mapM
  exact fun p => S.resolveParameter h p.multiResult p

/-- Resolving a constructor is kept. -/
lemma resolveConstructor (c : Constructor) : S.rel (c.resolve lookup) (c.resolve lookup') :=
  S.bind (S.resolveInputs h c.inputs) fun _ =>
    S.bind (S.resolveOutputs h c.outputs) fun _ => S.pure _

/-- Resolving an endpoint is kept. -/
lemma resolveEndpoint (e : Document.Endpoint) : S.rel (e.resolve lookup) (e.resolve lookup') :=
  S.bind (S.resolveInputs h e.inputs) fun _ =>
    S.bind (S.resolveOutputs h e.outputs) fun _ => S.pure _

end

end Simulation

end ContractCalls

import ContractCalls.Interface.Update
import ContractCalls.Proofs.Interface.Resolution

/-!
# Registries under updates

Names in a registry, however it is loaded. A resolved contract keeps the names it has in its
document, and its endpoints have distinct ones (`Contract.names_of_resolve`). Loading a document is
adding its contracts one after another (`Registry.addDocument_eq_foldlM`), and an update in place
either succeeds as a whole or leaves the registry as it was (`Registry.Operation.run_update`). With
that, one operation keeps a registry well formed, and so every registry that operations make of the
empty one is.
-/

namespace ContractCalls

/-! ## Names of resolved contracts -/

namespace Document

variable {lookup : Ty.Lookup Resolver} {memo memo' : Ty.Table} {c : Contract} {i : Interface}

/-- An endpoint keeps its name when it is resolved. -/
lemma Endpoint.name_of_resolve {raw : Endpoint} {endpoint : ContractCalls.Endpoint}
    (e : raw.resolve lookup memo = .ok (endpoint, memo')) : endpoint.name = raw.name := by
  obtain ⟨⟨inputs, mid⟩, -, e⟩ := bind_eq_ok_iff.mp e
  obtain ⟨⟨outputs, last⟩, -, e⟩ := bind_eq_ok_iff.mp e
  cases e
  rfl

/-- Resolved endpoints keep their names, and none has that of another or one seen before. -/
lemma names_of_resolveEndpoints {owner : String} {seen : List String} {raws : List Endpoint}
    {endpoints : List ContractCalls.Endpoint}
    (e : resolveEndpoints lookup owner seen raws memo = .ok (endpoints, memo')) :
    endpoints.map (·.name) = raws.map (·.name) ∧ (raws.map (·.name)).Nodup ∧
      ∀ raw ∈ raws, raw.name ∉ seen := by
  induction raws generalizing seen endpoints memo memo' with
  | nil =>
    cases e
    simp
  | cons raw raws ih =>
    rw [resolveEndpoints] at e
    split_ifs at e with again
    · cases e
    · obtain ⟨⟨first, mid⟩, hfirst, e⟩ := bind_eq_ok_iff.mp e
      obtain ⟨⟨rest, last⟩, hrest, e⟩ := bind_eq_ok_iff.mp e
      cases e
      have name := Endpoint.name_of_resolve (liftMalformed_eq_ok_iff.mp hfirst)
      obtain ⟨names, distinct, fresh⟩ := ih hrest
      have new : raw.name ∉ raws.map (·.name) := by
        intro h
        obtain ⟨other, member, same⟩ := List.mem_map.mp h
        exact fresh other member (by simp [same])
      refine ⟨by simp [name, names], List.nodup_cons.mpr ⟨new, distinct⟩, ?_⟩
      refine List.forall_mem_cons.mpr ⟨by simpa using again, fun other member => ?_⟩
      exact fun h => fresh other member (List.mem_cons_of_mem _ h)

/-- A contract keeps its name when it is resolved. -/
lemma Contract.name_of_resolve (e : c.resolve = .ok i) : i.name = c.name := by
  obtain ⟨⟨_, last⟩, h, rfl⟩ := map_eq_ok_iff.mp e
  rw [Contract.resolver] at h
  obtain ⟨⟨types, memo⟩, -, h⟩ := bind_eq_ok_iff.mp h
  obtain ⟨⟨constructor, mid⟩, -, h⟩ := bind_eq_ok_iff.mp h
  obtain ⟨⟨endpoints, last⟩, -, h⟩ := bind_eq_ok_iff.mp h
  cases h
  rfl

/-- The endpoints of a resolved contract have the names that the document gives, all distinct. -/
lemma Contract.names_of_resolve (e : c.resolve = .ok i) :
    i.endpoints.map (·.name) = c.endpoints.map (·.name) ∧ (i.endpoints.map (·.name)).Nodup := by
  obtain ⟨memo, mid, last, -, -, endpoints⟩ := Contract.exists_of_resolve e
  obtain ⟨names, distinct, -⟩ := names_of_resolveEndpoints endpoints
  exact ⟨names, names ▸ distinct⟩

end Document

namespace Registry

variable {r r' : Registry} {taken : List String} {name : String} {c : Document.Contract}
  {cs : List Document.Contract} {i : Interface} {is pending added : List Interface}

/-! ## Batches -/

/-- A name passes as new exactly if it is not taken. -/
lemma checkNew_eq_ok_iff : checkNew taken name = .ok () ↔ name ∉ taken := by
  rw [checkNew]
  split_ifs with h
  · simpa using h
  · simpa using h

/-- Whether a name is new depends only on which names are taken. -/
lemma checkNew_congr {taken' : List String} (same : ∀ name, name ∈ taken ↔ name ∈ taken') :
    checkNew taken name = checkNew taken' name := by
  simp [checkNew, same]

/-- It does not matter in which order names are taken. -/
lemma resolveBatch_congr {taken' : List String} (same : ∀ name, name ∈ taken ↔ name ∈ taken') :
    resolveBatch taken cs = resolveBatch taken' cs := by
  induction cs generalizing taken taken' with
  | nil => rfl
  | cons c cs ih =>
    have below : ∀ name, name ∈ c.name :: taken ↔ name ∈ c.name :: taken' := by
      intro name
      rw [List.mem_cons, List.mem_cons, same]
    rw [resolveBatch, resolveBatch, checkNew_congr same, ih below]

/-- The interfaces of a batch are those of its contracts, with names that are neither taken nor
repeated. -/
lemma of_resolveBatch (e : resolveBatch taken cs = .ok is) :
    List.Forall₂ (fun c i => c.resolve = .ok i) cs is ∧ (is.map (·.name)).Nodup ∧
      ∀ i ∈ is, i.name ∉ taken := by
  induction cs generalizing taken is with
  | nil =>
    cases e
    simp
  | cons c cs ih =>
    rw [resolveBatch] at e
    obtain ⟨_, new, e⟩ := bind_eq_ok_iff.mp e
    obtain ⟨i, resolved, e⟩ := bind_eq_ok_iff.mp e
    obtain ⟨others, below, e⟩ := bind_eq_ok_iff.mp e
    obtain rfl := Except.ok.inj e
    obtain ⟨resolvedAll, distinct, fresh⟩ := ih below
    have name := Document.Contract.name_of_resolve resolved
    have other : i.name ∉ others.map (·.name) := by
      intro h
      obtain ⟨j, member, same⟩ := List.mem_map.mp h
      exact fresh j member (by simp [same, name])
    refine ⟨.cons resolved resolvedAll, List.nodup_cons.mpr ⟨other, distinct⟩, ?_⟩
    refine List.forall_mem_cons.mpr ⟨name ▸ checkNew_eq_ok_iff.mp new, fun j member => ?_⟩
    exact fun h => fresh j member (List.mem_cons_of_mem _ h)

/-- Adding contracts one after another is resolving them as a batch. -/
lemma foldlM_add_eq (cs : List Document.Contract) (r : Registry) :
    cs.foldlM add r = (fun is => ⟨r.interfaces ++ is⟩) <$> resolveBatch r.names cs := by
  induction cs generalizing r with
  | nil => simp [resolveBatch, pure, Except.pure]
  | cons c cs ih =>
    rw [List.foldlM_cons, resolveBatch, add]
    cases checkNew r.names c.name with
    | error e => rfl
    | ok _ =>
      cases resolved : c.resolve with
      | error e => rfl
      | ok i =>
        -- What the first contract takes is the same name in either order.
        have same : resolveBatch (names ⟨r.interfaces ++ [i]⟩) cs =
            resolveBatch (c.name :: r.names) cs := by
          apply resolveBatch_congr
          simp [names, Document.Contract.name_of_resolve resolved, or_comm]
        change cs.foldlM add ⟨r.interfaces ++ [i]⟩ = _
        rw [ih, same]
        cases resolveBatch (c.name :: r.names) cs <;> simp [pure, Except.pure]

/-- A document is added by adding its contracts one after another. -/
lemma addDocument_eq_foldlM (r : Registry) (document : Document) :
    r.addDocument document = document.contracts.foldlM add r := by
  rw [foldlM_add_eq, addDocument]
  cases resolveBatch r.names document.contracts <;> rfl

/-! ## Updates in place -/

namespace Update

variable {α β : Type}

/-- Two steps run one after the other on the registry, until one fails. -/
lemma run_bind (x : Update α) (f : α → Update β) (r : Registry) :
    (x >>= f).run r = match x.run r with
      | .ok a r' => (f a).run r'
      | .error e r' => .error e r' := by
  simp only [EStateM.run, bind, EStateM.bind]
  cases x r <;> rfl

/-- A result without a step leaves the registry as it is. -/
lemma run_ofExcept (x : Except InterfaceError α) (r : Registry) :
    (ofExcept x : Update α).run r = match x with
      | .ok a => .ok a r
      | .error e => .error e r := by
  cases x <;> rfl

/-- Looking at the registry leaves it as it is. -/
lemma run_get (r : Registry) : (get : Update Registry).run r = .ok r r := rfl

/-- Collecting resolves the contracts of a batch and leaves the registry as it is. -/
lemma run_collect (pending : List Interface) (cs : List Document.Contract) (r : Registry) :
    (collect pending cs).run r =
      match resolveBatch (r.names ++ pending.map (·.name)) cs with
      | .ok is => .ok (pending ++ is) r
      | .error e => .error e r := by
  induction cs generalizing pending with
  | nil =>
    change EStateM.Result.ok pending r = .ok (pending ++ []) r
    rw [List.append_nil]
  | cons c cs ih =>
    simp only [collect, run_bind, run_get, run_ofExcept]
    rw [resolveBatch]
    cases checkNew (r.names ++ pending.map (·.name)) c.name with
    | error e => rfl
    | ok _ =>
      cases resolved : c.resolve with
      | error e => rfl
      | ok i =>
        have same : resolveBatch (r.names ++ (pending ++ [i]).map (·.name)) cs =
            resolveBatch (c.name :: (r.names ++ pending.map (·.name))) cs := by
          apply resolveBatch_congr
          simp [Document.Contract.name_of_resolve resolved, or_comm, or_left_comm]
        simp only [ok_bind, ih, same]
        cases resolveBatch (c.name :: (r.names ++ pending.map (·.name))) cs <;>
          simp [pure, Except.pure]

end Update

namespace Operation

/-- An operation in place leaves the registry that it makes, or the registry as it was. -/
lemma run_update (o : Operation) (r : Registry) :
    o.update.run r = match o.apply r with
      | .ok r' => .ok () r'
      | .error e => .error e r := by
  cases o with
  | extend text =>
    rw [update, apply, Update.extend, Registry.extend]
    cases Document.parse? text with
    | none => rfl
    | some document =>
      simp only [Update.run_bind, Update.run_collect, addDocument, List.map_nil, List.append_nil]
      cases resolveBatch r.names document.contracts <;> rfl
  | add c =>
    simp only [update, apply, Update.add, Registry.add, Update.run_bind, Update.run_get,
      Update.run_ofExcept]
    cases checkNew r.names c.name with
    | error e => rfl
    | ok _ => cases c.resolve <;> rfl

/-- An operation that succeeds puts its contracts, resolved, behind those that are there. -/
lemma exists_of_apply {o : Operation} (e : o.apply r = .ok r') :
    ∃ added, resolveBatch r.names o.contracts = .ok added ∧ r' = ⟨r.interfaces ++ added⟩ := by
  cases o with
  | extend text =>
    rw [apply, Registry.extend] at e
    cases read : Document.parse? text with
    | none => simp [read] at e
    | some document =>
      simp only [read] at e
      obtain ⟨added, resolved, e⟩ := bind_eq_ok_iff.mp e
      exact ⟨added, by simpa [contracts, read] using resolved, (Except.ok.inj e).symm⟩
  | add c =>
    obtain ⟨_, new, e⟩ := bind_eq_ok_iff.mp e
    obtain ⟨i, resolved, e⟩ := bind_eq_ok_iff.mp e
    refine ⟨[i], ?_, (Except.ok.inj e).symm⟩
    rw [contracts, resolveBatch, new, resolved]
    rfl

/-- What resolved contracts have, an operation that succeeds keeps for all interfaces. -/
lemma forall_interfaces_of_apply {P : Interface → Prop} {o : Operation}
    (resolved : ∀ (c : Document.Contract) i, c.resolve = .ok i → P i)
    (kept : ∀ i ∈ r.interfaces, P i) (e : o.apply r = .ok r') : ∀ i ∈ r'.interfaces, P i := by
  obtain ⟨added, batch, rfl⟩ := exists_of_apply e
  obtain ⟨each, -, -⟩ := of_resolveBatch batch
  refine List.forall_mem_append.mpr ⟨kept, fun i member => ?_⟩
  obtain ⟨c, -, built⟩ := exists_of_mem_mapM (mapM_eq_ok_iff.mpr each) member
  exact resolved c i built

end Operation

/-! ## Well-formed registries -/

/-- A registry in which each name of an interface, and in an interface each name of an endpoint, is
that of one only. -/
structure WellFormed (r : Registry) : Prop where
  interfaces : r.names.Nodup
  endpoints : ∀ i ∈ r.interfaces, (i.endpoints.map (·.name)).Nodup

/-- The registries that operations, successful or not, make of the empty one. -/
inductive Reachable : Registry → Prop
  | empty : Reachable .empty
  | success {r r' : Registry} {o : Operation} :
    Reachable r → o.update.run r = .ok () r' → Reachable r'
  | failure {r r' : Registry} {o : Operation} {e : InterfaceError} :
    Reachable r → o.update.run r = .error e r' → Reachable r'

/-- An operation that succeeds keeps a registry well formed. -/
lemma WellFormed.apply {o : Operation} (h : r.WellFormed) (e : o.apply r = .ok r') :
    r'.WellFormed := by
  refine ⟨?_, Operation.forall_interfaces_of_apply ?_ h.endpoints e⟩
  · obtain ⟨added, resolved, rfl⟩ := Operation.exists_of_apply e
    obtain ⟨-, distinct, fresh⟩ := of_resolveBatch resolved
    rw [names, List.map_append, List.nodup_append]
    refine ⟨h.interfaces, distinct, ?_⟩
    rintro name old _ new rfl
    obtain ⟨i, member, rfl⟩ := List.mem_map.mp new
    exact fresh i member old
  · exact fun c i resolved => (Document.Contract.names_of_resolve resolved).2

/-- What the empty registry has, and an operation that succeeds keeps, every registry has that
operations lead to. -/
lemma Reachable.of_apply {P : Registry → Prop} (empty : P .empty)
    (step : ∀ r r' (o : Operation), P r → o.apply r = .ok r' → P r') (h : Reachable r) : P r := by
  induction h with
  | empty => exact empty
  | @success r r' o _ e ih =>
    cases made : o.apply r with
    | error _ => simp [Operation.run_update, made] at e
    | ok r'' =>
      simp only [Operation.run_update, made, EStateM.Result.ok.injEq, true_and] at e
      exact e ▸ step r r'' o ih made
  | @failure r r' o _ _ e ih =>
    cases made : o.apply r with
    | error _ =>
      simp only [Operation.run_update, made, EStateM.Result.error.injEq] at e
      exact e.2 ▸ ih
    | ok r'' => simp [Operation.run_update, made] at e

/-- What resolved contracts have, all interfaces have of a registry that operations lead to. -/
lemma Reachable.forall_interfaces {P : Interface → Prop} (h : Reachable r)
    (resolved : ∀ (c : Document.Contract) i, c.resolve = .ok i → P i) :
    ∀ i ∈ r.interfaces, P i :=
  h.of_apply (by simp [Registry.empty]) fun _ _ _ =>
    Operation.forall_interfaces_of_apply resolved

/-- Interfaces of a reachable registry have distinct names, and so have their endpoints. -/
lemma Reachable.wellFormed (h : Reachable r) : r.WellFormed :=
  h.of_apply ⟨List.nodup_nil, by simp [Registry.empty]⟩ fun _ _ _ formed => formed.apply

/-- An interface of a registry is found by its name. -/
lemma WellFormed.find_of_mem (h : r.WellFormed) (member : i ∈ r.interfaces) :
    r.find i.name = .ok i := by
  have first : r.interfaces.find? (·.name = i.name) = some i :=
    find?_eq_some_of_mem h.interfaces member
  rw [find, first]

/-- The view of all names of a well-formed registry is that of all interfaces. -/
lemma WellFormed.restrict_names (h : r.WellFormed) : r.restrict r.names = .ok r.all := by
  have found : r.names.mapM r.find = .ok r.interfaces := by
    rw [mapM_eq_ok_iff, names, List.forall₂_map_left_iff, List.forall₂_same]
    exact fun i => h.find_of_mem
  rw [restrict, found]
  rfl

/-- Loading. In a registry that operations lead to, whether they succeed or not, no two interfaces
have one name, and no two endpoints of an interface. An operation on it in place either fails and
leaves it as it was, or puts its contracts, resolved and in their order, behind the interfaces that
are there. Loading a document is adding its contracts one after another up to the first that fails.
The view of all names is the view of everything. -/
theorem reachable_loading {r : Registry} (h : Reachable r) :
    r.names.Nodup ∧
    (∀ i ∈ r.interfaces, (i.endpoints.map (·.name)).Nodup) ∧
    (∀ o : Operation,
      (∃ e, o.apply r = .error e ∧ o.update.run r = .error e r) ∨
      ∃ added, List.Forall₂ (fun c i => c.resolve = .ok i) o.contracts added ∧
        o.apply r = .ok ⟨r.interfaces ++ added⟩ ∧
        o.update.run r = .ok () ⟨r.interfaces ++ added⟩) ∧
    (∀ text document, Document.parse? text = some document →
      r.extend text = document.contracts.foldlM add r) ∧
    r.restrict r.names = .ok r.all := by
  have formed := h.wellFormed
  refine ⟨formed.interfaces, formed.endpoints, fun o => ?_, fun text document read => ?_,
    formed.restrict_names⟩
  · cases made : o.apply r with
    | error e => exact .inl ⟨e, rfl, by rw [Operation.run_update, made]⟩
    | ok r' =>
      obtain ⟨added, resolved, rfl⟩ := Operation.exists_of_apply made
      exact .inr ⟨added, (of_resolveBatch resolved).1, rfl, by rw [Operation.run_update, made]⟩
  · rw [extend, read]
    exact addDocument_eq_foldlM r document

/-- A document whose second contract has the name of one that is there leaves nothing of its first
one. -/
theorem reachable_loading_repeated_name :
    let counter : Document.Contract := ⟨"Counter", [], none, [⟨"get", [], none, [], [], []⟩], []⟩
    let r : Registry := ⟨[⟨"Counter", [], none, [.make "get" [] [] [] .mutable []], []⟩]⟩
    let document := Operation.extend "[[\"Alpha\"],[\"Counter\"]]"
    (Operation.add counter).update.run .empty = .ok () r ∧
      document.update.run r = .error (.invalidDocument (.repeatedInterface "Counter")) r ∧
        r.restrict ["Counter"] = .ok r.all := by
  intro counter r document
  have added : (Operation.add counter).update.run .empty = .ok () r := by cbv
  have refused : document.apply r = .error (.invalidDocument (.repeatedInterface "Counter")) := by
    cbv
  obtain ⟨-, -, outcome, -, everything⟩ := reachable_loading (.success .empty added)
  refine ⟨added, ?_, everything⟩
  rcases outcome document with ⟨e, fails, kept⟩ | ⟨_, -, made, -⟩
  · obtain rfl := Except.error.inj (refused.symm.trans fails)
    exact kept
  · cases refused.symm.trans made

/-! ## Views of loaded documents -/

/-- A view that is selected holds interfaces of the registry only. -/
lemma mem_of_select {selection : Option (List String)} {view : View}
    (selected : r.select selection = .ok view) (member : i ∈ view.interfaces) :
    i ∈ r.interfaces := by
  cases selection with
  | none =>
    obtain rfl := Except.ok.inj selected
    exact member
  | some names =>
    obtain ⟨found, each, rfl⟩ := map_eq_ok_iff.mp selected
    obtain ⟨name, -, found⟩ := exists_of_mem_mapM each member
    rw [find] at found
    split at found
    · next i' first =>
      obtain rfl := Except.ok.inj found
      exact List.mem_of_find?_eq_some first
    · cases found

/-- The endpoints of a loaded interface have the names that the document spells. -/
lemma exists_contract_of_parse {text : String} {document : Document}
    (loaded : Registry.parse text = .ok r) (read : Document.parse? text = some document)
    (member : i ∈ r.interfaces) :
    ∃ c ∈ document.contracts, i.endpoints.map (·.name) = c.endpoints.map (·.name) := by
  rw [Registry.parse, Registry.extend, read] at loaded
  obtain ⟨batch, resolved, rfl⟩ := map_eq_ok_iff.mp loaded
  obtain ⟨each, -, -⟩ := of_resolveBatch resolved
  obtain ⟨c, listed, resolved⟩ := exists_of_mem_mapM (mapM_eq_ok_iff.mpr each) member
  exact ⟨c, listed, (Document.Contract.names_of_resolve resolved).1⟩

end Registry

/-- An endpoint is found under its own name, or the constructor under the name of constructors. -/
lemma View.exists_of_endpoint {view : View} {name : String} {e : Endpoint}
    (h : view.endpoint name = .ok e) :
    name = Document.constructorName ∨
      ∃ i ∈ view.interfaces, name ∈ i.endpoints.map (·.name) := by
  rw [View.endpoint] at h
  split at h
  · next e' found =>
    obtain ⟨i, member, found⟩ := List.exists_of_findSome?_eq_some found
    rw [Interface.endpoint?] at found
    split_ifs at found with constructor
    · exact .inl constructor
    · have named := List.find?_some found
      have listed := List.mem_of_find?_eq_some found
      exact .inr ⟨i, member, List.mem_map.mpr ⟨e', listed, by simpa using named⟩⟩
  · cases h

end ContractCalls

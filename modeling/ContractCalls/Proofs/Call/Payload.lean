import ContractCalls.Call.Interaction
import ContractCalls.Proofs.Bytes.Hex
import ContractCalls.Proofs.Interface.Registry

/-!
# Call data and how it is read

No hexadecimal form holds a separator, so rendering a call puts its arguments behind whatever its
function is read as (`Payload.parse_render`). A call is read back as itself exactly if its function
is a name: a text that is not empty and holds no separator (`Payload.parse_render_eq_ok_iff`). The
functions of transfers are such names. Those of endpoints are as a document spells them, and no
step of loading refuses a spelling (`Interaction.parse_render_of_build`).
-/

namespace ContractCalls

namespace Text

variable {mark : Char} {cs : List Char}

/-- The parts are those that the library splits a list into. -/
lemma splitAt_eq_splitOn (mark : Char) (cs : List Char) : splitAt mark cs = cs.splitOn mark := by
  induction cs with
  | nil => rfl
  | cons c cs ih =>
    rw [splitAt, ih, List.splitOn_cons_eq_if_modifyHead]
    simp only [beq_iff_eq]
    split_ifs
    · rfl
    · cases parts : cs.splitOn mark with
      | nil => exact absurd parts (List.splitOn_ne_nil mark cs)
      | cons part parts => rfl

/-- A text splits into one part at least. -/
lemma splitAt_ne_nil : splitAt mark cs ≠ [] := by
  rw [splitAt_eq_splitOn]
  exact List.splitOn_ne_nil mark cs

/-- The parts of two texts with the mark between them. -/
lemma splitAt_append (cs ds : List Char) :
    splitAt mark (cs ++ mark :: ds) = splitAt mark cs ++ splitAt mark ds := by
  simp only [splitAt_eq_splitOn, List.splitOn_append_cons_self]

/-- A text without the mark is one part. -/
lemma splitAt_of_not_mem (h : mark ∉ cs) : splitAt mark cs = [cs] := by
  rw [splitAt_eq_splitOn, List.splitOn_eq_singleton h]

/-- No part holds the mark. -/
lemma not_mem_of_mem_splitAt {part : List Char} (h : part ∈ splitAt mark cs) : mark ∉ part := by
  induction cs generalizing part with
  | nil =>
    obtain rfl := List.mem_singleton.mp h
    simp
  | cons c cs ih =>
    rw [splitAt] at h
    split_ifs at h with same
    · rcases List.mem_cons.mp h with rfl | behind
      · simp
      · exact ih behind
    · cases parts : splitAt mark cs with
      | nil => exact absurd parts splitAt_ne_nil
      | cons first others =>
        rw [parts] at h ih
        rcases List.mem_cons.mp h with rfl | behind
        · exact List.not_mem_cons_of_ne_of_not_mem (Ne.symm same) (ih (by simp))
        · exact ih (by simp [behind])

end Text

namespace Payload

open Text

variable {p q : Payload} {name : String} {index : Nat} {parts parts' : List (List Char)}

/-- A text that call data can start with as the name of a function. -/
structure IsFunctionName (name : String) : Prop where
  nonempty : name ≠ ""
  unmarked : separator ∉ name.toList

/-! ## Arguments -/

/-- No separator stands in a hexadecimal form. -/
lemma separator_not_mem_encode (bs : Bytes) : separator ∉ (Hex.encode bs).toList := by
  intro h
  obtain ⟨n, small, same⟩ := Hex.exists_hexDigit_of_mem_encode h
  have other : ∀ n < 16, separator ≠ hexDigit n := by decide
  exact other n small same

/-- Parts are read one after another, with positions that go on. -/
lemma readArguments_append :
    readArguments index (parts ++ parts') = do
      let before ← readArguments index parts
      let behind ← readArguments (index + parts.length) parts'
      return before ++ behind := by
  induction parts generalizing index with
  | nil => simp [readArguments]
  | cons part parts ih =>
    rw [List.cons_append, readArguments, readArguments, List.length_cons, ih]
    cases (Hex.decode (String.ofList part)).mapError (PayloadError.invalidHex index) with
    | error e => rfl
    | ok argument =>
      rw [Nat.add_right_comm, Nat.add_assoc]
      cases readArguments (index + 1) parts with
      | error e => rfl
      | ok before => cases readArguments (index + (parts.length + 1)) parts' <;> rfl

/-- Hexadecimal forms are read as the arguments, wherever they stand. -/
lemma readArguments_encode (index : Nat) (arguments : List Bytes) :
    readArguments index (arguments.map fun bs => (Hex.encode bs).toList) = .ok arguments := by
  induction arguments generalizing index with
  | nil => rfl
  | cons bs arguments ih =>
    rw [List.map_cons, readArguments, String.ofList_toList, Hex.decode_encode, ih]
    rfl

/-- The parts of a rendered call are those of its function and the hexadecimal forms. -/
lemma splitAt_render (p : Payload) :
    splitAt separator p.render.toList = splitAt separator p.function.toList ++
      p.arguments.map fun bs => (Hex.encode bs).toList := by
  rw [render, String.toList_ofList]
  generalize p.function.toList = start
  induction p.arguments generalizing start with
  | nil => simp
  | cons bs arguments ih =>
    have single := splitAt_of_not_mem (separator_not_mem_encode bs)
    rw [List.flatMap_cons, List.cons_append, splitAt_append, ih, single, List.map_cons]
    rfl

/-! ## Functions -/

/-- A rendered call is read as its function is, with its own arguments behind those that the
function is read with. -/
theorem parse_render (p : Payload) :
    parse p.render = do
      let q ← parse p.function
      return ⟨q.function, q.arguments ++ p.arguments⟩ := by
  rw [parse, parse, splitAt_render]
  cases split : splitAt separator p.function.toList with
  | nil => exact absurd split splitAt_ne_nil
  | cons start parts =>
    cases start with
    | nil => rfl
    | cons c start =>
      simp only [List.cons_append, readArguments_append, readArguments_encode]
      cases readArguments 0 parts <;> rfl

/-- The function of call data that is read has a name that call data can hold. -/
lemma isFunctionName_of_parse {data : String} (h : parse data = .ok q) :
    IsFunctionName q.function := by
  rw [parse] at h
  cases split : splitAt separator data.toList with
  | nil => exact absurd split splitAt_ne_nil
  | cons start parts =>
    cases start with
    | nil => simp [split] at h
    | cons c start =>
      simp only [split] at h
      obtain ⟨arguments, -, rfl⟩ := map_eq_ok_iff.mp h
      have unmarked := not_mem_of_mem_splitAt (split ▸ List.mem_cons_self)
      exact ⟨by simp, by rwa [String.toList_ofList]⟩

/-- A name that call data can hold is read as a call without arguments. -/
lemma IsFunctionName.parse_eq (h : IsFunctionName name) : parse name = .ok ⟨name, []⟩ := by
  rw [parse, splitAt_of_not_mem h.unmarked]
  cases start : name.toList with
  | nil => exact absurd (String.toList_eq_nil_iff.mp start) h.nonempty
  | cons c start =>
    simp only [readArguments, ← start, String.ofList_toList]
    rfl

/-- A rendered call is read back exactly if its function is a name. -/
theorem parse_render_eq_ok_iff : parse p.render = .ok p ↔ IsFunctionName p.function := by
  refine ⟨isFunctionName_of_parse, fun h => ?_⟩
  rw [parse_render, h.parse_eq]
  rfl

end Payload

namespace Interaction

open Payload

variable {i : Interaction} {p call : Payload} {r : Registry} {view : View} {text : String}
  {names : Option (List String)}

/-- A call without tokens stands as it is, any other in the call of a transfer function. -/
lemma wrap_eq_ok (h : i.wrap call = .ok p) :
    (i.tokens = [] ∧ p = call) ∨ (i.tokens ≠ [] ∧ IsFunctionName p.function) := by
  have transfer : ∀ name ∈ ["ESDTTransfer", "ESDTNFTTransfer", "MultiESDTNFTTransfer"],
      IsFunctionName name := by
    intro name member
    fin_cases member <;> exact ⟨by decide, by decide⟩
  rw [wrap] at h
  split at h
  · next empty => exact .inl ⟨empty, (Except.ok.inj h).symm⟩
  · next t single =>
    refine .inr ⟨by simp [single], ?_⟩
    split_ifs at h
    · obtain rfl := Except.ok.inj h
      exact transfer _ (by simp [transferFungible])
    · obtain ⟨receiver, -, rfl⟩ := map_eq_ok_iff.mp h
      exact transfer _ (by simp [transferSingle])
  · next carries _ =>
    obtain ⟨receiver, -, rfl⟩ := map_eq_ok_iff.mp h
    exact .inr ⟨carries, transfer _ (by simp [transferSeveral])⟩

/-- What is built is read back exactly if it carries tokens or its function is a name. -/
lemma parse_render_eq_ok_iff_of_build (built : i.build view = .ok p) :
    parse p.render = .ok p ↔ i.tokens ≠ [] ∨ IsFunctionName i.function := by
  obtain ⟨e, -, built⟩ := bind_eq_ok_iff.mp built
  obtain ⟨arguments, -, wrapped⟩ := bind_eq_ok_iff.mp built
  rw [parse_render_eq_ok_iff]
  rcases wrap_eq_ok wrapped with ⟨empty, rfl⟩ | ⟨carries, transfer⟩
  · simp [empty]
  · exact ⟨fun _ => .inl carries, fun _ => transfer⟩

/-- Call data that is built for a view of a loaded document reads back as the call that was checked,
unless the call carries no tokens and its function is empty or holds a separator. The function is
as the document spells it, so it is a name where the document names all of its endpoints so. -/
theorem parse_render_of_build (loaded : Registry.parse text = .ok r)
    (selected : r.select names = .ok view) (built : i.build view = .ok p) :
    (parse p.render = .ok p ↔ i.tokens ≠ [] ∨ IsFunctionName i.function) ∧
      ∀ document, Document.parse? text = some document →
        (∀ c ∈ document.contracts, ∀ e ∈ c.endpoints, IsFunctionName e.name) →
          parse p.render = .ok p := by
  refine ⟨parse_render_eq_ok_iff_of_build built, fun document read spelled => ?_⟩
  refine (parse_render_eq_ok_iff_of_build built).mpr (.inr ?_)
  obtain ⟨e, checked, -⟩ := bind_eq_ok_iff.mp built
  obtain ⟨e, found, -⟩ := bind_eq_ok_iff.mp checked
  cases lookup : view.endpoint i.function with
  | error _ => simp [lookup, Except.mapError] at found
  | ok e =>
    -- Only the constructor has a name that the document does not spell.
    rcases View.exists_of_endpoint lookup with constructor | ⟨owner, member, named⟩
    · rw [constructor]
      exact ⟨by decide, by decide⟩
    · have member := Registry.mem_of_select selected member
      obtain ⟨c, listed, same⟩ := Registry.exists_contract_of_parse loaded read member
      rw [same] at named
      obtain ⟨raw, declared, name⟩ := List.mem_map.mp named
      exact name ▸ spelled c listed raw declared

/-- A call of an endpoint whose name is a function name. -/
theorem parse_render_of_build_name :
    let text := "\x7b\"name\":\"A\",\"endpoints\":[\x7b\"name\":\"reset\"\x7d]\x7d"
    let r : Registry := ⟨[⟨"A", [], none, [.make "reset" [] [] [] .mutable []], []⟩]⟩
    Registry.parse text = .ok r ∧ r.select none = .ok r.all ∧
      (make "reset" []).build r.all = .ok ⟨"reset", []⟩ ∧
        parse (render ⟨"reset", []⟩) = .ok ⟨"reset", []⟩ := by
  intro text r
  have loaded : Registry.parse text = .ok r := by cbv
  have built : (make "reset" []).build r.all = .ok ⟨"reset", []⟩ := by cbv
  have selected : r.select none = .ok r.all := rfl
  have back := (parse_render_of_build loaded selected built).1.mpr (.inr ⟨by decide, by decide⟩)
  exact ⟨loaded, selected, built, back⟩

/-- A document may spell a separator in the name of an endpoint. A call of it is built without
arguments and read with one. -/
theorem parse_render_of_build_separator :
    let text := "\x7b\"name\":\"A\",\"endpoints\":[\x7b\"name\":\"f@00\"\x7d]\x7d"
    let r : Registry := ⟨[⟨"A", [], none, [.make "f@00" [] [] [] .mutable []], []⟩]⟩
    Registry.parse text = .ok r ∧ (make "f@00" []).build r.all = .ok ⟨"f@00", []⟩ ∧
      parse (render ⟨"f@00", []⟩) = .ok ⟨"f", [[0]]⟩ := by
  exact ⟨by cbv, by cbv, by cbv⟩

end Interaction

end ContractCalls

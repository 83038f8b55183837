import ContractCalls.Proofs.Bytes.BigEndian
import ContractCalls.Proofs.Call.Payload

/-!
# Calls that carry tokens

What the call data of a call with tokens tells about the call. There are three ways to wrap a call,
each in a function of its own (`Interaction.Wraps`). Texts, numbers and transfers are written as
different bytes if they differ, and a number in front of several transfers says how many there are,
so a wrapped call is wrapped in one way only (`Wraps.unique`). Two calls with tokens are rendered
alike exactly if they agree in all that is written (`Interaction.render_eq_iff`).
-/

namespace ContractCalls

/-! ## What is written differs -/

/-- Different numbers have different bytes. -/
lemma Bytes.ofNat_injective : Function.Injective Bytes.ofNat :=
  Function.LeftInverse.injective toNat_ofNat

/-- Different keys have different bytes. -/
lemma Key.bytes_injective : Function.Injective Key.bytes := by
  intro key key' same
  cases key
  cases key'
  cases same
  rfl

namespace Payload

variable {p q call call' : Payload} {t t' : TokenTransfer} {ts ts' : List TokenTransfer}

/-- Different calls are different as arguments. -/
lemma asArguments_injective : Function.Injective asArguments := by
  intro call call' same
  obtain ⟨function, arguments⟩ := List.cons.inj same
  cases call
  cases call'
  exact congrArg₂ _ (Bytes.ofText_injective function) arguments

/-- Different transfers have different arguments. -/
lemma transferArguments_injective : Function.Injective transferArguments := by
  intro t t' same
  cases t
  cases t'
  simp only [transferArguments, List.cons.injEq, and_true] at same
  obtain ⟨token, nonce, amount⟩ := same
  obtain rfl := Bytes.ofText_injective token
  obtain rfl := UInt64.toNat_inj.mp (Bytes.ofNat_injective nonce)
  obtain rfl := Bytes.ofNat_injective amount
  rfl

/-- As many transfers are told apart from what follows them. -/
lemma flatMap_transferArguments_inj {rest rest' : List Bytes} (count : ts.length = ts'.length)
    (same : ts.flatMap transferArguments ++ rest = ts'.flatMap transferArguments ++ rest') :
    ts = ts' ∧ rest = rest' := by
  induction ts generalizing ts' with
  | nil =>
    obtain rfl := List.length_eq_zero_iff.mp count.symm
    exact ⟨rfl, same⟩
  | cons t ts ih =>
    cases ts' with
    | nil => simp at count
    | cons t' ts' =>
      rw [List.flatMap_cons, List.flatMap_cons, List.append_assoc, List.append_assoc] at same
      obtain ⟨first, others⟩ := List.append_inj same rfl
      obtain rfl := transferArguments_injective first
      obtain ⟨rfl, rfl⟩ := ih (by simpa using count) others
      exact ⟨rfl, rfl⟩

/-- A call with a fungible token tells all of it but the nonce, and the call. -/
lemma transferFungible_inj (same : call.transferFungible t = call'.transferFungible t') :
    t.token = t'.token ∧ t.amount = t'.amount ∧ call = call' := by
  simp only [transferFungible, mk.injEq, List.cons_append, List.nil_append, List.cons.injEq,
    true_and] at same
  obtain ⟨token, amount, inner⟩ := same
  exact ⟨Bytes.ofText_injective token, Bytes.ofNat_injective amount, asArguments_injective inner⟩

/-- A call with a token that has a nonce tells the transfer, the contract and the call. -/
lemma transferSingle_inj (same : call.transferSingle t key = call'.transferSingle t' key') :
    t = t' ∧ key = key' ∧ call = call' := by
  have arguments : transferArguments t ++ (key.bytes :: call.asArguments) =
      transferArguments t' ++ (key'.bytes :: call'.asArguments) := congrArg Payload.arguments same
  obtain ⟨transfer, behind⟩ := List.append_inj arguments rfl
  obtain ⟨contract, inner⟩ := List.cons.inj behind
  exact ⟨transferArguments_injective transfer, Key.bytes_injective contract,
    asArguments_injective inner⟩

/-- A call with several tokens tells all transfers, the contract and the call. -/
lemma transferSeveral_inj (same : call.transferSeveral ts key = call'.transferSeveral ts' key') :
    ts = ts' ∧ key = key' ∧ call = call' := by
  simp only [transferSeveral, mk.injEq, List.cons_append, List.nil_append, List.cons.injEq,
    true_and] at same
  obtain ⟨contract, count, behind⟩ := same
  obtain ⟨transfers, inner⟩ :=
    flatMap_transferArguments_inj (Bytes.ofNat_injective count) behind
  exact ⟨transfers, Key.bytes_injective contract, asArguments_injective inner⟩

/-- Calls of functions with names are rendered in different ways. -/
lemma eq_of_render_eq (hp : IsFunctionName p.function) (hq : IsFunctionName q.function)
    (same : p.render = q.render) : p = q := by
  have back := parse_render_eq_ok_iff.mpr hp
  rw [same, parse_render_eq_ok_iff.mpr hq] at back
  exact (Except.ok.inj back).symm

end Payload

namespace Interaction

open Payload

variable {i j : Interaction} {p q call call' : Payload} {view view' : View}
  {ts ts' : List TokenTransfer} {receiver receiver' : Option Key}

/-- A call is wrapped in the transfer of tokens: of one fungible token, sent to the contract, of one
token with a nonce, or of several tokens, where the contract is named. -/
inductive Wraps : List TokenTransfer → Option Key → Payload → Payload → Prop
  | fungible {t : TokenTransfer} {receiver : Option Key} {call : Payload} :
    t.isFungible → Wraps [t] receiver call (call.transferFungible t)
  | single {t : TokenTransfer} {key : Key} {call : Payload} :
    ¬t.isFungible → Wraps [t] (some key) call (call.transferSingle t key)
  | several {ts : List TokenTransfer} {key : Key} {call : Payload} :
    2 ≤ ts.length → Wraps ts (some key) call (call.transferSeveral ts key)

/-- The key that is found is that of the receiver. -/
lemma receiverKey_eq_ok {key : Key} (e : i.receiverKey = .ok key) : i.receiver = some key := by
  rw [receiverKey] at e
  split at e
  · next found => rw [found, Except.ok.inj e]
  · cases e

/-- A call with tokens is wrapped in their transfer. -/
lemma wraps_of_wrap (carries : i.tokens ≠ []) (e : i.wrap call = .ok p) :
    Wraps i.tokens i.receiver call p := by
  rw [wrap] at e
  split at e
  · next empty => exact absurd empty carries
  · next t single =>
    rw [single]
    split_ifs at e with fungible
    · obtain rfl := Except.ok.inj e
      exact .fungible fungible
    · obtain ⟨key, found, rfl⟩ := map_eq_ok_iff.mp e
      rw [receiverKey_eq_ok found]
      exact .single fungible
  · next nonempty single =>
    obtain ⟨key, found, rfl⟩ := map_eq_ok_iff.mp e
    rw [receiverKey_eq_ok found]
    refine .several ?_
    cases tokens : i.tokens with
    | nil => exact absurd tokens nonempty
    | cons t others =>
      cases others with
      | nil => exact absurd tokens (single t)
      | cons _ _ => simp

/-- A wrapped call tells the call and the transfers, and the contract unless it is sent there. -/
theorem Wraps.unique (h : Wraps ts receiver call p) (h' : Wraps ts' receiver' call' q)
    (same : p = q) :
    call = call' ∧ ts = ts' ∧ ((∃ t, ts = [t] ∧ t.isFungible) ∨ receiver = receiver') := by
  -- The names of the functions differ, so only calls that are wrapped alike are left.
  cases h with
  | @fungible t _ call fungible =>
    cases h' with
    | @fungible t' _ call' fungible' =>
      obtain ⟨token, amount, inner⟩ := transferFungible_inj same
      obtain ⟨_, nonce, _⟩ := t
      obtain ⟨_, nonce', _⟩ := t'
      obtain rfl : nonce = 0 := by simpa [TokenTransfer.isFungible] using fungible
      obtain rfl : nonce' = 0 := by simpa [TokenTransfer.isFungible] using fungible'
      obtain rfl := token
      obtain rfl := amount
      exact ⟨inner, rfl, .inl ⟨_, rfl, fungible⟩⟩
    | single _ => simp [transferFungible, transferSingle] at same
    | several _ => simp [transferFungible, transferSeveral] at same
  | single _ =>
    cases h' with
    | fungible _ => simp [transferFungible, transferSingle] at same
    | single _ =>
      obtain ⟨rfl, rfl, rfl⟩ := transferSingle_inj same
      exact ⟨rfl, rfl, .inr rfl⟩
    | several _ => simp [transferSingle, transferSeveral] at same
  | several _ =>
    cases h' with
    | fungible _ => simp [transferFungible, transferSeveral] at same
    | single _ => simp [transferSingle, transferSeveral] at same
    | several _ =>
      obtain ⟨rfl, rfl, rfl⟩ := transferSeveral_inj same
      exact ⟨rfl, rfl, .inr rfl⟩

/-- A call is wrapped in one way, whichever contract a transfer to it leaves unnamed. -/
lemma Wraps.eq (h : Wraps ts receiver call p) (h' : Wraps ts receiver' call q)
    (contract : (∃ t, ts = [t] ∧ t.isFungible) ∨ receiver = receiver') : p = q := by
  cases h with
  | fungible fungible =>
    cases h' with
    | fungible _ => rfl
    | single other => exact absurd fungible other
    | several many => simp at many
  | single other =>
    cases h' with
    | fungible fungible => exact absurd fungible other
    | single _ =>
      rcases contract with ⟨t, only, fungible⟩ | named
      · obtain rfl := List.singleton_inj.mp only
        exact absurd fungible other
      · cases named
        rfl
    | several many => simp at many
  | several many =>
    cases h' with
    | fungible _ => simp at many
    | single _ => simp at many
    | several _ =>
      rcases contract with ⟨t, only, _⟩ | named
      · simp [only] at many
      · cases named
        rfl

/-- What is built of a call with tokens is its transfer of the call with encoded arguments. -/
lemma wraps_of_build (built : i.build view = .ok p) (carries : i.tokens ≠ []) :
    ∃ arguments, Value.encodeArguments i.arguments = .ok arguments ∧
      Wraps i.tokens i.receiver ⟨i.function, arguments⟩ p ∧ IsFunctionName p.function := by
  obtain ⟨e, -, built⟩ := bind_eq_ok_iff.mp built
  obtain ⟨arguments, encoded, wrapped⟩ := bind_eq_ok_iff.mp built
  refine ⟨arguments, mapError_eq_ok_iff.mp encoded, wraps_of_wrap carries wrapped, ?_⟩
  rcases wrap_eq_ok wrapped with ⟨empty, -⟩ | ⟨-, name⟩
  · exact absurd empty carries
  · exact name

/-- Calls that carry tokens, each built for any view, are rendered alike exactly if they have the
same function, encoded arguments and transfers and, unless a single fungible token is transferred,
the same contract. -/
theorem render_eq_iff (built : i.build view = .ok p) (built' : j.build view' = .ok q)
    (carries : i.tokens ≠ []) (carries' : j.tokens ≠ []) :
    p.render = q.render ↔
      i.function = j.function ∧
      Value.encodeArguments i.arguments = Value.encodeArguments j.arguments ∧
      i.tokens = j.tokens ∧ ((∃ t, i.tokens = [t] ∧ t.isFungible) ∨ i.receiver = j.receiver) := by
  obtain ⟨arguments, encoded, wraps, name⟩ := wraps_of_build built carries
  obtain ⟨arguments', encoded', wraps', name'⟩ := wraps_of_build built' carries'
  refine ⟨fun same => ?_, fun same => ?_⟩
  · obtain ⟨call, transfers, contract⟩ := wraps.unique wraps' (eq_of_render_eq name name' same)
    obtain ⟨function, rfl⟩ := (Payload.mk.injEq ..).mp call
    exact ⟨function, encoded.trans encoded'.symm, transfers, contract⟩
  · obtain ⟨function, encodedAlike, transfers, contract⟩ := same
    obtain rfl : arguments = arguments' :=
      Except.ok.inj (encoded.symm.trans (encodedAlike.trans encoded'))
    rw [function] at wraps
    rw [← transfers] at wraps'
    rw [wraps.eq wraps' contract]

/-- Two calls that differ in the amount of the second of two tokens, which is zero for one of them,
are rendered in different ways. -/
theorem render_eq_iff_two_tokens :
    let e : Endpoint := .make "buy" [] [] [] .mutable ["*"]
    let view : View := ⟨[⟨"Shop", [], none, [e], []⟩]⟩
    let key : Key := ⟨List.replicate 32 7, rfl⟩
    let call := { make "buy" [] with receiver := some key }
    let i := { call with tokens := [⟨"GOLD-1", 0, 5⟩, ⟨"CARD-2", 3, 1⟩] }
    let j := { call with tokens := [⟨"GOLD-1", 0, 5⟩, ⟨"CARD-2", 3, 0⟩] }
    ∃ p q, i.build view = .ok p ∧ j.build view = .ok q ∧ p.render ≠ q.render := by
  intro e view key call i j
  have built : i.build view =
      .ok ((⟨"buy", []⟩ : Payload).transferSeveral i.tokens key) := by cbv
  have built' : j.build view =
      .ok ((⟨"buy", []⟩ : Payload).transferSeveral j.tokens key) := by cbv
  refine ⟨_, _, built, built', fun same => ?_⟩
  obtain ⟨-, -, transfers, -⟩ := (render_eq_iff built built' (by decide) (by decide)).mp same
  exact absurd transfers (by decide)

end Interaction

end ContractCalls

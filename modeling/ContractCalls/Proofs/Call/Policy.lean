import ContractCalls.Proofs.Call.Encodable

/-!
# The verdict on a call

What the check of a call decides, said on the list of accepted assets as a document gives it. An
asset is accepted if it is listed, or if any asset is and it is not excluded (`Endpoint.Accepts`).
A call is refused for the first of its faults, assets before the number of the arguments and that
before the arguments (`Endpoint.FirstFault`), and otherwise accepted. The endpoint keeps the list in
two parts, and `Endpoint.isPayableInToken_make` says that they still hold what it accepts.
-/

namespace ContractCalls.Endpoint

/-- A list of accepted assets accepts an asset that is in it. If the mark of any asset is in it, it
accepts each that is not excluded. -/
def Accepts (listed : List String) (asset : String) : Prop :=
  asset ∈ listed ∨ (anyToken ∈ listed ∧ exclusion asset ∉ listed)

/-- All that is transferred is accepted. -/
structure AcceptsAll (accepts : String → Prop) (transferred : Transferred) : Prop where
  native : transferred.native = 0 ∨ accepts nativeToken
  tokens : ∀ t ∈ transferred.tokens, accepts t.token

/-- The first asset that is not accepted, the native one before the tokens. -/
inductive FirstRefused (accepts : String → Prop) (transferred : Transferred) : Asset → Prop
  | native : transferred.native ≠ 0 → ¬accepts nativeToken →
    FirstRefused accepts transferred .native
  | token {before after : List TokenTransfer} {t : TokenTransfer} :
    (transferred.native = 0 ∨ accepts nativeToken) → transferred.tokens = before ++ t :: after →
      (∀ u ∈ before, accepts u.token) → ¬accepts t.token →
        FirstRefused accepts transferred (.token t.token)

/-- The arguments before an index may be passed for their inputs. -/
def CompatibleBelow (inputs : List (Field Ty)) (arguments : List Value) (index : Nat) : Prop :=
  ∀ i < index, ∀ input v, inputs[i]? = some input → arguments[i]? = some v →
    Value.isCompatible input.type v

/-- The first argument that may not be passed for its input. -/
structure FirstMismatch (inputs : List (Field Ty)) (arguments : List Value) (index : Nat)
    (input : Field Ty) (v : Value) : Prop where
  input_at : inputs[index]? = some input
  argument_at : arguments[index]? = some v
  incompatible : ¬Value.isCompatible input.type v
  below : CompatibleBelow inputs arguments index

/-- The first fault of a call: an asset that is refused, a number of arguments that is not that of
the inputs, or an argument that may not be passed for its input. -/
inductive FirstFault (accepts : String → Prop) (inputs : List (Field Ty)) (arguments : List Value)
    (transferred : Transferred) : CallError → Prop
  | asset {asset : Asset} : FirstRefused accepts transferred asset →
    FirstFault accepts inputs arguments transferred (.notPayable asset)
  | arity : AcceptsAll accepts transferred → arguments.length ≠ inputs.length →
    FirstFault accepts inputs arguments transferred
      (.arityMismatch inputs.length arguments.length)
  | type {index : Nat} {input : Field Ty} {v : Value} : AcceptsAll accepts transferred →
    arguments.length = inputs.length → FirstMismatch inputs arguments index input v →
      FirstFault accepts inputs arguments transferred (.typeMismatch index input.type v.type)

variable {e : Endpoint} {listed : List String} {token : String} {inputs outputs : List (Field Ty)}
  {arguments : List Value} {transferred : Transferred} {asset : Asset} {err : CallError}
  {name : String} {docs : List String} {mutability : Mutability}

/-! ## Accepted assets -/

/-- An endpoint is payable in the native token exactly if its list accepts it. -/
lemma payableInNative_make :
    (make name docs inputs outputs mutability listed).payableInNative ↔
      Accepts listed nativeToken := by
  simp only [make, Accepts, List.any_eq_true, Bool.or_eq_true, Bool.and_eq_true, decide_eq_true_eq,
    Bool.not_eq_true', List.contains_eq_mem, decide_eq_false_iff_not]
  refine ⟨?_, ?_⟩
  · rintro ⟨_, member, rfl | ⟨rfl, kept⟩⟩
    · exact .inl member
    · exact .inr ⟨member, kept⟩
  · rintro (member | ⟨member, kept⟩)
    · exact ⟨_, member, .inl rfl⟩
    · exact ⟨_, member, .inr ⟨rfl, kept⟩⟩

/-- The tokens that an endpoint keeps are those of its list, without the entries for the native
asset. -/
lemma contains_payableInTokens_make :
    (make name docs inputs outputs mutability listed).payableInTokens.contains token ↔
      token ∈ listed ∧ token ≠ nativeToken ∧ token ≠ exclusion nativeToken := by
  simp [make]

/-- No exclusion is the native token. -/
lemma exclusion_ne_nativeToken : exclusion token ≠ nativeToken := by
  intro same
  have first := congrArg (·.toList.head?) same
  simp [exclusion, nativeToken] at first

/-- Exclusions of different tokens differ. -/
lemma exclusion_inj {other : String} (h : exclusion token = exclusion other) : token = other := by
  have behind := congrArg (·.toList.tail) h
  exact String.toList_inj.mp (by simpa [exclusion] using behind)

/-- Of an entry that excludes the native asset nothing is kept, so what is asked for must not be
spelled like it. -/
lemma isPayableInToken_make (plain : token ≠ exclusion nativeToken) :
    (make name docs inputs outputs mutability listed).isPayableInToken token ↔
      Accepts listed token := by
  rw [isPayableInToken]
  split_ifs with native own excluded
  · subst native
    exact payableInNative_make
  · have member := (contains_payableInTokens_make.mp own).1
    exact ⟨fun _ => .inl member, fun _ => rfl⟩
  · have member := (contains_payableInTokens_make.mp excluded).1
    refine ⟨fun h => by simp at h, ?_⟩
    rintro (listed | ⟨-, kept⟩)
    · exact absurd (contains_payableInTokens_make.mpr ⟨listed, native, plain⟩) own
    · exact absurd member kept
  · have kept : exclusion token ∉ listed := by
      intro member
      refine excluded (contains_payableInTokens_make.mpr ⟨member, exclusion_ne_nativeToken, ?_⟩)
      exact fun same => native (exclusion_inj same)
    rw [contains_payableInTokens_make]
    refine ⟨fun h => .inr ⟨h.1, kept⟩, ?_⟩
    rintro (listed | ⟨any, -⟩)
    · exact absurd (contains_payableInTokens_make.mpr ⟨listed, native, plain⟩) own
    · exact ⟨any, by decide, by decide⟩

/-! ## The first fault -/

/-- An endpoint accepts as told the native asset and the tokens of a call. -/
structure Follows (e : Endpoint) (accepts : String → Prop) (transferred : Transferred) : Prop where
  native : e.payableInNative ↔ accepts nativeToken
  token : ∀ t ∈ transferred.tokens, (e.isPayableInToken t.token ↔ accepts t.token)

/-- An endpoint that is made of a list follows it, for tokens that are not spelled as the exclusion
of the native token. -/
lemma follows_make (plain : ∀ t ∈ transferred.tokens, t.token ≠ exclusion nativeToken) :
    (make name docs inputs outputs mutability listed).Follows (Accepts listed) transferred :=
  ⟨payableInNative_make, fun t member => isPayableInToken_make (plain t member)⟩

variable {accepts : String → Prop}

/-- Nothing is refused exactly if all that is transferred is accepted. -/
lemma refusedAsset?_eq_none_iff (follows : e.Follows accepts transferred) :
    e.refusedAsset? transferred = none ↔ AcceptsAll accepts transferred := by
  rw [refusedAsset?]
  split_ifs with native
  · refine ⟨fun h => by simp at h, fun h => ?_⟩
    rcases h.native with nothing | accepted
    · exact absurd nothing native.1
    · exact absurd (follows.native.mpr accepted) native.2
  · simp only [Option.map_eq_none_iff, List.find?_eq_none, Bool.not_eq_true, Bool.not_eq_false']
    refine ⟨fun h => ⟨?_, fun t member => (follows.token t member).mp (h t member)⟩,
      fun h t member => (follows.token t member).mpr (h.tokens t member)⟩
    rw [← follows.native]
    tauto

/-- The search for a token that is refused stops at the first that is not accepted. -/
lemma find?_refused_eq_some_iff (follows : e.Follows accepts transferred) {t : TokenTransfer} :
    (transferred.tokens.find? fun t => !e.isPayableInToken t.token) = some t ↔
      ∃ before after, transferred.tokens = before ++ t :: after ∧
        (∀ u ∈ before, accepts u.token) ∧ ¬accepts t.token := by
  have payable := follows.token
  rw [List.find?_eq_some_iff_append]
  refine ⟨?_, ?_⟩
  · rintro ⟨refused, before, after, split, passed⟩
    rw [split] at payable
    refine ⟨before, after, split, fun u member => ?_, fun accepted => ?_⟩
    · exact (payable u (by simp [member])).mp (by simpa using passed u member)
    · simp [(payable t (by simp)).mpr accepted] at refused
  · rintro ⟨before, after, split, passed, refused⟩
    rw [split] at payable
    refine ⟨?_, before, after, split, fun u member => ?_⟩
    · simpa using fun h => refused ((payable t (by simp)).mp h)
    · simpa using (payable u (by simp [member])).mpr (passed u member)

/-- An asset is refused exactly if it is the first that is not accepted. -/
lemma refusedAsset?_eq_some_iff (follows : e.Follows accepts transferred) :
    e.refusedAsset? transferred = some asset ↔ FirstRefused accepts transferred asset := by
  rw [refusedAsset?]
  split_ifs with native
  · have refused : ¬accepts nativeToken := fun h => native.2 (follows.native.mpr h)
    refine ⟨fun h => Option.some.inj h ▸ .native native.1 refused, fun h => ?_⟩
    cases h with
    | native => rfl
    | token accepted =>
      rcases accepted with nothing | accepted
      · exact absurd nothing native.1
      · exact absurd accepted refused
  · have accepted : transferred.native = 0 ∨ accepts nativeToken := by
      rw [← follows.native]
      tauto
    simp only [Option.map_eq_some_iff, find?_refused_eq_some_iff follows]
    refine ⟨?_, fun h => ?_⟩
    · rintro ⟨t, ⟨before, after, split, passed, refused⟩, rfl⟩
      exact .token accepted split passed refused
    · cases h with
      | native sent refused => exact absurd accepted (by tauto)
      | token _ split passed refused => exact ⟨_, ⟨_, _, split, passed, refused⟩, rfl⟩

/-! ## Arguments -/

/-- Arguments below a position fit their inputs exactly if the first does and those behind it do. -/
lemma compatibleBelow_succ_iff {input : Field Ty} {v : Value} {vs : List Value} {index : Nat} :
    CompatibleBelow (input :: inputs) (v :: vs) (index + 1) ↔
      Value.isCompatible input.type v ∧ CompatibleBelow inputs vs index := by
  refine ⟨fun h => ⟨h 0 (by omega) input v rfl rfl, fun i below => h (i + 1) (by omega)⟩, ?_⟩
  rintro ⟨first, others⟩ i below
  cases i with
  | zero =>
    rintro _ _ ⟨⟩ ⟨⟩
    exact first
  | succ i => exact others i (by omega)

/-- Behind an argument that may be passed, the first mismatch stands one later. -/
lemma firstMismatch_cons_iff {input : Field Ty} {v : Value} {vs : List Value}
    (compatible : Value.isCompatible input.type v) {index : Nat} {other : Field Ty} {u : Value} :
    FirstMismatch (input :: inputs) (v :: vs) index other u ↔
      ∃ i, index = i + 1 ∧ FirstMismatch inputs vs i other u := by
  refine ⟨fun h => ?_, ?_⟩
  · cases index with
    | zero =>
      obtain rfl := Option.some.inj h.input_at
      obtain rfl := Option.some.inj h.argument_at
      exact absurd compatible h.incompatible
    | succ i =>
      exact ⟨i, rfl, h.input_at, h.argument_at, h.incompatible,
        (compatibleBelow_succ_iff.mp h.below).2⟩
  · rintro ⟨i, rfl, h⟩
    exact ⟨h.input_at, h.argument_at, h.incompatible,
      compatibleBelow_succ_iff.mpr ⟨compatible, h.below⟩⟩

/-- An argument that may not be passed is the first mismatch if it is the first argument. -/
lemma firstMismatch_cons_iff_of_not {input : Field Ty} {v : Value} {vs : List Value}
    (incompatible : ¬Value.isCompatible input.type v) {index : Nat} {other : Field Ty} {u : Value} :
    FirstMismatch (input :: inputs) (v :: vs) index other u ↔
      index = 0 ∧ other = input ∧ u = v := by
  refine ⟨fun h => ?_, ?_⟩
  · cases index with
    | zero => exact ⟨rfl, (Option.some.inj h.input_at).symm, (Option.some.inj h.argument_at).symm⟩
    | succ i => exact absurd (compatibleBelow_succ_iff.mp h.below).1 incompatible
  · rintro ⟨rfl, rfl, rfl⟩
    exact ⟨rfl, rfl, incompatible, fun i below => by omega⟩

/-- The check of arguments passes exactly if every argument fits its input. -/
lemma checkArgumentsFrom_eq_ok_iff_compatibleBelow {start : Nat} :
    checkArgumentsFrom start inputs arguments = .ok () ↔
      CompatibleBelow inputs arguments inputs.length := by
  induction inputs generalizing start arguments with
  | nil => exact ⟨fun _ i below => by simp at below, fun _ => rfl⟩
  | cons input inputs ih =>
    cases arguments with
    | nil => exact ⟨fun _ i _ other v _ missing => by simp at missing, fun _ => rfl⟩
    | cons v vs =>
      rw [checkArgumentsFrom, List.length_cons, compatibleBelow_succ_iff]
      split_ifs with compatible
      · rw [ih, and_iff_right compatible]
      · exact ⟨fun h => by simp at h, fun h => absurd h.1 compatible⟩

/-- The check of arguments fails exactly with the first argument that does not fit. -/
lemma checkArgumentsFrom_eq_error_iff {start : Nat} :
    checkArgumentsFrom start inputs arguments = .error err ↔
      ∃ index input v, FirstMismatch inputs arguments index input v ∧
        err = .typeMismatch (start + index) input.type v.type := by
  induction inputs generalizing start arguments with
  | nil =>
    refine ⟨fun h => by simp [checkArgumentsFrom] at h, ?_⟩
    rintro ⟨index, input, v, first, -⟩
    simpa using first.input_at
  | cons input inputs ih =>
    cases arguments with
    | nil =>
      refine ⟨fun h => by simp [checkArgumentsFrom] at h, ?_⟩
      rintro ⟨index, other, v, first, -⟩
      simpa using first.argument_at
    | cons v vs =>
      rw [checkArgumentsFrom]
      split_ifs with compatible
      · simp only [ih, firstMismatch_cons_iff compatible]
        refine ⟨?_, ?_⟩
        · rintro ⟨i, other, u, first, rfl⟩
          refine ⟨i + 1, other, u, ⟨i, rfl, first⟩, ?_⟩
          rw [Nat.add_right_comm, Nat.add_assoc]
        · rintro ⟨_, other, u, ⟨i, rfl, first⟩, rfl⟩
          refine ⟨i, other, u, first, ?_⟩
          rw [Nat.add_right_comm, Nat.add_assoc]
      · simp only [firstMismatch_cons_iff_of_not compatible, Except.error.injEq]
        refine ⟨fun h => ⟨0, input, v, ⟨rfl, rfl, rfl⟩, h.symm⟩, ?_⟩
        rintro ⟨_, _, _, ⟨rfl, rfl, rfl⟩, rfl⟩
        rfl

/-! ## The verdict -/

/-- The check of a transfer passes exactly if all that is transferred is accepted. -/
lemma checkPayable_eq_ok_iff (follows : e.Follows accepts transferred) :
    e.checkPayable transferred = .ok () ↔ AcceptsAll accepts transferred := by
  rw [← refusedAsset?_eq_none_iff follows, checkPayable]
  cases e.refusedAsset? transferred <;> simp

/-- The check of a transfer fails exactly with the first asset that is refused. -/
lemma checkPayable_eq_error_iff (follows : e.Follows accepts transferred) :
    e.checkPayable transferred = .error err ↔
      ∃ asset, FirstRefused accepts transferred asset ∧ err = .notPayable asset := by
  simp only [← refusedAsset?_eq_some_iff follows, checkPayable]
  cases e.refusedAsset? transferred <;> simp [eq_comm]

/-- The check of the arity passes exactly for as many arguments as inputs. -/
lemma checkArity_eq_ok_iff :
    e.checkArity arguments = .ok () ↔ arguments.length = e.inputs.length := by
  rw [checkArity]
  split_ifs with same <;> simp [same]

/-- The check of the arity fails exactly for another number of arguments, and says both numbers. -/
lemma checkArity_eq_error_iff :
    e.checkArity arguments = .error err ↔
      arguments.length ≠ e.inputs.length ∧
        err = .arityMismatch e.inputs.length arguments.length := by
  rw [checkArity]
  split_ifs with same <;> simp [same, eq_comm]

/-- A call passes the check exactly if its transfer is accepted and its arguments are as many as the
inputs and fit them. -/
lemma check_eq_ok_iff (follows : e.Follows accepts transferred) :
    e.check arguments transferred = .ok () ↔
      AcceptsAll accepts transferred ∧ arguments.length = e.inputs.length ∧
        CompatibleBelow e.inputs arguments e.inputs.length := by
  simp only [check, bind_eq_ok_iff]
  refine ⟨?_, ?_⟩
  · rintro ⟨_, payable, _, arity, compatible⟩
    exact ⟨(checkPayable_eq_ok_iff follows).mp payable, checkArity_eq_ok_iff.mp arity,
      checkArgumentsFrom_eq_ok_iff_compatibleBelow.mp compatible⟩
  · rintro ⟨all, same, below⟩
    exact ⟨(), (checkPayable_eq_ok_iff follows).mpr all, (), checkArity_eq_ok_iff.mpr same,
      checkArgumentsFrom_eq_ok_iff_compatibleBelow.mpr below⟩

/-- A call fails the check exactly with the first fault. -/
lemma check_eq_error_iff (follows : e.Follows accepts transferred) :
    e.check arguments transferred = .error err ↔
      FirstFault accepts e.inputs arguments transferred err := by
  simp only [check, bind_eq_error_iff]
  refine ⟨?_, fun h => ?_⟩
  · rintro (refused | ⟨_, payable, count | ⟨_, arity, incompatible⟩⟩)
    · obtain ⟨asset, first, rfl⟩ := (checkPayable_eq_error_iff follows).mp refused
      exact .asset first
    · obtain ⟨differ, rfl⟩ := checkArity_eq_error_iff.mp count
      exact .arity ((checkPayable_eq_ok_iff follows).mp payable) differ
    · obtain ⟨index, input, v, first, rfl⟩ := checkArgumentsFrom_eq_error_iff.mp incompatible
      rw [Nat.zero_add]
      exact .type ((checkPayable_eq_ok_iff follows).mp payable) (checkArity_eq_ok_iff.mp arity)
        first
  · cases h with
    | asset first => exact .inl ((checkPayable_eq_error_iff follows).mpr ⟨_, first, rfl⟩)
    | arity all differ =>
      exact .inr ⟨(), (checkPayable_eq_ok_iff follows).mpr all,
        .inl (checkArity_eq_error_iff.mpr ⟨differ, rfl⟩)⟩
    | type all same first =>
      refine .inr ⟨(), (checkPayable_eq_ok_iff follows).mpr all,
        .inr ⟨(), checkArity_eq_ok_iff.mpr same, ?_⟩⟩
      exact checkArgumentsFrom_eq_error_iff.mpr ⟨_, _, _, first, by rw [Nat.zero_add]⟩

/-- What a list accepts depends on its entries only. -/
lemma accepts_congr {listed' : List String} (same : ∀ asset, asset ∈ listed' ↔ asset ∈ listed) :
    Accepts listed' = Accepts listed := by
  funext asset
  simp only [Accepts, same]

/-- The verdict on a call is the policy that the list of accepted assets declares: the call passes
if all it transfers is accepted and its arguments are as many as the inputs and may be passed for
them, and otherwise the first fault is reported. Neither the order of the list nor a repeated entry
changes the verdict. -/
theorem check_make_iff (plain : ∀ t ∈ transferred.tokens, t.token.toList.head? ≠ some '!') :
    ((make name docs inputs outputs mutability listed).check arguments transferred = .ok () ↔
      AcceptsAll (Accepts listed) transferred ∧ arguments.length = inputs.length ∧
        CompatibleBelow inputs arguments inputs.length) ∧
    (∀ err,
      (make name docs inputs outputs mutability listed).check arguments transferred = .error err ↔
        FirstFault (Accepts listed) inputs arguments transferred err) ∧
    ∀ listed', (∀ asset, asset ∈ listed' ↔ asset ∈ listed) →
      (make name docs inputs outputs mutability listed').check arguments transferred =
        (make name docs inputs outputs mutability listed).check arguments transferred := by
  have unmarked : ∀ t ∈ transferred.tokens, t.token ≠ exclusion nativeToken := by
    intro t member marked
    exact plain t member (by rw [marked]; rfl)
  refine ⟨check_eq_ok_iff (follows_make unmarked),
    fun err => check_eq_error_iff (follows_make unmarked), fun listed' same => ?_⟩
  generalize verdict : (make name docs inputs outputs mutability listed).check arguments transferred
    = outcome
  cases outcome with
  | ok _ =>
    rw [check_eq_ok_iff (follows_make unmarked)] at verdict ⊢
    rwa [accepts_congr same]
  | error err =>
    rw [check_eq_error_iff (follows_make unmarked)] at verdict ⊢
    rwa [accepts_congr same]

/-- Of two tokens the second is excluded, which is reported before the missing argument, however
the list is arranged. -/
theorem check_make_iff_excluded_second :
    (∀ t ∈ [TokenTransfer.mk "GOOD-1a2b3c" 0 1, .mk "BAD-4d5e6f" 0 1],
      t.token.toList.head? ≠ some '!') ∧
    ∀ listed ∈ [["*", "!BAD-4d5e6f"], ["!BAD-4d5e6f", "*", "*"]],
      (make "buy" [] [⟨"amount", .primitive .u8⟩] [] .mutable listed).check []
        ⟨5, [.mk "GOOD-1a2b3c" 0 1, .mk "BAD-4d5e6f" 0 1]⟩ =
          .error (.notPayable (.token "BAD-4d5e6f")) := by
  have plain : ∀ t ∈ [TokenTransfer.mk "GOOD-1a2b3c" 0 1, .mk "BAD-4d5e6f" 0 1],
      t.token.toList.head? ≠ some '!' := by
    simp
  have tokens : (Transferred.mk 5 [.mk "GOOD-1a2b3c" 0 1, .mk "BAD-4d5e6f" 0 1]).tokens =
      [.mk "GOOD-1a2b3c" 0 1] ++ .mk "BAD-4d5e6f" 0 1 :: [] := rfl
  have first : FirstRefused (Accepts ["*", "!BAD-4d5e6f"]) ⟨5, _⟩ (.token "BAD-4d5e6f") :=
    .token (.inr (by simp [Accepts, anyToken, exclusion, nativeToken])) tokens
      (by simp [Accepts, anyToken, exclusion]) (by simp [Accepts, anyToken, exclusion])
  have refused : (make "buy" [] [⟨"amount", .primitive .u8⟩] [] .mutable
      ["*", "!BAD-4d5e6f"]).check [] ⟨5, _⟩ = .error (.notPayable (.token "BAD-4d5e6f")) :=
    ((check_make_iff plain).2.1 _).mpr (.asset first)
  refine ⟨plain, fun listed member => ?_⟩
  refine ((check_make_iff plain).2.2 listed fun asset => ?_).trans refused
  simp only [List.mem_cons, List.not_mem_nil, or_false] at member
  rcases member with rfl | rfl <;> simp [or_comm]

end ContractCalls.Endpoint

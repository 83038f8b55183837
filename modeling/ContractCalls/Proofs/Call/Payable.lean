import ContractCalls.Proofs.Call.Policy

/-!
# Endpoints that accept an asset

An endpoint accepts an asset exactly if its list has an entry that is no exclusion
(`acceptsSome_make_iff`). That it is said to be payable tells less: this only asks for an entry other
than the exclusion of the native asset (`isPayable_make`). The two agree but for lists of exclusions
alone, by `isPayable_make_iff_acceptsSome`.
-/

namespace ContractCalls.Endpoint

/-- Whether an entry of a list of assets does not start with the mark of an exclusion. -/
def IsUnmarked (entry : String) : Prop :=
  entry.toList.head? ≠ some '!'

/-- Whether the native asset is accepted, or a token whose name is not spelled like an exclusion. -/
def AcceptsSome (e : Endpoint) : Prop :=
  e.payableInNative ∨ ∃ token, IsUnmarked token ∧ e.isPayableInToken token

variable {listed : List String} {token entry : String} {inputs outputs : List (Field Ty)}
  {name : String} {docs : List String} {mutability : Mutability}

/-- An exclusion is marked. -/
lemma not_isUnmarked_exclusion : ¬IsUnmarked (exclusion token) := by
  simp [IsUnmarked, exclusion]

/-- An unmarked entry is no exclusion. -/
lemma IsUnmarked.ne_exclusion (h : IsUnmarked entry) : entry ≠ exclusion token := by
  rintro rfl
  exact not_isUnmarked_exclusion h

/-- The native token is unmarked. -/
lemma isUnmarked_nativeToken : IsUnmarked nativeToken := by
  simp [IsUnmarked, nativeToken]

/-- The entry for any token is unmarked. -/
lemma isUnmarked_anyToken : IsUnmarked anyToken := by
  simp [IsUnmarked, anyToken]

/-- An endpoint is payable in an unmarked token exactly if its list accepts the token. -/
lemma IsUnmarked.isPayableInToken_make (h : IsUnmarked token) :
    (make name docs inputs outputs mutability listed).isPayableInToken token ↔
      Accepts listed token :=
  Endpoint.isPayableInToken_make h.ne_exclusion

/-- A name of a token that no list of exclusions leaves out. -/
lemma exists_not_excluded (listed : List String) :
    ∃ token, IsUnmarked token ∧ token ≠ anyToken ∧ exclusion token ∉ listed := by
  -- There are names of any number of letters, and only so many entries.
  let letters (n : Nat) : String := String.ofList (List.replicate n 'A')
  have inj : Function.Injective fun n => exclusion (letters n) := by
    intro m n same
    have chars : List.replicate m 'A' = List.replicate n 'A' :=
      String.ofList_injective (exclusion_inj same)
    simpa using congrArg List.length chars
  obtain ⟨_, ⟨n, rfl⟩, free⟩ :=
    (Set.infinite_range_of_injective inj).exists_notMem_finset listed.toFinset
  refine ⟨letters n, ?_, ?_, by simpa using free⟩
  · cases n <;> simp [IsUnmarked, letters, List.replicate_succ]
  · intro same
    have first := congrArg (·.toList.head?) same
    cases n <;> simp [letters, anyToken, List.replicate_succ] at first

/-- An entry of the list that is no exclusion is accepted itself, or lets others be. -/
lemma exists_accepted_of_mem (member : entry ∈ listed) (plain : IsUnmarked entry) :
    ∃ token, IsUnmarked token ∧ token ≠ anyToken ∧
      (make name docs inputs outputs mutability listed).isPayableInToken token := by
  by_cases any : entry = anyToken
  · obtain ⟨token, unmarked, other, free⟩ := exists_not_excluded listed
    have accepted : Accepts listed token := .inr ⟨any ▸ member, free⟩
    exact ⟨token, unmarked, other, unmarked.isPayableInToken_make.mpr accepted⟩
  · exact ⟨entry, plain, any, plain.isPayableInToken_make.mpr (.inl member)⟩

/-- A list that accepts an unmarked token has an unmarked entry. -/
lemma exists_isUnmarked_of_accepts (h : Accepts listed token) (plain : IsUnmarked token) :
    ∃ entry ∈ listed, IsUnmarked entry := by
  rcases h with member | ⟨any, -⟩
  · exact ⟨token, member, plain⟩
  · exact ⟨anyToken, any, isUnmarked_anyToken⟩

/-- An endpoint accepts some token exactly if an entry of its list is unmarked. -/
lemma acceptsSome_make_iff :
    (make name docs inputs outputs mutability listed).AcceptsSome ↔
      ∃ entry ∈ listed, IsUnmarked entry := by
  refine ⟨?_, ?_⟩
  · rintro (native | ⟨token, plain, accepted⟩)
    · exact exists_isUnmarked_of_accepts (payableInNative_make.mp native) isUnmarked_nativeToken
    · exact exists_isUnmarked_of_accepts (plain.isPayableInToken_make.mp accepted) plain
  · rintro ⟨entry, member, plain⟩
    obtain ⟨token, unmarked, -, accepted⟩ := exists_accepted_of_mem member plain
    exact .inr ⟨token, unmarked, accepted⟩

/-- What is left of the list of an endpoint are the entries other than the native token and its
exclusion. -/
lemma mem_payableInTokens_make :
    entry ∈ (make name docs inputs outputs mutability listed).payableInTokens ↔
      entry ∈ listed ∧ entry ≠ nativeToken ∧ entry ≠ exclusion nativeToken := by
  rw [← List.contains_iff_mem]
  exact contains_payableInTokens_make

/-- An endpoint counts as payable exactly if its list has an entry other than the exclusion of the
native token. -/
lemma isPayable_make :
    (make name docs inputs outputs mutability listed).isPayable ↔
      ∃ entry ∈ listed, entry ≠ exclusion nativeToken := by
  simp only [isPayable, Bool.or_eq_true, payableInNative_make, Bool.not_eq_true',
    List.isEmpty_eq_false_iff_exists_mem, mem_payableInTokens_make]
  refine ⟨?_, ?_⟩
  · rintro ((member | ⟨any, -⟩) | ⟨entry, member, -, other⟩)
    · exact ⟨nativeToken, member, isUnmarked_nativeToken.ne_exclusion⟩
    · exact ⟨anyToken, any, isUnmarked_anyToken.ne_exclusion⟩
    · exact ⟨entry, member, other⟩
  · rintro ⟨entry, member, other⟩
    by_cases native : entry = nativeToken
    · exact .inl (.inl (native ▸ member))
    · exact .inr ⟨entry, member, native, other⟩

/-- What an endpoint accepts and when it is payable, by the list of assets it is made from. It
accepts an asset exactly if the list has an entry that is no exclusion, and then one that is not the
mark of any asset. It is payable exactly if the list has an entry other than the exclusion of the
native asset. So the two agree unless the list is one of exclusions alone and another asset than the
native one is excluded. -/
theorem isPayable_make_iff_acceptsSome :
    ((make name docs inputs outputs mutability listed).AcceptsSome ↔
      ∃ entry ∈ listed, IsUnmarked entry) ∧
    ((make name docs inputs outputs mutability listed).AcceptsSome →
      ∃ token, IsUnmarked token ∧ token ≠ anyToken ∧
        (make name docs inputs outputs mutability listed).isPayableInToken token) ∧
    ((make name docs inputs outputs mutability listed).isPayable ↔
      ∃ entry ∈ listed, entry ≠ exclusion nativeToken) ∧
    (((make name docs inputs outputs mutability listed).isPayable ↔
        (make name docs inputs outputs mutability listed).AcceptsSome) ↔
      (∃ entry ∈ listed, IsUnmarked entry) ∨ ∀ entry ∈ listed, entry = exclusion nativeToken) := by
  refine ⟨acceptsSome_make_iff, fun accepts => ?_, isPayable_make, ?_⟩
  · obtain ⟨entry, member, plain⟩ := acceptsSome_make_iff.mp accepts
    exact exists_accepted_of_mem member plain
  · rw [isPayable_make, acceptsSome_make_iff]
    refine ⟨fun same => ?_, ?_⟩
    · by_cases plain : ∃ entry ∈ listed, IsUnmarked entry
      · exact .inl plain
      · refine .inr fun entry member => ?_
        by_contra other
        exact plain (same.mp ⟨entry, member, other⟩)
    · rintro (⟨entry, member, plain⟩ | excluded)
      · exact ⟨fun _ => ⟨entry, member, plain⟩, fun _ => ⟨entry, member, plain.ne_exclusion⟩⟩
      · refine ⟨fun ⟨entry, member, other⟩ => absurd (excluded entry member) other, ?_⟩
        rintro ⟨entry, member, plain⟩
        exact absurd (excluded entry member) plain.ne_exclusion

/-- A list that only excludes a token makes an endpoint that is payable and accepts nothing. -/
theorem isPayable_and_not_acceptsSome :
    let e := make "buy" [] [] [] .mutable ["!BAD-4d5e6f"]
    e.isPayable ∧ ¬e.AcceptsSome := by
  refine ⟨by decide, fun accepts => ?_⟩
  obtain ⟨entry, member, plain⟩ := acceptsSome_make_iff.mp accepts
  obtain rfl := List.mem_singleton.mp member
  simp [IsUnmarked] at plain

end ContractCalls.Endpoint

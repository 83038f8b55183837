import Mathlib
import ContractCalls.Text.Sorted

/-!
# Entries and their keys

What is found in entries with a key each. Sorted entries have distinct keys (`Sorted.nodup_keys`),
and entries with distinct keys are determined by their keys and by what is found (`eq_of_lookup`).
-/

namespace ContractCalls

variable {α : Type} {entries others : List (String × α)} {key : String} {value : α}

/-- Nothing is found exactly under a key that has no entry. -/
lemma lookup_eq_none_iff_not_mem : entries.lookup key = none ↔ key ∉ entries.map (·.1) := by
  simp only [List.lookup_eq_none_iff, List.mem_map, not_exists, not_and, bne_iff_ne]
  exact ⟨fun h entry hentry same => h entry hentry same.symm,
    fun h entry hentry same => h entry hentry same.symm⟩

/-- Something is found exactly under a key that has an entry. -/
lemma exists_lookup_iff_mem :
    (∃ value, entries.lookup key = some value) ↔ key ∈ entries.map (·.1) := by
  rw [← not_iff_not, ← lookup_eq_none_iff_not_mem, not_exists, Option.eq_none_iff_forall_ne_some]

/-- What is found under a key is its entry. -/
lemma mem_of_lookup (found : entries.lookup key = some value) : (key, value) ∈ entries := by
  obtain ⟨front, back, rfl, -⟩ := List.lookup_eq_some_iff.mp found
  simp

/-- An entry is found if keys are distinct. -/
lemma lookup_of_mem (distinct : (entries.map (·.1)).Nodup) (h : (key, value) ∈ entries) :
    entries.lookup key = some value := by
  induction entries with
  | nil => simp at h
  | cons entry entries ih =>
    obtain ⟨first, content⟩ := entry
    rw [List.map_cons, List.nodup_cons] at distinct
    rw [List.lookup_cons]
    rcases List.mem_cons.mp h with same | below
    · obtain ⟨rfl, rfl⟩ := Prod.mk.inj same
      simp
    · have other : key ≠ first := by
        intro same
        subst same
        exact distinct.1 (List.mem_map.mpr ⟨_, below, rfl⟩)
      simpa [beq_false_of_ne other] using ih distinct.2 below

/-- Of entries in several lists, the first list counts that has the key. -/
lemma lookup_flatMap {β : Type} (f : β → List (String × α)) (bs : List β) :
    (bs.flatMap f).lookup key = bs.findSome? fun b => (f b).lookup key := by
  induction bs with
  | nil => rfl
  | cons b bs ih =>
    rw [List.flatMap_cons, List.lookup_append, List.findSome?_cons, ih]
    cases (f b).lookup key <;> rfl

/-- Where members have distinct keys, each is the first with its key. -/
lemma find?_eq_some_of_mem {β γ : Type} [DecidableEq γ] {f : β → γ} {bs : List β} {b : β}
    (distinct : (bs.map f).Nodup) (h : b ∈ bs) : bs.find? (f · = f b) = some b := by
  induction bs with
  | nil => simp at h
  | cons first bs ih =>
    rw [List.map_cons, List.nodup_cons] at distinct
    rcases List.mem_cons.mp h with rfl | below
    · simp
    · have other : f first ≠ f b := by
        intro same
        exact distinct.1 (same ▸ List.mem_map_of_mem below)
      simpa [other] using ih distinct.2 below

/-- Entries with the same distinct keys are the same if the same is found in them. -/
lemma eq_of_lookup (distinct : (entries.map (·.1)).Nodup)
    (keys : entries.map (·.1) = others.map (·.1))
    (same : ∀ key, entries.lookup key = others.lookup key) : entries = others := by
  induction entries generalizing others with
  | nil => exact (List.map_eq_nil_iff.mp keys.symm).symm
  | cons entry entries ih =>
    obtain ⟨first, content⟩ := entry
    cases others with
    | nil => simp at keys
    | cons other others =>
      obtain ⟨other, content'⟩ := other
      simp only [List.map_cons, List.cons.injEq] at keys
      obtain ⟨rfl, keys⟩ := keys
      rw [List.map_cons, List.nodup_cons] at distinct
      obtain rfl : content = content' := by simpa using same first
      refine congrArg _ (ih distinct.2 keys fun key => ?_)
      -- The first key is none of the others, so behind it nothing is found under it.
      by_cases h : key = first
      · subst h
        rw [lookup_eq_none_iff_not_mem.mpr distinct.1,
          lookup_eq_none_iff_not_mem.mpr (keys ▸ distinct.1)]
      · simpa [List.lookup_cons, beq_false_of_ne h] using same key

/-- In which order entries with distinct keys come makes no difference to what is found. -/
lemma lookup_eq_of_perm (distinct : (entries.map (·.1)).Nodup) (perm : entries.Perm others)
    (key : String) : entries.lookup key = others.lookup key := by
  have distinct' : (others.map (·.1)).Nodup := (perm.map _).nodup_iff.mp distinct
  refine Option.ext fun value => ⟨fun found => ?_, fun found => ?_⟩
  · exact lookup_of_mem distinct' (perm.mem_iff.mp (mem_of_lookup found))
  · exact lookup_of_mem distinct (perm.mem_iff.mpr (mem_of_lookup found))

namespace Sorted

/-- An entry that is put among others is the only new one. -/
lemma mem_of_mem_insert {entry : String × α} (h : entry ∈ insert key value entries) :
    entry = (key, value) ∨ entry ∈ entries := by
  induction entries with
  | nil => simpa [insert] using h
  | cons first entries ih =>
    rw [insert] at h
    split_ifs at h with same before
    · rw [List.mem_cons] at h ⊢
      tauto
    · rwa [List.mem_cons] at h
    · rw [List.mem_cons] at h ⊢
      tauto

/-- An entry that is put among others is found under its key, under other keys what was before. -/
lemma lookup_insert (other : String) :
    (insert key value entries).lookup other =
      if other = key then some value else entries.lookup other := by
  induction entries with
  | nil => by_cases h : other = key <;> simp [insert, h]
  | cons first entries ih =>
    obtain ⟨k, v⟩ := first
    rw [insert]
    by_cases h : other = key
    · subst h
      rw [if_pos rfl] at ih ⊢
      split_ifs with same before
      · simp
      · simp
      · simpa [List.lookup_cons, beq_false_of_ne same] using ih
    · rw [if_neg h] at ih ⊢
      split_ifs with same before
      · subst same
        simp [List.lookup_cons, beq_false_of_ne h]
      · simp [List.lookup_cons, beq_false_of_ne h]
      · simp [List.lookup_cons, ih]

/-- An entry that is put among sorted ones leaves them sorted. -/
lemma pairwise_insert (sorted : entries.Pairwise (·.1 < ·.1)) :
    (insert key value entries).Pairwise (·.1 < ·.1) := by
  induction entries with
  | nil => simp [insert]
  | cons first entries ih =>
    obtain ⟨k, v⟩ := first
    obtain ⟨least, behind⟩ := List.pairwise_cons.mp sorted
    rw [insert]
    split_ifs with same before
    · subst same
      exact .cons least behind
    · refine .cons (List.forall_mem_cons.mpr ⟨before, fun entry h => ?_⟩) sorted
      exact String.lt_trans before (least entry h)
    · refine .cons (fun entry h => ?_) (ih behind)
      rcases mem_of_mem_insert h with rfl | h
      · exact Std.lt_of_le_of_ne before (Ne.symm same)
      · exact least entry h

/-- A sorted list of entries is in strict order of its keys. -/
lemma pairwise_ofList (entries : List (String × α)) : (ofList entries).Pairwise (·.1 < ·.1) := by
  have sorted (start : List (String × α)) (h : start.Pairwise (·.1 < ·.1)) :
      (entries.foldl (fun sorted entry => insert entry.1 entry.2 sorted) start).Pairwise
        (·.1 < ·.1) := by
    induction entries generalizing start with
    | nil => exact h
    | cons entry entries ih => exact ih _ (pairwise_insert h)
  exact sorted [] .nil

/-- Keys in strict order are distinct. -/
lemma nodup_keys (sorted : entries.Pairwise (·.1 < ·.1)) : (entries.map (·.1)).Nodup := by
  refine List.pairwise_map.mpr (sorted.imp fun before same => ?_)
  exact String.lt_irrefl _ (same ▸ before)

/-- An entry behind all others is put there. -/
lemma insert_of_forall_lt (last : ∀ entry ∈ entries, entry.1 < key) :
    insert key value entries = entries ++ [(key, value)] := by
  induction entries with
  | nil => rfl
  | cons first entries ih =>
    obtain ⟨before, others⟩ := List.forall_mem_cons.mp last
    have other : key ≠ first.1 := by
      rintro rfl
      exact String.lt_irrefl _ before
    rw [insert, if_neg other, if_neg (lt_asymm before), ih others, List.cons_append]

/-- Entries in strict order of their keys are left as they are. -/
lemma ofList_of_pairwise (sorted : entries.Pairwise (·.1 < ·.1)) : ofList entries = entries := by
  have kept (start : List (String × α)) (h : (start ++ entries).Pairwise (·.1 < ·.1)) :
      entries.foldl (fun sorted entry => insert entry.1 entry.2 sorted) start =
        start ++ entries := by
    induction entries generalizing start with
    | nil => simp
    | cons entry entries ih =>
      have last : ∀ other ∈ start, other.1 < entry.1 := fun other member =>
        (List.pairwise_append.mp h).2.2 other member entry (by simp)
      have same : start ++ [entry] ++ entries = start ++ entry :: entries := by simp
      rw [List.foldl_cons, insert_of_forall_lt last, ← same]
      exact ih (List.pairwise_cons.mp sorted).2 _ (same ▸ h)
  exact kept [] sorted

/-- Sorting makes no entries. -/
lemma mem_of_mem_ofList {entry : String × α} (h : entry ∈ ofList entries) : entry ∈ entries := by
  have origin (entries start : List (String × α)) :
      entry ∈ entries.foldl (fun sorted entry => insert entry.1 entry.2 sorted) start →
        entry ∈ entries ∨ entry ∈ start := by
    induction entries generalizing start with
    | nil => exact .inr
    | cons first entries ih =>
      intro h
      rcases ih _ h with h | h
      · exact .inl (List.mem_cons_of_mem _ h)
      · rcases mem_of_mem_insert h with rfl | h
        · exact .inl List.mem_cons_self
        · exact .inr h
  exact (origin entries [] h).resolve_right List.not_mem_nil

/-- The same is found in entries with distinct keys and in the sorted ones. -/
lemma lookup_ofList (distinct : (entries.map (·.1)).Nodup) (key : String) :
    (ofList entries).lookup key = entries.lookup key := by
  have found (start : List (String × α)) :
      (entries.foldl (fun sorted entry => insert entry.1 entry.2 sorted) start).lookup key =
        (entries.lookup key).or (start.lookup key) := by
    induction entries generalizing start with
    | nil => rfl
    | cons first entries ih =>
      rw [List.map_cons, List.nodup_cons] at distinct
      rw [List.foldl_cons, ih distinct.2, lookup_insert, List.lookup_cons]
      by_cases h : key = first.1
      · rw [h, lookup_eq_none_iff_not_mem.mpr distinct.1]
        simp
      · simp [h, beq_false_of_ne h]
  exact (found []).trans Option.or_none

/-- Sorting entries with distinct keys only reorders them. -/
lemma perm_ofList (distinct : (entries.map (·.1)).Nodup) : (ofList entries).Perm entries := by
  have sorted := nodup_keys (pairwise_ofList entries)
  refine (List.perm_ext_iff_of_nodup (.of_map _ sorted) (.of_map _ distinct)).mpr ?_
  refine fun entry => ⟨mem_of_mem_ofList, fun h => mem_of_lookup ?_⟩
  rw [lookup_ofList distinct, lookup_of_mem distinct h]

end Sorted

end ContractCalls

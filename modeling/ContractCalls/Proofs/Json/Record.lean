import ContractCalls.Json.Record
import ContractCalls.Proofs.Json.Reading

/-!
# Records, written and read

A record is written as an object whose members are slots for its parts, of which some may be left
empty (`given`). If the slots have distinct names, reading the record finds in each name what stands
in its slot (`record?_given`, `find?_given_cons`), so a part is read back if its content is, or if
it is left out and stands for the default.
-/

namespace ContractCalls.Json

variable {α : Type}

/-- A step that has a result is followed by what is done with it. -/
lemma bind_of_eq_some {β : Type} {x : Option α} {a : α} {f : α → Option β} (h : x = some a) :
    (x >>= f) = f a := by
  rw [h]
  rfl

/-- The members that are given where some slots of a record may be empty. -/
def given (slots : List (String × Option Json)) : Record :=
  slots.filterMap fun (name, content) => content.map (name, ·)

section

variable {slots : List (String × Option Json)} {name key : String} {content : Option Json}
  {value : Json}

/-- The names of the members that are given are among those of the slots, in order. -/
lemma map_fst_given_sublist (slots : List (String × Option Json)) :
    ((given slots).map (·.1)).Sublist (slots.map (·.1)) := by
  induction slots with
  | nil => exact .slnil
  | cons slot slots ih =>
    obtain ⟨name, _ | value⟩ := slot
    · exact ih.cons name
    · exact ih.cons_cons name

/-- Members in slots with distinct names are a record. -/
lemma record?_given {names : List String} (same : slots.map (·.1) = names)
    (distinct : names.Nodup) :
    (Json.object (given slots)).record? names = some (given slots) := by
  subst same
  have names := map_fst_given_sublist slots
  simp only [record?]
  rw [List.filter_eq_self.mpr]
  · exact if_pos (distinct.sublist names)
  · intro member listed
    simpa using names.subset (List.mem_map_of_mem listed)

/-- Without slots no member is found. -/
@[simp]
lemma find?_given_nil : find? key (given []) = none := rfl

/-- Under a name stands the content of the first slot of that name that is not empty. -/
@[simp]
lemma find?_given_cons :
    find? key (given ((name, content) :: slots)) =
      if key = name then content.or (find? key (given slots)) else find? key (given slots) := by
  cases content with
  | none =>
    change find? key (given slots) = _
    simp
  | some value =>
    change List.lookup key ((name, value) :: given slots) = _
    rw [List.lookup_cons]
    by_cases same : key = name
    · simp [same]
    · simp [same, beq_false_of_ne same, find?]

/-- Members in slots that have no tag are a record behind their tag. -/
lemma tagged?_given {tag : String} (h : tag ∉ slots.map (·.1)) :
    (Json.object (given ((tag, some value) :: slots))).tagged? tag =
      some (value, .object (given slots)) := by
  have others : ∀ member ∈ given slots, member.1 ≠ tag := by
    rintro member listed rfl
    exact h ((map_fst_given_sublist slots).subset (List.mem_map_of_mem listed))
  change tagged? tag (.object ((tag, value) :: given slots)) = _
  rw [tagged?, List.filter_cons_of_pos (by simp), List.filter_cons_of_neg (by simp),
    List.filter_eq_nil_iff.mpr, List.filter_eq_self.mpr]
  -- No other member is the tag, and all of them are left without it.
  · intro member listed
    simpa using others member listed
  · intro member listed
    simpa using others member listed

end

/-! ## Parts -/

/-- The content of a slot for a list that is left out if it is empty. -/
def nonempty? (write : α → Json) (items : List α) : Option Json :=
  if items.isEmpty then none else some (.array (items.map write))

/-- What is written of each member of a list is read back. -/
lemma mapM_map_eq_some {β : Type} {read : β → Option α} {write : α → β} {items : List α}
    (h : ∀ a ∈ items, read (write a) = some a) : (items.map write).mapM read = some items := by
  induction items with
  | nil => rfl
  | cons a items ih =>
    obtain ⟨first, others⟩ := List.forall_mem_cons.mp h
    rw [List.map_cons, List.mapM_cons, first, ih others]
    rfl

/-- A list is read back if its items are. -/
lemma toList?_map {read : Json → Option α} {write : α → Json} {items : List α}
    (h : ∀ a ∈ items, read (write a) = some a) :
    (Json.array (items.map write)).toList? read = some items :=
  mapM_map_eq_some h

/-- A member of a list that is read is read from an item. -/
lemma exists_of_mem_toList? {read : Json → Option α} {value : Json} {items : List α} {a : α}
    (e : value.toList? read = some items) (h : a ∈ items) : ∃ item, read item = some a := by
  cases value with
  | array values =>
    rw [toList?] at e
    induction values generalizing items with
    | nil =>
      obtain rfl := Option.some.inj e
      simp at h
    | cons value values ih =>
      rw [List.mapM_cons] at e
      obtain ⟨first, here, e⟩ := Option.bind_eq_some_iff.mp e
      obtain ⟨others, below, e⟩ := Option.bind_eq_some_iff.mp e
      obtain rfl := Option.some.inj e
      rcases List.mem_cons.mp h with rfl | h
      · exact ⟨value, here⟩
      · exact ih h below
  | _ => cases e

namespace Record

variable {parts : Record} {name : String} {value : Json} {read : Json → Option α}
  {write : α → Json} {a default : α} {items : List α}

/-- A part that has to be given is read from what stands in its place. -/
lemma required_eq_some (found : find? name parts = some value) (readBack : read value = some a) :
    parts.required name read = some a := by
  rw [required, found, Option.bind_some, readBack]

/-- A part with a default is read from what stands in its place. -/
lemma withDefault_eq_some (found : find? name parts = some value)
    (readBack : read value = some a) : parts.withDefault name read default = some a := by
  simp only [withDefault, found, readBack]

/-- A list that is left out if it is empty is read back if its items are. -/
lemma withDefault_nonempty?_eq_some (found : find? name parts = nonempty? write items)
    (readBack : ∀ a ∈ items, read (write a) = some a) :
    parts.withDefault name (toList? read) [] = some items := by
  rw [withDefault, found]
  cases items with
  | nil => rfl
  | cons a items => exact toList?_map readBack

/-- A part that may be missing is read back if it is never written as null. -/
lemma optional_eq_some {part : Option α} (found : find? name parts = part.map write)
    (notNull : ∀ a, write a ≠ .null) (readBack : ∀ a ∈ part, read (write a) = some a) :
    parts.optional name read = some part := by
  rw [optional, found]
  cases part with
  | none => rfl
  | some a =>
    rw [Option.map_some]
    split
    · next h => cases h
    · next h => exact absurd (Option.some.inj h) (notNull a)
    · next value _ h =>
      rw [← Option.some.inj h, readBack a rfl, Option.map_some]

end Record

/-- A text is read back from its JSON value. -/
@[simp]
lemma toText?_string (s : String) : (Json.string s).toText? = some s := rfl

/-- A truth value is read back from its JSON value. -/
@[simp]
lemma toBool?_bool (b : Bool) : (Json.bool b).toBool? = some b := rfl

/-- A byte is read back from its JSON value. -/
@[simp]
lemma toByte?_ofNat (b : UInt8) : (ofNat b.toNat).toByte? = some b := by
  have bound : (b.toNat : Int) < 256 := by exact_mod_cast b.toNat_lt
  simp [toByte?, toNatBelow?, ofNat, bound]

/-- A number of 64 bits is read back from its JSON value. -/
lemma toWord64?_ofNat (w : UInt64) : (ofNat w.toNat).toWord64? = some w := by
  have bound : (w.toNat : Int) < Numeral.word64Bound := by exact_mod_cast w.toNat_lt
  simp [toWord64?, toNatBelow?, ofNat, bound]

/-! ## Shapes -/

section

variable {slots : List (String × Option Json)} {shape : Shape} {write : α → Json} {items : List α}

/-- A record is read whole if the content of each slot is. -/
lemma fits_given (h : ∀ slot ∈ slots, ∀ value ∈ slot.2,
    ∃ part, shape.member? slot.1 = some part ∧ value.Fits part) :
    (Json.object (given slots)).Fits shape := by
  refine fitsMembers_iff.mpr fun member listed => ?_
  obtain ⟨slot, there, e⟩ := List.mem_filterMap.mp listed
  obtain ⟨value, content, rfl⟩ := Option.map_eq_some_iff.mp e
  exact h slot there value content

/-- Where everything is asked for, a record is read whole if the content of each slot is. -/
lemma fits_any_given (h : ∀ slot ∈ slots, ∀ value ∈ slot.2, value.Fits .any) :
    (Json.object (given slots)).Fits .any :=
  fits_given fun slot there value content => ⟨.any, rfl, h slot there value content⟩

/-- A list is read whole if its items are. -/
lemma fits_list_map (h : ∀ a ∈ items, (write a).Fits shape) :
    (Json.array (items.map write)).Fits (.list shape) :=
  (fitsItems_iff rfl).mpr (List.forall_mem_map.mpr h)

/-- Where everything is asked for, a list is read whole if its items are. -/
lemma fits_any_map (h : ∀ a ∈ items, (write a).Fits .any) :
    (Json.array (items.map write)).Fits .any :=
  (fitsItems_iff rfl).mpr (List.forall_mem_map.mpr h)

/-- A list that is left out if it is empty is read whole if its items are. -/
lemma fits_any_of_mem_nonempty? (h : ∀ a ∈ items, (write a).Fits .any) :
    ∀ value ∈ nonempty? write items, value.Fits .any := by
  intro value content
  rw [nonempty?] at content
  split_ifs at content
  · cases content
  · obtain rfl := Option.some.inj content
    exact fits_any_map h

end

/-! ## Depth -/

/-- An item is less deep than its array. -/
lemma depth_lt_of_mem_items {item : Json} {items : List Json} (h : item ∈ items) :
    item.depth < (Json.array items).depth := by
  rw [depth, Nat.lt_succ_iff]
  induction items with
  | nil => simp at h
  | cons first items ih =>
    rw [depthItems, le_max_iff]
    rcases List.mem_cons.mp h with rfl | h
    · exact .inl le_rfl
    · exact .inr (ih h)

/-- A member of a list is less deep than the list. -/
lemma depth_lt_of_mem_list {write : α → Json} {items : List α} {a : α} (h : a ∈ items) :
    (write a).depth < (Json.array (items.map write)).depth :=
  depth_lt_of_mem_items (List.mem_map_of_mem h)

/-- The value of a member is less deep than its object. -/
lemma depth_lt_of_mem_members {key : String} {value : Json} {members : List (String × Json)}
    (h : (key, value) ∈ members) : value.depth < (Json.object members).depth := by
  rw [depth, Nat.lt_succ_iff]
  induction members with
  | nil => simp at h
  | cons first members ih =>
    rw [depthMembers, le_max_iff]
    rcases List.mem_cons.mp h with rfl | h
    · exact .inl le_rfl
    · exact .inr (ih h)

/-- The content of a slot is less deep than the record. -/
lemma depth_lt_of_mem_slots {slots : List (String × Option Json)} {name : String} {value : Json}
    (h : (name, some value) ∈ slots) : value.depth < (Json.object (given slots)).depth :=
  depth_lt_of_mem_members (List.mem_filterMap.mpr ⟨_, h, rfl⟩)

/-! ## Shallow values -/

/-- A value that is read whole where everything is asked for, with at most `n` arrays and objects
around one another. -/
structure FitsWithin (n : Nat) (j : Json) : Prop where
  fits : j.Fits .any
  depth_le : j.depth ≤ n

section

variable {slots : List (String × Option Json)} {write : α → Json} {items : List α} {n m : Nat}
  {j : Json}

/-- A shallow value is shallow for a larger bound. -/
lemma FitsWithin.mono (h : FitsWithin n j) (le : n ≤ m) : FitsWithin m j :=
  ⟨h.fits, h.depth_le.trans le⟩

/-- A text is shallow. -/
lemma fitsWithin_string (s : String) : FitsWithin n (.string s) :=
  ⟨trivial, Nat.zero_le n⟩

/-- A truth value is shallow. -/
lemma fitsWithin_bool (b : Bool) : FitsWithin n (.bool b) :=
  ⟨trivial, Nat.zero_le n⟩

/-- An object is one level deeper than its members. -/
lemma fitsWithin_object {members : List (String × Json)}
    (h : ∀ member ∈ members, FitsWithin n member.2) : FitsWithin (n + 1) (.object members) := by
  refine ⟨fitsMembers_iff.mpr fun member listed => ⟨.any, rfl, (h member listed).fits⟩, ?_⟩
  rw [depth, Nat.succ_le_succ_iff]
  induction members with
  | nil => exact Nat.zero_le n
  | cons member members ih =>
    obtain ⟨first, others⟩ := List.forall_mem_cons.mp h
    exact max_le first.depth_le (ih others)

/-- A record is one level deeper than the contents of its slots. -/
lemma fitsWithin_given (h : ∀ slot ∈ slots, ∀ value ∈ slot.2, FitsWithin n value) :
    FitsWithin (n + 1) (.object (given slots)) := by
  refine fitsWithin_object fun member listed => ?_
  obtain ⟨slot, there, e⟩ := List.mem_filterMap.mp listed
  obtain ⟨value, content, rfl⟩ := Option.map_eq_some_iff.mp e
  exact h slot there value content

/-- A list is one level deeper than its items. -/
lemma fitsWithin_list (h : ∀ a ∈ items, FitsWithin n (write a)) :
    FitsWithin (n + 1) (.array (items.map write)) := by
  refine ⟨fits_any_map fun a listed => (h a listed).fits, ?_⟩
  rw [depth, Nat.succ_le_succ_iff]
  induction items with
  | nil => exact Nat.zero_le n
  | cons a items ih =>
    obtain ⟨first, others⟩ := List.forall_mem_cons.mp h
    exact max_le first.depth_le (ih others)

/-- A list that is left out if it is empty is one level deeper than its items. -/
lemma fitsWithin_of_mem_nonempty? (h : ∀ a ∈ items, FitsWithin n (write a)) :
    ∀ value ∈ nonempty? write items, FitsWithin (n + 1) value := by
  intro value content
  rw [nonempty?] at content
  split_ifs at content
  · cases content
  · obtain rfl := Option.some.inj content
    exact fitsWithin_list h

/-- A content that may be missing is as deep as what it is written as. -/
lemma fitsWithin_of_mem_map {content : Option α} (h : ∀ a ∈ content, FitsWithin n (write a)) :
    ∀ value ∈ content.map write, FitsWithin n value := by
  intro value filled
  obtain ⟨a, there, rfl⟩ := Option.map_eq_some_iff.mp filled
  exact h a there

end

end ContractCalls.Json

import ContractCalls.Proofs.Value.Nodes
import ContractCalls.Value.Conforms

/-!
# Inversion of conformance

What a value looks like that conforms to a type, one lemma for each form of types. The functions
over fields and variants are reduced to the one over a list of types, whose meaning is that the
values conform to the types one by one (`conformsAll_iff`).
-/

namespace ContractCalls.Value

/-- The forms of values that may be absent, with the types they are made for. -/
inductive MayBeAbsent : Generic → (Ty → Option Value → Value) → Prop
  | option : MayBeAbsent .option .option
  | optional : MayBeAbsent .optional .optional

/-- The forms of values with any number of items, with the types they are made for. -/
inductive HasItems : Generic → (Ty → List Value → Value) → Prop
  | list : HasItems .list .list
  | variadic : HasItems .variadic .variadic

/-- A type that may be absent takes one parameter. -/
lemma MayBeAbsent.arity_eq {g : Generic} {make : Ty → Option Value → Value}
    (kind : MayBeAbsent g make) : g.arity? = some 1 := by
  cases kind <;> rfl

/-- A generic that may be absent has one form of values. -/
lemma MayBeAbsent.unique {g : Generic} {make make' : Ty → Option Value → Value}
    (kind : MayBeAbsent g make) (other : MayBeAbsent g make') : make = make' := by
  cases kind <;> cases other <;> rfl

/-- A type of several items takes one parameter. -/
lemma HasItems.arity_eq {g : Generic} {make : Ty → List Value → Value} (kind : HasItems g make) :
    g.arity? = some 1 := by
  cases kind <;> rfl

/-- A generic of several items has one form of values. -/
lemma HasItems.unique {g : Generic} {make make' : Ty → List Value → Value}
    (kind : HasItems g make) (other : HasItems g make') : make = make' := by
  cases kind <;> cases other <;> rfl

attribute [local simp] conforms conformsAll conformsFields conformsVariant

variable {t : Ty} {ts params : List Ty} {v : Value} {vs : List Value}

/-- Values conform to types one by one. -/
lemma conformsAll_iff : conformsAll ts vs ↔ List.Forall₂ (fun t v => conforms t v) ts vs := by
  induction ts generalizing vs with
  | nil => cases vs <;> simp
  | cons t ts ih => cases vs <;> simp [ih]

/-- The value at a position conforms to the type at that position. -/
lemma exists_getElem?_of_conformsAll {i : Nat} (c : conformsAll ts vs) (hv : vs[i]? = some v) :
    ∃ t, ts[i]? = some t ∧ conforms t v := by
  rw [conformsAll_iff] at c
  induction c generalizing i with
  | nil => simp at hv
  | @cons t u ts vs first others ih =>
    cases i with
    | zero =>
      obtain rfl : u = v := by simpa using hv
      exact ⟨t, rfl, first⟩
    | succ i => exact ih hv

/-- Each of the values conforms to one of the types. -/
lemma exists_of_conformsAll (c : conformsAll ts vs) (hv : v ∈ vs) : ∃ t ∈ ts, conforms t v := by
  obtain ⟨i, hi⟩ := List.mem_iff_getElem?.mp hv
  obtain ⟨t, ht, conforming⟩ := exists_getElem?_of_conformsAll c hi
  exact ⟨t, List.mem_of_getElem? ht, conforming⟩

/-- Values conform to fields exactly if they conform to their types. -/
lemma conformsFields_eq (fields : List (Field Ty)) (vs : List Value) :
    conformsFields fields vs = conformsAll (fields.map (·.type)) vs := by
  induction fields generalizing vs with
  | nil => cases vs <;> simp
  | cons field fields ih => cases vs <;> simp [ih]

/-- Values conform to an enum if they conform to the first variant with the discriminant. -/
lemma conformsVariant_iff {d : UInt8} {variants : List (Variant Ty)} :
    conformsVariant d vs variants ↔
      ∃ variant, variants.find? (·.discriminant = d) = some variant ∧
        conformsAll (variant.fields.map (·.type)) vs := by
  induction variants with
  | nil => simp
  | cons variant variants ih =>
    by_cases h : variant.discriminant = d <;> simp [conformsFields_eq, h, ih]

/-- A value conforms to a primitive type exactly if it carries it. -/
lemma conforms_primitive_iff {p : Primitive} :
    conforms (.primitive p) v ↔ v.type = .primitive p := by
  simp

/-- The values of a type with absent values are these and the present ones. -/
lemma conforms_mayBeAbsent_iff {g : Generic} {make : Ty → Option Value → Value}
    (kind : MayBeAbsent g make) :
    conforms (.generic g params) v ↔
      ∃ p value, params = [p] ∧ v = make p value ∧ ∀ u ∈ value, conforms p u := by
  refine ⟨fun c => ?_, fun h => ?_⟩
  · -- A type with another number of parameters than one has no values.
    cases kind <;> rcases params with _ | ⟨p, _ | _⟩ <;> cases v <;> simp at c
    all_goals
      obtain ⟨rfl, c⟩ := c
      exact ⟨p, _, rfl, rfl, by simpa [Option.all_eq_true] using c⟩
  · obtain ⟨p, value, rfl, rfl, c⟩ := h
    cases kind <;> simpa [Option.all_eq_true] using c

/-- The values of a type of items are the items of its only parameter, any number of them. -/
lemma conforms_hasItems_iff {g : Generic} {make : Ty → List Value → Value}
    (kind : HasItems g make) :
    conforms (.generic g params) v ↔
      ∃ p items, params = [p] ∧ v = make p items ∧ ∀ u ∈ items, conforms p u := by
  refine ⟨fun c => ?_, fun h => ?_⟩
  · cases kind <;> rcases params with _ | ⟨p, _ | _⟩ <;> cases v <;> simp at c
    all_goals
      obtain ⟨rfl, c⟩ := c
      exact ⟨p, _, rfl, rfl, c⟩
  · obtain ⟨p, items, rfl, rfl, c⟩ := h
    cases kind <;> simpa using c

/-- A value conforms to a tuple exactly if it is one of items that conform to the parameters. -/
lemma conforms_tuple_iff :
    conforms (.generic .tuple params) v ↔ ∃ items, v = .tuple items ∧ conformsAll params items := by
  refine ⟨fun c => ?_, fun h => ?_⟩
  · cases v <;> simp at c
    exact ⟨_, rfl, c⟩
  · obtain ⟨items, rfl, c⟩ := h
    simpa using c

/-- A value conforms to an array exactly if it is one of as many items of the type. -/
lemma conforms_array_iff {length : UInt64} :
    conforms (.array length t) v ↔
      ∃ items, v = .array t items ∧ items.length = length.toNat ∧ ∀ u ∈ items, conforms t u := by
  refine ⟨fun c => ?_, fun h => ?_⟩
  · cases v <;> simp at c
    obtain ⟨⟨size, rfl⟩, c⟩ := c
    exact ⟨_, rfl, size, c⟩
  · obtain ⟨items, rfl, size, c⟩ := h
    simpa [size] using c

/-- A value conforms to a struct exactly if it carries it and has conforming values for the
fields. -/
lemma conforms_struct_iff {name : String} {fields : List (Field Ty)} :
    conforms (.struct name fields) v ↔
      ∃ values, v = .struct (.struct name fields) values ∧
        conformsAll (fields.map (·.type)) values := by
  refine ⟨fun c => ?_, fun h => ?_⟩
  · cases v <;> simp [conformsFields_eq] at c
    obtain ⟨rfl, c⟩ := c
    exact ⟨_, rfl, c⟩
  · obtain ⟨values, rfl, c⟩ := h
    simpa [conformsFields_eq] using c

/-- A value conforms to an enum exactly if it carries it and has conforming values for the fields of
the variant that its discriminant finds. -/
lemma conforms_enum_iff {name : String} {variants : List (Variant Ty)} :
    conforms (.enum name variants) v ↔
      ∃ d values variant, v = .enum (.enum name variants) d values ∧
        variants.find? (·.discriminant = d) = some variant ∧
        conformsAll (variant.fields.map (·.type)) values := by
  refine ⟨fun c => ?_, fun h => ?_⟩
  · cases v <;> simp [conformsVariant_iff] at c
    obtain ⟨rfl, variant, found, c⟩ := c
    exact ⟨_, _, variant, rfl, found, c⟩
  · obtain ⟨d, values, variant, rfl, found, c⟩ := h
    simpa [conformsVariant_iff] using ⟨variant, found, c⟩

/-- Values that conform to types one by one were made for them if this holds of each. -/
lemma types_of_conformsAll (h : ∀ t ∈ ts, ∀ v, conforms t v → v.type = t)
    (c : conformsAll ts vs) : types vs = ts := by
  rw [conformsAll_iff] at c
  induction c with
  | nil => rfl
  | cons c _ ih =>
    simp only [List.forall_mem_cons] at h
    rw [types, h.1 _ c, ih h.2]

/-- A value carries the type that it conforms to. -/
lemma type_of_conforms (c : conforms t v) : v.type = t := by
  induction t generalizing v with
  | primitive p => exact conforms_primitive_iff.mp c
  | generic g params ih =>
    cases g with
    | option =>
      obtain ⟨p, value, rfl, rfl, -⟩ := (conforms_mayBeAbsent_iff .option).mp c
      rfl
    | optional =>
      obtain ⟨p, value, rfl, rfl, -⟩ := (conforms_mayBeAbsent_iff .optional).mp c
      rfl
    | list =>
      obtain ⟨p, items, rfl, rfl, -⟩ := (conforms_hasItems_iff .list).mp c
      rfl
    | variadic =>
      obtain ⟨p, items, rfl, rfl, -⟩ := (conforms_hasItems_iff .variadic).mp c
      rfl
    | tuple =>
      obtain ⟨items, rfl, below⟩ := conforms_tuple_iff.mp c
      rw [type, types_of_conformsAll (fun t ht v => ih t ht) below]
  | array length t ih =>
    obtain ⟨items, rfl, size, -⟩ := conforms_array_iff.mp c
    simp [type, size]
  | struct name fields ih =>
    obtain ⟨values, rfl, -⟩ := conforms_struct_iff.mp c
    rfl
  | enum name variants ih =>
    obtain ⟨d, values, variant, rfl, -⟩ := conforms_enum_iff.mp c
    rfl

end ContractCalls.Value

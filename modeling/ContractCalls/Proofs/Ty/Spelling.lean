import ContractCalls.Proofs.Text.Numeral
import ContractCalls.Proofs.Text.Sorted
import ContractCalls.Proofs.Ty.Expression
import ContractCalls.Proofs.Ty.Nodes
import ContractCalls.Proofs.Ty.Resolve

/-!
# Spellings of types

The spelling of a type is the printed form of an expression, `Ty.expression`, with the first name of
each primitive type and generic, no leading zeros and no blank space. A type that some spelling
denotes is denoted by its own one as well (`parse_display`): the expressions of both have names of
the same kinds at the same places, so their depths agree, and custom types are found under the same
names. With other custom types it is denoted by its spelling as far as they agree on the structs and
enums that the spelling names (`HasSpelling.parse_display_iff`).
-/

namespace ContractCalls

open Expression (HasNames IsName IsSpelling maxDepth)

/-! ## Names -/

namespace Expression

variable {name : String} {e : Expression} {es : List Expression} {cs rest : List Char} {c : Char}

/-- A digit is no delimiter. -/
lemma not_isDelimiter_of_isDigit (digit : c.isDigit) : ¬isDelimiter c := by
  intro delimiter
  have one : (c = '<' ∨ c = '>') ∨ c = ',' := by simpa [isDelimiter] using delimiter
  obtain (rfl | rfl) | rfl := one <;> contradiction

/-- A text without blank space is a name if it has no delimiters. -/
lemma IsName.of_solid (nonempty : cs ≠ []) (plain : ∀ c ∈ cs, ¬isDelimiter c)
    (solid : ∀ c ∈ cs, ¬Text.isBlank c) : IsName cs :=
  ⟨nonempty, plain, Text.isTrimmed_of_not_isBlank solid⟩

/-- What a text starts with as a name is one. -/
lemma Named.isName (h : Named name cs rest) : IsName name.toList := by
  cases h with
  | run isName _ _ _ => rwa [String.toList_ofList]

/-- What is spelled has names that can be names. -/
lemma Derives.hasNames (h : Derives e cs rest) : HasNames e := by
  induction h using Derives.rec (motive_2 := fun es _ _ _ => ∀ e ∈ es, HasNames e) with
  | bare named => exact .mk named.isName (by simp)
  | applied named _ ih => exact .mk named.isName ih
  | last _ _ ih e member =>
    obtain rfl := List.mem_singleton.mp member
    exact ih
  | next _ _ _ ih ihs e member =>
    obtain rfl | below := List.mem_cons.mp member
    · exact ih
    · exact ihs e below

mutual

/-- The names in an expression. -/
def names : Expression → List String
  | mk name arguments => name :: namesAll arguments

/-- The names in several expressions. -/
def namesAll : List Expression → List String
  | [] => []
  | e :: es => e.names ++ namesAll es

end

/-- An expression with parameters is printed with brackets around them. -/
lemma print_mk (h : es ≠ []) :
    (mk name es).print = name.toList ++ '<' :: Text.join [','] (printAll es) ++ ['>'] := by
  cases es with
  | nil => exact absurd rfl h
  | cons e es => rw [print]

end Expression

/-- The name of a primitive type can be a name. -/
lemma Primitive.isName_name (p : Primitive) : IsName p.name.toList := by
  rcases p with ⟨⟨_ | _⟩, _ | _ | _ | _⟩ | _ | _ | _ | _ | _ | _ | _ | _ <;>
    exact ⟨by simp [name], by simp [name, Expression.isDelimiter], by rintro c ⟨⟩; decide,
      by rintro c ⟨⟩; decide⟩

/-- The name of a generic can be a name. -/
lemma Generic.isName_name (g : Generic) : IsName g.name.toList := by
  cases g <;>
    exact ⟨by simp [name], by simp [name, Expression.isDelimiter], by rintro c ⟨⟩; decide,
      by rintro c ⟨⟩; decide⟩

/-- A generic takes at least one parameter. -/
lemma Generic.pos_of_admits {g : Generic} {n : Nat} (h : g.admits n) : 0 < n := by
  cases g <;> simp [admits, arity?] at h <;> omega

namespace Ty

/-- The name of the arrays of a length. -/
def arrayName (length : UInt64) : String :=
  String.ofList ("array".toList ++ Nat.toDigits 10 length.toNat)

/-- The name of an array is a word and the digits of its length. -/
lemma toList_arrayName (length : UInt64) :
    (arrayName length).toList = "array".toList ++ Nat.toDigits 10 length.toNat :=
  String.toList_ofList

/-- The name of an array starts with five letters. -/
lemma toList_arrayName_eq_cons (length : UInt64) : (arrayName length).toList =
    'a' :: 'r' :: 'r' :: 'a' :: 'y' :: Nat.toDigits 10 length.toNat := by
  have front : "array".toList = ['a', 'r', 'r', 'a', 'y'] := by simp
  simp only [toList_arrayName, front, List.cons_append, List.nil_append]

/-- The length of an array is read back from its name. -/
lemma arrayLength?_arrayName (length : UInt64) : arrayLength? (arrayName length) = some length := by
  have small : length.toNat < Numeral.word64Bound := length.toNat_lt
  simp [arrayLength?, toList_arrayName_eq_cons, Numeral.digits?_toDigits, small]

/-- The name of an array can be a name. -/
lemma isName_arrayName (length : UInt64) : IsName (arrayName length).toList := by
  rw [toList_arrayName_eq_cons]
  refine .of_solid (by simp) ?_ ?_
  · simp only [List.forall_mem_cons]
    refine ⟨by decide, by decide, by decide, by decide, by decide, fun c h => ?_⟩
    exact Expression.not_isDelimiter_of_isDigit (isDigit_of_mem_toDigits h)
  · simp only [List.forall_mem_cons]
    exact ⟨by decide, by decide, by decide, by decide, by decide, Text.not_isBlank_of_mem_toDigits⟩

/-- A name that is the first one of what it stands for: no other name of a primitive type or of a
generic, and no leading zero in the length of an array. -/
structure IsFirstName (name : String) : Prop where
  primitive : ∀ p, Primitive.ofName? name = some p → name = p.name
  generic : ∀ g, Generic.ofName? name = some g → name = g.name
  array : ∀ length, arrayLength? name = some length → name = arrayName length

/-- The name of a primitive type is the first one of it. -/
lemma isFirstName_primitive (p : Primitive) : IsFirstName p.name where
  primitive p' found := by
    obtain rfl := Option.some.inj (p.ofName?_name.symm.trans found)
    rfl
  generic g found := by cases p.ofName?_name.symm.trans (primitive_eq_none_of_generic found)
  array length found := by cases p.ofName?_name.symm.trans (primitive_eq_none_of_array found)

/-- The name of a generic is the first one of it. -/
lemma isFirstName_generic (g : Generic) : IsFirstName g.name where
  primitive p found := by
    cases found.symm.trans (primitive_eq_none_of_generic g.ofName?_name)
  generic g' found := by
    obtain rfl := Option.some.inj (g.ofName?_name.symm.trans found)
    rfl
  array length found := by cases g.ofName?_name.symm.trans (generic_eq_none_of_array found)

/-- The name of an array is the first one of it. -/
lemma isFirstName_array (length : UInt64) : IsFirstName (arrayName length) where
  primitive p found := by
    cases found.symm.trans (primitive_eq_none_of_array (arrayLength?_arrayName length))
  generic g found := by
    cases found.symm.trans (generic_eq_none_of_array (arrayLength?_arrayName length))
  array length' found := by
    obtain rfl := Option.some.inj ((arrayLength?_arrayName length).symm.trans found)
    rfl

/-- A custom name is the first one of what it stands for. -/
lemma IsCustomName.isFirstName {name : String} (h : IsCustomName name) : IsFirstName name where
  primitive p found := by cases h.primitive.symm.trans found
  generic g found := by cases h.generic.symm.trans found
  array length found := by cases h.array.symm.trans found

/-! ## The expression of a type -/

mutual

/-- The expression whose printed form is the spelling of a type. -/
def expression : Ty → Expression
  | .primitive p => .mk p.name []
  | .generic g params => .mk g.name (expressions params)
  | .array length element => .mk (arrayName length) [element.expression]
  | .struct name _ => .mk name []
  | .enum name _ => .mk name []

/-- The expressions of several types. -/
def expressions : List Ty → List Expression
  | [] => []
  | t :: ts => t.expression :: expressions ts

end

mutual

/-- The structs and enums that the spelling of a type names, by name. -/
def customs : Ty → Table
  | .primitive _ => []
  | .generic _ params => customsAll params
  | .array _ element => element.customs
  | .struct name fields => [(name, .struct name fields)]
  | .enum name variants => [(name, .enum name variants)]

/-- The structs and enums that the spellings of several types name. -/
def customsAll : List Ty → Table
  | [] => []
  | t :: ts => t.customs ++ customsAll ts

end

variable {name source : String} {t : Ty} {ts : List Ty} {e : Expression} {es : List Expression}
  {custom custom' : String → Ty → Prop} {types types' : Table}

/-- A primitive type is spelled by its name. -/
lemma spell_primitive (p : Primitive) : (primitive p).spell = p.name.toList := rfl

/-- A generic is spelled by its name and its parameters in brackets. -/
lemma spell_generic {g : Generic} :
    (generic g ts).spell = g.name.toList ++ '<' :: Text.join [','] (spellAll ts) ++ ['>'] := rfl

/-- An array is spelled by its length and the type of its items in brackets. -/
lemma spell_array {length : UInt64} : (array length t).spell =
    "array".toList ++ Nat.toDigits 10 length.toNat ++ '<' :: t.spell ++ ['>'] := rfl

/-- There are as many expressions as types. -/
lemma length_expressions (ts : List Ty) : (expressions ts).length = ts.length := by
  induction ts with
  | nil => rfl
  | cons t ts ih => rw [expressions, List.length_cons, ih, List.length_cons]

/-- What has a name is a struct or an enum. -/
lemma customName?_eq_some_iff : t.customName? = some name ↔
    (∃ fields, t = .struct name fields) ∨ ∃ variants, t = .enum name variants := by
  cases t <;> simp [customName?]

/-- A struct or an enum is spelled by its name. -/
lemma expression_of_customName? (h : t.customName? = some name) : t.expression = .mk name [] := by
  obtain ⟨fields, rfl⟩ | ⟨variants, rfl⟩ := customName?_eq_some_iff.mp h <;> rfl

/-- The spelling of a struct or an enum is its name. -/
lemma spell_of_customName? (h : t.customName? = some name) : t.spell = name.toList := by
  obtain ⟨fields, rfl⟩ | ⟨variants, rfl⟩ := customName?_eq_some_iff.mp h <;> rfl

/-- The spelling of a struct or an enum names it alone. -/
lemma customs_of_customName? (h : t.customName? = some name) : t.customs = [(name, t)] := by
  obtain ⟨fields, rfl⟩ | ⟨variants, rfl⟩ := customName?_eq_some_iff.mp h <;> rfl

/-! ## Expressions that denote a type -/

/-- Custom names stand for structs and enums of these names. -/
def IsNamed (custom : String → Ty → Prop) : Prop :=
  ∀ name t, custom name t → t.customName? = some name

/-- What a generic is applied to is a type at least, and as many as its expression has. -/
lemma ResolveAll.ne_nil {g : Generic} (h : ResolveAll custom es ts)
    (admitted : g.admits es.length) : es ≠ [] ∧ expressions ts ≠ [] := by
  have pos := Generic.pos_of_admits admitted
  have same := h.length_eq
  simp only [← List.length_pos_iff, length_expressions]
  omega

/-- The spelling of a type has brackets as deep as any expression that denotes it. -/
lemma Resolves.depth_expression (named : IsNamed custom) (h : Resolves custom e t) :
    t.expression.depth = e.depth := by
  induction h using Resolves.rec
    (motive_2 := fun es ts _ => Expression.depthAll (expressions ts) = Expression.depthAll es) with
  | primitive _ => rfl
  | generic _ admitted all ih =>
    obtain ⟨written, spelled⟩ := all.ne_nil admitted
    rw [expression, Expression.depth_mk spelled, Expression.depth_mk written, ih]
  | array _ _ ih =>
    rw [expression, Expression.depth_mk (by simp), Expression.depth_mk (by simp)]
    simp only [Expression.depthAll, ih]
  | custom _ stands =>
    rw [expression_of_customName? (named _ _ stands)]
  | nil => rfl
  | cons _ _ ih ihs => rw [expressions, Expression.depthAll, Expression.depthAll, ih, ihs]

/-- The expression of a type has proper names if any expression that denotes it has. -/
lemma Resolves.hasNames_expression (named : IsNamed custom) (h : Resolves custom e t)
    (names : HasNames e) : HasNames t.expression := by
  induction h using Resolves.rec (motive_2 := fun es ts _ =>
    (∀ e ∈ es, HasNames e) → ∀ e ∈ expressions ts, HasNames e) with
  | @primitive _ p _ => exact .mk p.isName_name (by simp)
  | @generic _ g _ _ _ _ _ ih =>
    cases names with
    | mk _ below => exact .mk g.isName_name (ih below)
  | @array _ length _ _ _ _ ih =>
    cases names with
    | mk _ below =>
      exact .mk (isName_arrayName length) (List.forall_mem_singleton.mpr (ih (below _ (by simp))))
  | custom _ stands => rwa [expression_of_customName? (named _ _ stands)]
  | nil _ e member => simp [expressions] at member
  | cons _ _ ih ihs names e member =>
    rw [List.forall_mem_cons] at names
    obtain rfl | below := List.mem_cons.mp member
    · exact ih names.1
    · exact ihs names.2 e below

/-- The spelling of a type has the first names of everything in it. -/
lemma Resolves.isFirstName (named : IsNamed custom) (h : Resolves custom e t) :
    ∀ name ∈ t.expression.names, IsFirstName name := by
  induction h using Resolves.rec (motive_2 := fun _ ts _ =>
    ∀ name ∈ Expression.namesAll (expressions ts), IsFirstName name) with
  | @primitive _ p _ =>
    exact List.forall_mem_cons.mpr ⟨isFirstName_primitive p, by simp [Expression.namesAll]⟩
  | @generic _ g _ _ _ _ _ ih => exact List.forall_mem_cons.mpr ⟨isFirstName_generic g, ih⟩
  | @array _ length _ _ _ _ ih =>
    refine List.forall_mem_cons.mpr ⟨isFirstName_array length, ?_⟩
    simpa [Expression.namesAll] using ih
  | custom kind stands =>
    rw [expression_of_customName? (named _ _ stands)]
    exact List.forall_mem_cons.mpr ⟨kind.isFirstName, by simp [Expression.namesAll]⟩
  | nil name member => simp [expressions, Expression.namesAll] at member
  | cons _ _ ih ihs name member =>
    obtain here | below := List.mem_append.mp member
    · exact ih name here
    · exact ihs name below

/-- The spelling of a type is the printed form of its expression. -/
lemma Resolves.print_expression (named : IsNamed custom) (h : Resolves custom e t) :
    t.expression.print = t.spell := by
  induction h using Resolves.rec
    (motive_2 := fun _ ts _ => Expression.printAll (expressions ts) = spellAll ts) with
  | primitive _ => rfl
  | generic _ admitted all ih =>
    rw [expression, Expression.print_mk (all.ne_nil admitted).2, ih, spell_generic]
  | array _ _ ih =>
    rw [expression, Expression.print_mk (by simp)]
    simp only [spell_array, Expression.printAll, Text.join, toList_arrayName, ih]
  | custom _ stands =>
    rw [expression_of_customName? (named _ _ stands), spell_of_customName? (named _ _ stands)]
    rfl
  | nil => rfl
  | cons _ _ ih ihs => rw [expressions, Expression.printAll, ih, ihs, spellAll]

/-- The structs and enums that the spelling of a type names stand under these names. -/
lemma Resolves.customs (named : IsNamed custom) (h : Resolves custom e t) :
    ∀ entry ∈ t.customs, custom entry.1 entry.2 := by
  induction h using Resolves.rec
    (motive_2 := fun _ ts _ => ∀ entry ∈ customsAll ts, custom entry.1 entry.2) with
  | primitive _ => simp [Ty.customs]
  | generic _ _ _ ih => exact ih
  | array _ _ ih => exact ih
  | custom _ stands =>
    rw [customs_of_customName? (named _ _ stands)]
    exact List.forall_mem_singleton.mpr stands
  | nil entry member => simp [customsAll] at member
  | cons _ _ ih ihs entry member =>
    obtain here | below := List.mem_append.mp member
    · exact ih entry here
    · exact ihs entry below

/-- The spelling of a type denotes it wherever the structs and enums that it names stand under these
names. -/
lemma Resolves.resolves_expression (named : IsNamed custom) (h : Resolves custom e t)
    (stand : ∀ entry ∈ t.customs, custom' entry.1 entry.2) : Resolves custom' t.expression t := by
  induction h using Resolves.rec (motive_2 := fun _ ts _ =>
    (∀ entry ∈ customsAll ts, custom' entry.1 entry.2) →
      ResolveAll custom' (expressions ts) ts) with
  | @primitive _ p _ => exact .primitive p.ofName?_name
  | @generic _ g _ ts _ admitted all ih =>
    have count : g.admits (expressions ts).length := by
      rwa [length_expressions, ← all.length_eq]
    exact .generic g.ofName?_name count (ih stand)
  | @array _ length _ _ _ _ ih => exact .array (arrayLength?_arrayName length) (ih stand)
  | custom kind stands =>
    rw [customs_of_customName? (named _ _ stands)] at stand
    rw [expression_of_customName? (named _ _ stands)]
    exact .custom kind (stand _ (List.mem_singleton_self _))
  | nil => exact .nil
  | cons _ _ ih ihs stand =>
    rw [customsAll, List.forall_mem_append] at stand
    exact .cons (ih stand.1) (ihs stand.2)

/-! ## Types that are spelled -/

/-- A type whose spelling denotes it, where custom names stand for types as `custom` says. -/
structure HasSpelling (custom : String → Ty → Prop) (t : Ty) : Prop where
  names : HasNames t.expression
  printed : t.expression.print = t.spell
  resolves : Resolves custom t.expression t

/-- What an expression denotes has a spelling. -/
lemma Resolves.hasSpelling (named : IsNamed custom) (h : Resolves custom e t) (names : HasNames e) :
    HasSpelling custom t where
  names := h.hasNames_expression named names
  printed := h.print_expression named
  resolves := h.resolves_expression named (h.customs named)

/-- A primitive type has a spelling. -/
lemma hasSpelling_primitive (p : Primitive) : HasSpelling custom (.primitive p) where
  names := .mk p.isName_name (by simp)
  printed := rfl
  resolves := .primitive p.ofName?_name

/-- A generic that takes one parameter has a spelling if the parameter has one. -/
lemma HasSpelling.generic {g : Generic} (h : HasSpelling custom t) (single : g.admits 1) :
    HasSpelling custom (.generic g [t]) where
  names := .mk g.isName_name (List.forall_mem_singleton.mpr h.names)
  printed := by
    rw [expression, Expression.print_mk (by simp [expressions]), spell_generic]
    simp only [expressions, Expression.printAll, h.printed, spellAll]
  resolves := .generic g.ofName?_name single (.cons h.resolves .nil)

/-- A generic of one parameter is one bracket deeper than it. -/
lemma depth_expression_generic {g : Generic} :
    (generic g [t]).expression.depth = t.expression.depth + 1 := by
  rw [expression, expressions, expressions, Expression.depth_mk (by simp)]
  simp [Expression.depthAll]

/-- A type is displayed as its expression. -/
lemma HasSpelling.display_eq (h : HasSpelling custom t) : t.display = t.expression.display := by
  rw [display, Expression.display, h.printed]

/-- The spelling of a type is read as its expression, unless it is too deep. -/
lemma HasSpelling.parse_expression_iff (h : HasSpelling custom t) :
    Expression.parse t.display = .ok e ↔ e = t.expression ∧ t.expression.depth ≤ maxDepth := by
  have spelled : IsSpelling t.expression t.display.toList := by
    rw [display, String.toList_ofList, ← h.printed]
    exact h.names.isSpelling
  rw [Expression.parse_eq_ok_iff]
  refine ⟨fun ⟨other, bound⟩ => ?_, ?_⟩
  · obtain rfl := other.unique spelled
    exact ⟨rfl, bound⟩
  · rintro ⟨rfl, bound⟩
    exact ⟨spelled, bound⟩

/-- The name of a primitive type denotes it, whatever custom types there are. -/
lemma parse_primitive_name (p : Primitive) (types : Table) :
    parse p.name types = .ok (.primitive p) := by
  have spelled : HasSpelling (Found types.find) (.primitive p) := hasSpelling_primitive p
  have name : (primitive p).display = p.name := String.ofList_toList
  have read := spelled.parse_expression_iff.mpr ⟨rfl, Nat.zero_le _⟩
  rw [name] at read
  exact parseWith_eq_ok_iff.mpr ⟨_, read, spelled.resolves⟩

/-- A name stands for a type in a table exactly if it is the first under that name. -/
lemma Table.found_iff : Found types.find name t ↔ types.lookup name = some t := by
  simp [Found, Table.find]

/-- A table in which structs and enums stand under their own names. -/
def Table.IsNamed (types : Table) : Prop :=
  ∀ name t, types.lookup name = some t → t.customName? = some name

/-- In a table whose entries stand under their own names, what is found does. -/
lemma Table.isNamed_of_forall (named : ∀ entry ∈ types, entry.2.customName? = some entry.1) :
    types.IsNamed :=
  fun _ _ found => named _ (mem_of_lookup found)

/-- Names in such a table stand for structs and enums of these names. -/
lemma Table.IsNamed.found (named : types.IsNamed) : Ty.IsNamed (Found types.find) :=
  fun name t found => named name t (Table.found_iff.mp found)

/-- With other custom types, the spelling of a type denotes it as far as they have the structs and
enums that the spelling names. -/
theorem HasSpelling.parse_display_iff (h : HasSpelling custom t) (named : Ty.IsNamed custom)
    (named' : types'.IsNamed) :
    parse t.display types' = .ok t ↔ t.expression.depth ≤ maxDepth ∧
      ∀ entry ∈ t.customs, types'.lookup entry.1 = some entry.2 := by
  simp only [parse, parseWith_eq_ok_iff, h.parse_expression_iff, ← Table.found_iff]
  refine ⟨?_, fun ⟨bound, stand⟩ => ?_⟩
  · rintro ⟨_, ⟨rfl, bound⟩, resolved⟩
    exact ⟨bound, resolved.customs named'.found⟩
  · exact ⟨_, ⟨rfl, bound⟩, h.resolves.resolves_expression named stand⟩

/-- What a spelling denotes has a spelling of its own, as deep as that one. -/
lemma hasSpelling_of_parse (named : types.IsNamed) (r : parse source types = .ok t) :
    HasSpelling (Found types.find) t ∧ ∃ e, Expression.parse source = .ok e ∧
      t.expression.depth = e.depth ∧ e.depth ≤ maxDepth := by
  obtain ⟨e, read, resolved⟩ := parseWith_eq_ok_iff.mp r
  obtain ⟨⟨blank, -, derived⟩, bound⟩ := Expression.parse_eq_ok_iff.mp read
  exact ⟨resolved.hasSpelling named.found derived.hasNames, e, read,
    resolved.depth_expression named.found, bound⟩

/-- Spellings. Let the custom types of a table be structs and enums under their own names. What any
text denotes is denoted by its own spelling. That is the printed form of an expression, without
blank space around its names, which has the first names of everything in it. It is read as this
expression, whose brackets are as deep as those of the text, so it does not exceed the limit of
64. -/
theorem parse_display (named : types.IsNamed) (r : parse source types = .ok t) :
    parse t.display types = .ok t ∧ t.display = t.expression.display ∧
      (∀ name ∈ t.expression.names, IsFirstName name) ∧
      Expression.parse t.display = .ok t.expression ∧ t.expression.depth ≤ 64 ∧
        ∀ e, Expression.parse source = .ok e → e.depth = t.expression.depth := by
  obtain ⟨spelled, e, read, depth, bound⟩ := hasSpelling_of_parse named r
  have shallow : t.expression.depth ≤ maxDepth := depth ▸ bound
  refine ⟨?_, spelled.display_eq, spelled.resolves.isFirstName named.found, ?_, shallow, ?_⟩
  · have stand := spelled.resolves.customs named.found
    simp only [Table.found_iff] at stand
    exact (spelled.parse_display_iff named.found named).mpr ⟨shallow, stand⟩
  · exact spelled.parse_expression_iff.mpr ⟨rfl, shallow⟩
  · intro e' read'
    obtain rfl := Except.ok.inj (read.symm.trans read')
    exact depth.symm

/-- Other names of a list and of a machine word, leading zeros, blank space, and a struct with a
space in its name. -/
theorem parse_display_aliases :
    let point : Ty := .struct "my point" [⟨"x", .primitive .u8⟩]
    let types : Table := [("my point", point)]
    let t : Ty := .tuple [.list (.primitive .u32), .array 7 point]
    parse " tuple<vec<usize> ,array007< my point >> " types = .ok t ∧
      t.display = "tuple<List<u32>,array7<my point>>" ∧
        parse "tuple<List<u32>,array7<my point>>" types = .ok t := by
  intro point types t
  have read : parse " tuple<vec<usize> ,array007< my point >> " types = .ok t := by
    have written : Expression.parse " tuple<vec<usize> ,array007< my point >> " = .ok (.mk "tuple"
        [.mk "vec" [.mk "usize" []], .mk "array007" [.mk "my point" []]]) := by cbv
    have list : Resolves (Found types.find) (.mk "vec" [.mk "usize" []])
        (.list (.primitive .u32)) := .generic rfl rfl (.cons (.primitive rfl) .nil)
    have custom : Resolves (Found types.find) (.mk "my point" []) point :=
      .custom ⟨rfl, rfl, by cbv⟩ rfl
    exact parseWith_eq_ok_iff.mpr
      ⟨_, written, .generic rfl rfl (.cons list (.cons (.array (by cbv) custom) .nil))⟩
  have named : types.IsNamed := Table.isNamed_of_forall (by simp [types, point, customName?])
  have spelling : t.spell = "tuple<List<u32>,array7<my point>>".toList := by
    have digits : Nat.toDigits 10 7 = ['7'] := by decide
    have bare : point.spell = "my point".toList := spell_of_customName? rfl
    simp [t, spell_generic, spell_array, spellAll, Text.join, spell_primitive, bare, digits,
      Primitive.name, Generic.name]
  have displayed : t.display = "tuple<List<u32>,array7<my point>>" := by
    rw [display, spelling, String.ofList_toList]
  exact ⟨read, displayed, displayed ▸ (parse_display named read).1⟩

end Ty

end ContractCalls

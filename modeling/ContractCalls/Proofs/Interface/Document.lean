import ContractCalls.Interface.Registry
import ContractCalls.Proofs.Interface.Resolution
import ContractCalls.Proofs.Ty.Json

/-!
# Documents and endpoints, written and read

An endpoint is read back from the text of its record, if that is not too deep, and a document
whatever it holds: its records stand in one another up to a depth of eight. Each record has slots
for its parts (`slots`), and each part is read back from its slot.
-/

namespace ContractCalls

open Json

/-! ## Endpoints -/

namespace Endpoint

/-- The parts of the record of an endpoint. -/
def slots (e : Endpoint) : List (String × Option Json) :=
  [("name", some (.string e.name)), ("docs", nonempty? .string e.docs),
    ("inputs", some (.array (e.inputs.map Ty.writeField))),
    ("outputs", some (.array (e.outputs.map Ty.writeField))),
    ("mutability", some (.string e.mutability.name)),
    ("payable_in_egld", some (.bool e.payableInNative)),
    ("payable_in_tokens", some (.array (e.payableInTokens.map .string)))]

/-- The record of an endpoint holds the slots that are filled. -/
lemma toJson_eq (e : Endpoint) : e.toJson = .object (given e.slots) := by
  obtain ⟨name, _ | ⟨doc, docs⟩, inputs, outputs, mutability, native, tokens⟩ := e <;>
    rw [toJson, Ty.toJsonFields_eq, Ty.toJsonFields_eq] <;> rfl

/-- A mutability is read back from its name. -/
lemma readMutability?_name (m : Mutability) : readMutability? (.string m.name) = some m := by
  cases m <;> rfl

/-- An endpoint is read back from its record. -/
lemma ofJson?_toJson (e : Endpoint) : ofJson? e.toJson = some e := by
  have record : e.toJson.record? shape.names = some (given e.slots) := by
    rw [toJson_eq]
    exact record?_given rfl (by decide)
  have name : (given e.slots).required "name" toText? = some e.name :=
    Record.required_eq_some (by simp [slots]) (toText?_string e.name)
  have docs : (given e.slots).withDefault "docs" (toList? toText?) [] = some e.docs :=
    Record.withDefault_nonempty?_eq_some (by simp [slots]) fun s _ => toText?_string s
  have parameters (fields : List (Field Ty)) :
      (Json.array (fields.map Ty.writeField)).toList? (Ty.readField? Ty.ofJson?) = some fields :=
    toList?_map fun field _ => Ty.readField?_writeField field.type.ofJson?_toJson
  have inputs : (given e.slots).required "inputs" (toList? (Ty.readField? Ty.ofJson?)) =
      some e.inputs := Record.required_eq_some (by simp [slots]) (parameters e.inputs)
  have outputs : (given e.slots).required "outputs" (toList? (Ty.readField? Ty.ofJson?)) =
      some e.outputs := Record.required_eq_some (by simp [slots]) (parameters e.outputs)
  have mutability : (given e.slots).required "mutability" readMutability? = some e.mutability :=
    Record.required_eq_some (by simp [slots]) (readMutability?_name e.mutability)
  have native : (given e.slots).required "payable_in_egld" toBool? = some e.payableInNative :=
    Record.required_eq_some (by simp [slots]) (toBool?_bool _)
  have tokens : (given e.slots).required "payable_in_tokens" (toList? toText?) =
      some e.payableInTokens :=
    Record.required_eq_some (by simp [slots]) (toList?_map fun s _ => toText?_string s)
  rw [ofJson?, bind_of_eq_some record]
  simp only [name, docs, inputs, outputs, mutability, native, tokens]
  rfl

/-- The record of an endpoint is read whole for its shape. -/
lemma fits_toJson (e : Endpoint) : e.toJson.Fits shape := by
  have parameters (fields : List (Field Ty)) :
      (Json.array (fields.map Ty.writeField)).Fits (.list Ty.fieldShape) := by
    refine fits_list_map fun field _ => fits_given ?_
    simp only [Ty.fieldSlots, List.forall_mem_cons, Option.mem_some_iff, forall_eq']
    exact ⟨⟨.any, rfl, trivial⟩, ⟨.any, rfl, field.type.fits_toJson⟩, by simp⟩
  have texts (texts : List String) : (Json.array (texts.map .string)).Fits .any :=
    fits_any_map fun s _ => trivial
  have docs : ∀ value ∈ nonempty? .string e.docs, value.Fits .any :=
    fits_any_of_mem_nonempty? fun s _ => trivial
  rw [toJson_eq]
  refine fits_given ?_
  simp only [slots, List.forall_mem_cons, Option.mem_some_iff, forall_eq']
  exact ⟨⟨.any, rfl, trivial⟩, fun value h => ⟨.any, rfl, docs value h⟩,
    ⟨_, rfl, parameters e.inputs⟩, ⟨_, rfl, parameters e.outputs⟩, ⟨.any, rfl, trivial⟩,
    ⟨.any, rfl, trivial⟩, ⟨.any, rfl, texts e.payableInTokens⟩, by simp⟩

/-- An endpoint is read back from the text of its record. -/
theorem parse?_text (e : Endpoint) (shallow : e.toJson.depth ≤ maxDepth) :
    parse? e.toJson.text = some e := by
  rw [parse?, parseFor?_text e.fits_toJson shallow, Option.bind_some]
  exact e.ofJson?_toJson

end Endpoint

/-! ## Documents -/

namespace Document

/-- A list of texts that may be missing is read back. -/
lemma readTexts?_eq_some {parts : Record} {name : String} {texts : List String}
    (found : find? name parts = nonempty? .string texts) : readTexts? parts name = some texts :=
  Record.withDefault_nonempty?_eq_some found fun s _ => toText?_string s

/-- A list of texts that may be missing is one level deep at most. -/
lemma fitsWithin_of_mem_texts {n : Nat} (texts : List String) :
    ∀ value ∈ nonempty? .string texts, FitsWithin (n + 1) value :=
  fitsWithin_of_mem_nonempty? fun s _ => fitsWithin_string s

namespace Parameter

/-- The parts of the record of an input or output. -/
def slots (p : Parameter) : List (String × Option Json) :=
  [("name", some (.string p.name)), ("type", some (.string p.type)),
    ("multi_arg", p.multiArg.map .bool), ("multi_result", p.multiResult.map .bool)]

/-- The record of an input or output holds the slots that are filled. -/
lemma toJson_eq (p : Parameter) : p.toJson = .object (given p.slots) := by
  obtain ⟨name, type, _ | multiArg, _ | multiResult⟩ := p <;> rfl

/-- An input or output is read back from its record. -/
lemma ofJson?_toJson (p : Parameter) : ofJson? p.toJson = some p := by
  have record : p.toJson.record? shape.names = some (given p.slots) := by
    rw [toJson_eq]
    exact record?_given rfl (by decide)
  have name : (given p.slots).withDefault "name" toText? "" = some p.name :=
    Record.withDefault_eq_some (by simp [slots]) (toText?_string p.name)
  have type : (given p.slots).required "type" toText? = some p.type :=
    Record.required_eq_some (by simp [slots]) (toText?_string p.type)
  have multiArg : (given p.slots).optional "multi_arg" toBool? = some p.multiArg :=
    Record.optional_eq_some (by simp [slots]) (by simp) fun b _ => toBool?_bool b
  have multiResult : (given p.slots).optional "multi_result" toBool? = some p.multiResult :=
    Record.optional_eq_some (by simp [slots]) (by simp) fun b _ => toBool?_bool b
  rw [ofJson?, bind_of_eq_some record]
  simp only [name, type, multiArg, multiResult]
  rfl

/-- The record of an input or output is one level deep at most. -/
lemma fitsWithin_toJson (p : Parameter) : FitsWithin 1 p.toJson := by
  rw [toJson_eq]
  refine fitsWithin_given ?_
  simp only [slots, List.forall_mem_cons, Option.mem_some_iff, forall_eq']
  exact ⟨fitsWithin_string p.name, fitsWithin_string p.type,
    fitsWithin_of_mem_map fun b _ => fitsWithin_bool b,
    fitsWithin_of_mem_map fun b _ => fitsWithin_bool b, by simp⟩

end Parameter

/-- A list of inputs or outputs is read back. -/
lemma readParameters?_eq_some {parts : Record} {name : String} {parameters : List Parameter}
    (found : find? name parts = some (.array (parameters.map Parameter.toJson))) :
    readParameters? parts name = some parameters :=
  Record.withDefault_eq_some found (toList?_map fun p _ => p.ofJson?_toJson)

namespace Constructor

/-- The parts of the record of a constructor. -/
def slots (c : Constructor) : List (String × Option Json) :=
  [("docs", nonempty? .string c.docs), ("payableInTokens", nonempty? .string c.payableIn),
    ("inputs", some (.array (c.inputs.map Parameter.toJson))),
    ("outputs", some (.array (c.outputs.map Parameter.toJson)))]

/-- The record of a constructor holds the slots that are filled. -/
lemma toJson_eq (c : Constructor) : c.toJson = .object (given c.slots) := by
  obtain ⟨_ | ⟨doc, docs⟩, _ | ⟨token, tokens⟩, inputs, outputs⟩ := c <;> rfl

/-- A constructor is read back from its record. -/
lemma ofJson?_toJson (c : Constructor) : ofJson? c.toJson = some c := by
  have record : c.toJson.record? shape.names = some (given c.slots) := by
    rw [toJson_eq]
    exact record?_given rfl (by decide)
  have docs : readTexts? (given c.slots) "docs" = some c.docs :=
    readTexts?_eq_some (by simp [slots])
  have payableIn : readTexts? (given c.slots) "payableInTokens" = some c.payableIn :=
    readTexts?_eq_some (by simp [slots])
  have inputs : readParameters? (given c.slots) "inputs" = some c.inputs :=
    readParameters?_eq_some (by simp [slots])
  have outputs : readParameters? (given c.slots) "outputs" = some c.outputs :=
    readParameters?_eq_some (by simp [slots])
  rw [ofJson?, bind_of_eq_some record]
  simp only [docs, payableIn, inputs, outputs]
  rfl

/-- The record of a constructor is three levels deep at most. -/
lemma fitsWithin_toJson (c : Constructor) : FitsWithin 3 c.toJson := by
  have parameters (ps : List Parameter) : FitsWithin 2 (.array (ps.map Parameter.toJson)) :=
    fitsWithin_list fun p _ => p.fitsWithin_toJson
  rw [toJson_eq]
  refine fitsWithin_given ?_
  simp only [slots, List.forall_mem_cons, Option.mem_some_iff, forall_eq']
  exact ⟨fitsWithin_of_mem_texts c.docs, fitsWithin_of_mem_texts c.payableIn,
    parameters c.inputs, parameters c.outputs, by simp⟩

end Constructor

namespace Endpoint

/-- The parts of the record of an endpoint. -/
def slots (e : Endpoint) : List (String × Option Json) :=
  [("name", some (.string e.name)), ("docs", nonempty? .string e.docs),
    ("mutability", e.mutability.map .string), ("payableInTokens", nonempty? .string e.payableIn),
    ("inputs", some (.array (e.inputs.map Parameter.toJson))),
    ("outputs", some (.array (e.outputs.map Parameter.toJson)))]

/-- The record of an endpoint of a document holds the slots that are filled. -/
lemma toJson_eq (e : Endpoint) : e.toJson = .object (given e.slots) := by
  obtain ⟨name, _ | ⟨doc, docs⟩, _ | mutability, _ | ⟨token, tokens⟩, inputs, outputs⟩ := e <;> rfl

/-- An endpoint of a document is read back from its record. -/
lemma ofJson?_toJson (e : Endpoint) : ofJson? e.toJson = some e := by
  have record : e.toJson.record? shape.names = some (given e.slots) := by
    rw [toJson_eq]
    exact record?_given rfl (by decide)
  have name : (given e.slots).required "name" toText? = some e.name :=
    Record.required_eq_some (by simp [slots]) (toText?_string e.name)
  have docs : readTexts? (given e.slots) "docs" = some e.docs :=
    readTexts?_eq_some (by simp [slots])
  have mutability : (given e.slots).optional "mutability" toText? = some e.mutability :=
    Record.optional_eq_some (by simp [slots]) (by simp) fun s _ => toText?_string s
  have payableIn : readTexts? (given e.slots) "payableInTokens" = some e.payableIn :=
    readTexts?_eq_some (by simp [slots])
  have inputs : readParameters? (given e.slots) "inputs" = some e.inputs :=
    readParameters?_eq_some (by simp [slots])
  have outputs : readParameters? (given e.slots) "outputs" = some e.outputs :=
    readParameters?_eq_some (by simp [slots])
  rw [ofJson?, bind_of_eq_some record]
  simp only [name, docs, mutability, payableIn, inputs, outputs]
  rfl

/-- The record of an endpoint of a document is three levels deep at most. -/
lemma fitsWithin_toJson (e : Endpoint) : FitsWithin 3 e.toJson := by
  have parameters (ps : List Parameter) : FitsWithin 2 (.array (ps.map Parameter.toJson)) :=
    fitsWithin_list fun p _ => p.fitsWithin_toJson
  rw [toJson_eq]
  refine fitsWithin_given ?_
  simp only [slots, List.forall_mem_cons, Option.mem_some_iff, forall_eq']
  exact ⟨fitsWithin_string e.name, fitsWithin_of_mem_texts e.docs,
    fitsWithin_of_mem_map fun s _ => fitsWithin_string s, fitsWithin_of_mem_texts e.payableIn,
    parameters e.inputs, parameters e.outputs, by simp⟩

end Endpoint

/-! ### Definitions -/

/-- The parts of the record of a field. -/
def fieldSlots (field : Field String) : List (String × Option Json) :=
  [("name", some (.string field.name)), ("type", some (.string field.type))]

/-- The record of a field holds its slots. -/
lemma writeField_eq (field : Field String) :
    writeField field = .object (given (fieldSlots field)) := rfl

/-- A field is read back from its record. -/
lemma readField?_writeField (field : Field String) :
    readField? (writeField field) = some field := by
  have record : (writeField field).record? ["name", "type"] = some (given (fieldSlots field)) := by
    rw [writeField_eq]
    exact record?_given rfl (by decide)
  rw [readField?, bind_of_eq_some record]
  simp [fieldSlots, Record.required]

/-- The record of a field is one level deep at most. -/
lemma fitsWithin_writeField (field : Field String) : FitsWithin 1 (writeField field) := by
  rw [writeField_eq]
  refine fitsWithin_given ?_
  simp only [fieldSlots, List.forall_mem_cons, Option.mem_some_iff, forall_eq']
  exact ⟨fitsWithin_string field.name, fitsWithin_string field.type, by simp⟩

/-- The parts of the record of a variant. -/
def variantSlots (variant : Variant String) : List (String × Option Json) :=
  [("name", some (.string variant.name)),
    ("discriminant", some (.ofNat variant.discriminant.toNat)),
    ("fields", some (.array (variant.fields.map writeField)))]

/-- The record of a variant holds the slots that are filled. -/
lemma writeVariant_eq (variant : Variant String) :
    writeVariant variant = .object (given (variantSlots variant)) := rfl

/-- A list of fields that may be missing is read back. -/
lemma readFields_eq_some {parts : Record} {fields : List (Field String)}
    (found : find? "fields" parts = some (.array (fields.map writeField))) :
    parts.withDefault "fields" (toList? readField?) [] = some fields :=
  Record.withDefault_eq_some found (toList?_map fun field _ => readField?_writeField field)

/-- A variant is read back from its record. -/
lemma readVariant?_writeVariant (variant : Variant String) :
    readVariant? (writeVariant variant) = some variant := by
  have record : (writeVariant variant).record? ["name", "discriminant", "fields"] =
      some (given (variantSlots variant)) := by
    rw [writeVariant_eq]
    exact record?_given rfl (by decide)
  have name : (given (variantSlots variant)).required "name" toText? = some variant.name :=
    Record.required_eq_some (by simp [variantSlots]) (toText?_string variant.name)
  have discriminant : (given (variantSlots variant)).required "discriminant" toByte? =
      some variant.discriminant :=
    Record.required_eq_some (by simp [variantSlots]) (toByte?_ofNat variant.discriminant)
  have fields : (given (variantSlots variant)).withDefault "fields" (toList? readField?) [] =
      some variant.fields := readFields_eq_some (by simp [variantSlots])
  rw [readVariant?, bind_of_eq_some record]
  simp only [name, discriminant, fields]
  rfl

/-- A list of fields is two levels deep at most. -/
lemma fitsWithin_writeFields (fields : List (Field String)) :
    FitsWithin 2 (.array (fields.map writeField)) :=
  fitsWithin_list fun field _ => fitsWithin_writeField field

/-- The record of a variant is three levels deep at most. -/
lemma fitsWithin_writeVariant (variant : Variant String) :
    FitsWithin 3 (writeVariant variant) := by
  have small : variant.discriminant.toNat < Numeral.word64Bound :=
    variant.discriminant.toNat_lt.trans (by decide)
  rw [writeVariant_eq]
  refine fitsWithin_given ?_
  simp only [variantSlots, List.forall_mem_cons, Option.mem_some_iff, forall_eq']
  exact ⟨fitsWithin_string variant.name, ⟨fits_ofNat small, Nat.zero_le 2⟩,
    fitsWithin_writeFields variant.fields, by simp⟩

namespace Definition

/-- The tag of a definition. -/
def tag : Definition → String
  | struct _ => "struct"
  | enum _ => "enum"

/-- The parts of the record of a definition behind its tag. -/
def slots : Definition → List (String × Option Json)
  | struct fields => [("fields", some (.array (fields.map writeField)))]
  | enum variants => [("variants", some (.array (variants.map writeVariant)))]

/-- The record of a definition holds its tag and the slots that are filled. -/
lemma toJson_eq (definition : Definition) :
    definition.toJson =
      .object (given (("type", some (.string definition.tag)) :: definition.slots)) := by
  cases definition <;> rfl

/-- A definition is read back from its record, whether or not its tag may be given by its place. -/
lemma ofJson?_toJson (byIndex : Bool) (definition : Definition) :
    ofJson? byIndex definition.toJson = some definition := by
  have untagged : "type" ∉ definition.slots.map (·.1) := by cases definition <;> simp [slots]
  rw [ofJson?, toJson_eq, bind_of_eq_some (tagged?_given untagged)]
  cases definition with
  | struct fields =>
    have record : (Json.object (given (slots (.struct fields)))).record? ["fields"] =
        some (given (slots (.struct fields))) := record?_given rfl (by decide)
    have list : (given (slots (.struct fields))).withDefault "fields" (toList? readField?) [] =
        some fields := readFields_eq_some (by simp [slots])
    have place : tagIndex? ["struct", "enum"] byIndex (.string (tag (.struct fields))) = some 0 :=
      rfl
    simp only [bind_of_eq_some place, bind_of_eq_some record, list]
    rfl
  | enum variants =>
    have record : (Json.object (given (slots (.enum variants)))).record? ["variants"] =
        some (given (slots (.enum variants))) := record?_given rfl (by decide)
    have list : (given (slots (.enum variants))).withDefault "variants" (toList? readVariant?) [] =
        some variants := Record.withDefault_eq_some (by simp [slots])
          (toList?_map fun variant _ => readVariant?_writeVariant variant)
    have place : tagIndex? ["struct", "enum"] byIndex (.string (tag (.enum variants))) = some 1 :=
      rfl
    simp only [bind_of_eq_some place, bind_of_eq_some record, list]
    rfl

/-- The record of a definition is five levels deep at most. -/
lemma fitsWithin_toJson (definition : Definition) : FitsWithin 5 definition.toJson := by
  rw [toJson_eq]
  refine fitsWithin_given (List.forall_mem_cons.mpr ⟨?_, ?_⟩)
  · simpa using fitsWithin_string definition.tag
  · cases definition with
    | struct fields => simpa [slots] using (fitsWithin_writeFields fields).mono (by omega)
    | enum variants =>
      simpa [slots] using fitsWithin_list fun variant _ => fitsWithin_writeVariant variant

end Definition

/-! ### Contracts -/

namespace Contract

/-- The record of definitions by name. -/
def writeDefinitions (definitions : List (String × Definition)) : Json :=
  .object (definitions.map fun (name, definition) => (name, definition.toJson))

/-- The parts of the record of a contract. -/
def slots (c : Contract) : List (String × Option Json) :=
  [("name", some (.string c.name)), ("docs", nonempty? .string c.docs),
    ("constructor", c.constructor.map Constructor.toJson),
    ("endpoints", some (.array (c.endpoints.map Endpoint.toJson))),
    ("types", some (writeDefinitions c.types))]

/-- The record of a contract holds the slots that are filled. -/
lemma toJson_eq (c : Contract) : c.toJson = .object (given c.slots) := by
  obtain ⟨name, _ | ⟨doc, docs⟩, _ | constructor, endpoints, types⟩ := c <;> rfl

/-- Definitions are read back if they are sorted by name. -/
lemma readDefinitions?_writeDefinitions (byIndex : Bool) {definitions : List (String × Definition)}
    (sorted : definitions.Pairwise (·.1 < ·.1)) :
    readDefinitions? byIndex (writeDefinitions definitions) = some definitions := by
  have entries : (definitions.map fun (name, definition) => (name, definition.toJson)).mapM
      (readDefinition? byIndex) = some definitions := by
    refine mapM_map_eq_some fun entry _ => ?_
    rw [readDefinition?, Definition.ofJson?_toJson, Option.map_some]
  rw [writeDefinitions, readDefinitions?, entries, Option.map_some,
    Sorted.ofList_of_pairwise sorted]

/-- A contract with sorted definitions is read back from its record. -/
lemma ofJson?_toJson (inDocument : Bool) {c : Contract} (sorted : c.types.Pairwise (·.1 < ·.1)) :
    ofJson? inDocument c.toJson = some c := by
  have record : c.toJson.record? shape.names = some (given c.slots) := by
    rw [toJson_eq]
    exact record?_given rfl (by decide)
  have name : (given c.slots).required "name" toText? = some c.name :=
    Record.required_eq_some (by simp [slots]) (toText?_string c.name)
  have docs : readTexts? (given c.slots) "docs" = some c.docs :=
    readTexts?_eq_some (by simp [slots])
  have constructor : (given c.slots).optional "constructor" Constructor.ofJson? =
      some c.constructor := by
    refine Record.optional_eq_some (by simp [slots]) ?_ fun c _ => c.ofJson?_toJson
    intro c
    simp [Constructor.toJson_eq]
  have endpoints : (given c.slots).withDefault "endpoints" (toList? Endpoint.ofJson?) [] =
      some c.endpoints :=
    Record.withDefault_eq_some (by simp [slots]) (toList?_map fun e _ => e.ofJson?_toJson)
  have types : (given c.slots).withDefault "types" (readDefinitions? inDocument) [] =
      some c.types :=
    Record.withDefault_eq_some (by simp [slots]) (readDefinitions?_writeDefinitions _ sorted)
  rw [ofJson?, bind_of_eq_some record]
  simp only [name, docs, constructor, endpoints, types]
  rfl

/-- The record of a contract is seven levels deep at most. -/
lemma fitsWithin_toJson (c : Contract) : FitsWithin 7 c.toJson := by
  have endpoints : FitsWithin 4 (.array (c.endpoints.map Endpoint.toJson)) :=
    fitsWithin_list fun e _ => e.fitsWithin_toJson
  have types : FitsWithin 6 (writeDefinitions c.types) :=
    fitsWithin_object (List.forall_mem_map.mpr fun entry _ => entry.2.fitsWithin_toJson)
  rw [toJson_eq]
  refine fitsWithin_given ?_
  simp only [slots, List.forall_mem_cons, Option.mem_some_iff, forall_eq']
  exact ⟨fitsWithin_string c.name, fitsWithin_of_mem_texts c.docs,
    fitsWithin_of_mem_map fun c _ => c.fitsWithin_toJson.mono (by omega),
    endpoints.mono (by omega), types, by simp⟩

end Contract

/-- The definitions of each contract are sorted by name. -/
def IsSorted (d : Document) : Prop :=
  ∀ c ∈ d.contracts, c.types.Pairwise (·.1 < ·.1)

/-- A document with sorted definitions is read back from its record. -/
lemma ofJson?_toJson {d : Document} (sorted : d.IsSorted) : ofJson? d.toJson = some d := by
  cases d with
  | single c =>
    have back := Contract.ofJson?_toJson true (sorted c (by simp [contracts]))
    rw [toJson, ofJson?, back, Contract.toJson_eq]
    rfl
  | many cs =>
    have back : (Json.array (cs.map Contract.toJson)).toList? (Contract.ofJson? true) = some cs :=
      toList?_map fun c member => Contract.ofJson?_toJson true (sorted c member)
    simp only [toJson, ofJson?, back]

/-- The record of a document is eight levels deep at most. -/
lemma fitsWithin_toJson (d : Document) : FitsWithin 8 d.toJson := by
  cases d with
  | single c => exact c.fitsWithin_toJson.mono (by omega)
  | many cs => exact fitsWithin_list fun c _ => c.fitsWithin_toJson

/-- A document is read back from its text. -/
theorem parse?_text {d : Document} (sorted : d.IsSorted) : parse? d.toJson.text = some d := by
  have whole := d.fitsWithin_toJson
  rw [parse?, Json.parse?, parseFor?_text whole.fits (whole.depth_le.trans (by decide)),
    Option.bind_some]
  exact ofJson?_toJson sorted

/-- Documents that are read are sorted. -/
lemma isSorted_of_parse? {text : String} {d : Document} (e : parse? text = some d) :
    d.IsSorted := by
  obtain ⟨value, -, e⟩ := Option.bind_eq_some_iff.mp e
  unfold ofJson? at e
  split at e
  · next cs many =>
    obtain rfl := Option.some.inj e
    intro c member
    obtain ⟨record, read⟩ := exists_of_mem_toList? many member
    exact Contract.sorted_of_ofJson? read
  · obtain ⟨c, single, rfl⟩ := Option.map_eq_some_iff.mp e
    intro c' member
    obtain rfl := List.mem_singleton.mp member
    exact Contract.sorted_of_ofJson? single

end Document

/-- Serialised forms. A type or an endpoint is read back from the text of its record, if that has at
most 127 arrays and objects around one another. A document is read back from its text, the
definitions of each of its contracts being sorted by name as those of all documents are that are
read. So a document that was read and is written again makes the same of any registry. -/
theorem serialised_forms_read_back :
    (∀ t : Ty, t.toJson.depth ≤ 127 → Ty.parseRecord? t.toJson.text = some t) ∧
    (∀ e : Endpoint, e.toJson.depth ≤ 127 → Endpoint.parse? e.toJson.text = some e) ∧
    (∀ d : Document, d.IsSorted → Document.parse? d.toJson.text = some d) ∧
    (∀ (r : Registry) (text : String) (d : Document), Document.parse? text = some d →
      r.extend d.toJson.text = r.extend text) := by
  refine ⟨fun t => t.parseRecord?_text, fun e => e.parse?_text, fun d => Document.parse?_text, ?_⟩
  intro r text d read
  rw [Registry.extend, Registry.extend, Document.parse?_text (Document.isSorted_of_parse? read),
    read]

/-- A type with a variant that has no fields, an endpoint without docs, and a document whose
contracts are written as arrays, the second one with a constructor and a type. -/
theorem serialised_forms_read_back_two_contracts :
    let state : Ty := .enum "State" [⟨0, "Off", []⟩, ⟨1, "On", [⟨"since", .primitive .u64⟩]⟩]
    let put : Endpoint := .make "put" [] [⟨"state", .option state⟩] [] .readonly ["EGLD", "*"]
    let text := "[[\"A\"],[\"B\",[],[],[],\x7b\"E\":[\"enum\"]\x7d]]"
    let document : Document := .many [⟨"A", [], none, [], []⟩,
      ⟨"B", [], some ⟨[], [], [], []⟩, [], [("E", .enum [])]⟩]
    Ty.parseRecord? state.toJson.text = some state ∧
      Endpoint.parse? put.toJson.text = some put ∧
      Document.parse? document.toJson.text = some document ∧
      Registry.empty.extend document.toJson.text = Registry.empty.extend text := by
  intro state put text document
  obtain ⟨types, endpoints, documents, registries⟩ := serialised_forms_read_back
  have read : Document.parse? text = some document := by cbv
  exact ⟨types state (by decide), endpoints put (by decide),
    documents document (Document.isSorted_of_parse? read), registries .empty text document read⟩

end ContractCalls

import ContractCalls.Toml.Reader

/-!
# Settings

The settings of the command, kept in a TOML document. Each section is a record: a table whose other
keys are ignored, an array of its parts, or a moment without any part. A section that is left out
has default values.
-/

namespace ContractCalls.Command

/-- What the command does where its options say nothing. -/
structure Settings where
  /-- The interface document. -/
  document : Option String
  /-- The interfaces to search; all if there are none. -/
  contracts : List String
  /-- The format of the output. -/
  format : String
  /-- What is logged. -/
  level : String
  deriving DecidableEq, Repr

namespace Settings

/-- The settings where there is no document. -/
def default : Settings where
  document := none
  contracts := []
  format := "human"
  level := "warn"

/-- Whether the output is JSON. -/
def isJson (settings : Settings) : Bool :=
  settings.format = "json"

/-- The file that holds the settings unless another one is given. -/
def defaultPath : String := ".mx-abi.toml"

/-- The document of the default settings. -/
def defaultText : String :=
  "[abi]\ncontracts = []\n\n" ++
    "[output]\nformat = \"" ++ default.format ++ "\"\n\n" ++
    "[log]\nlevel = \"" ++ default.level ++ "\"\n"

/-- A part of a record that may be missing. -/
def optionalPart {α : Type} (parts : List (String × Toml)) (name : String)
    (read : Toml → Option α) : Option (Option α) :=
  match parts.lookup name with
  | some value => (read value).map some
  | none => some none

/-- The section that names the interface document and the interfaces. In an array the document
comes first and may not be left out. -/
def interfacePart? (value : Toml) : Option (Option String × List String) := do
  let parts ← value.parts? ["path", "contracts"]
  let path ← match value with
    | .array _ => (optionalPart parts "path" Toml.toText?).filter Option.isSome
    | _ => optionalPart parts "path" Toml.toText?
  return (path, (← optionalPart parts "contracts" Toml.toTexts?).getD [])

/-- A section with a single text, which may not be left out. -/
def textPart? (name : String) (value : Toml) : Option String := do
  ((← value.parts? [name]).lookup name).bind Toml.toText?

/-- The settings that a TOML value describes. -/
def ofToml? (value : Toml) : Option Settings := do
  let parts ← value.parts? ["abi", "output", "log"]
  let (document, contracts) := (← optionalPart parts "abi" interfacePart?).getD
    (default.document, default.contracts)
  return {
    document
    contracts
    format := (← optionalPart parts "output" (textPart? "format")).getD default.format
    level := (← optionalPart parts "log" (textPart? "level")).getD default.level }

/-- The settings that a text describes. -/
def parse? (text : String) : Option Settings :=
  (Toml.parse? text).bind ofToml?

end Settings

end ContractCalls.Command

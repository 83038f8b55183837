import ContractCalls.Command.Files
import ContractCalls.Command.Listing
import ContractCalls.Command.Settings
import ContractCalls.Command.Spelling

/-!
# Running the command

A run reads its settings and an interface document, does what its options ask, and ends with a code
and two texts: what it puts out and what it tells about failures. Only files are effects, so a run
is a computation over any kind of files.
-/

namespace ContractCalls.Command

/-- How a run ends. -/
structure Outcome where
  code : UInt8
  output : String
  errors : String
  deriving DecidableEq, Repr

namespace Outcome

/-- A run that does what it is asked. -/
def success (output : String) : Outcome :=
  ⟨0, output, ""⟩

/-- A run whose answer is no. -/
def refusal (output : String) : Outcome :=
  ⟨1, output, ""⟩

/-- A run that fails. -/
def failure (report : Report) : Outcome :=
  ⟨1, "", report.render⟩

/-- A run with wrong options. -/
def misuse : Outcome :=
  ⟨2, "", ""⟩

end Outcome

/-! ## Answers -/

/-- A JSON value as lines of output. -/
def jsonLines (value : Json) : String :=
  value.textLines ++ "\n"

/-- The answer to a listing. -/
def listEndpoints (settings : Settings) (v : View) : Outcome :=
  let endpoints := v.constructor?.toList ++ v.endpoints
  .success (if settings.isJson then jsonLines (listingJson endpoints) else listingText endpoints)

/-- The answer to a call that is accepted. -/
def acceptedText (settings : Settings) (i : Interaction) (p : Payload) : String :=
  if settings.isJson then
    jsonLines (Json.ofMembers [("accepted", .bool true), ("endpoint", .string i.function),
      ("data", .string p.render), ("gas_limit", .ofNat i.gasLimit)])
  else
    "[OK] " ++ i.function ++ "\n  data: " ++ p.render ++ "\n  gas limit: " ++
      toString i.gasLimit ++ "\n"

/-- The answer to a call that is refused. -/
def rejectedText (settings : Settings) (i : Interaction) (e : CallError) : String :=
  if settings.isJson then
    jsonLines (Json.ofMembers [("accepted", .bool false), ("endpoint", .string i.function),
      ("error", .string e.message)])
  else "[REJECTED] " ++ i.function ++ "\n  → " ++ e.message ++ "\n"

/-- The answer to a call. -/
def checkCall (settings : Settings) (v : View) (call : CallSpelling) : Except Report Outcome := do
  let i ← call.interaction v.customTypes
  match i.build v with
  | .ok p => return .success (acceptedText settings i p)
  | .error e => return .refusal (rejectedText settings i e)

/-- The answer to a value that is to be encoded. -/
def encodeLiteral (settings : Settings) (t : Ty) (literal : String) (encoding : Encoding) :
    Except Report Outcome := do
  let v ← orReport literalReport (Value.ofJson t (.ofLiteral literal))
  let bs ← orReport (fun e => .ofMessage e.message) (v.encode encoding)
  return .success (if settings.isJson then
      jsonLines (Json.ofMembers [("type", .string t.display), ("hex", .string (Hex.encode bs))])
    else Hex.encode bs ++ "\n")

/-- The bytes of a hexadecimal text with blank ends, behind any number of leading `0x`. -/
def readBytes (text : String) : Except Report Bytes :=
  orReport (fun e => ⟨"Input is not valid hex", [e.message]⟩)
    (Hex.decode (String.ofList (Hex.dropMarks (Text.trim text.toList))))

/-- The answer to bytes that are to be decoded. -/
def decodeHex (settings : Settings) (t : Ty) (hex : String) (encoding : Encoding) :
    Except Report Outcome := do
  let bs ← readBytes hex
  let v ← orReport (fun e => .ofMessage e.message) (Value.decode t bs encoding)
  return .success (if settings.isJson then
      jsonLines (Json.ofMembers [("type", .string t.display), ("value", v.toJson)])
    else jsonLines v.toJson)

/-! ## Files -/

section Run

variable {m : Type → Type} [Monad m]

/-- A computation over files that may fail. -/
abbrev Attempt (m : Type → Type) := ExceptT Report m

/-- Reads the settings of a text; `message` tells where it stands. -/
def readSettings (message text : String) : Except Report Settings :=
  match Settings.parse? text with
  | some settings => .ok settings
  | none => .error ⟨message, ["TOML parse error"]⟩

/-- The settings of the given file, or of the default one if there is one. -/
def loadSettings (files : Files m) : Option String → Attempt m Settings
  | some path => do
    match ← files.read path with
    | .ok text => liftExcept (readSettings "Failed to parse config file" text)
    | .error reason => throw ⟨"Failed to read config file: " ++ path, [reason]⟩
  | none => do
    if ← files.isPresent Settings.defaultPath then
      match ← files.read Settings.defaultPath with
      | .ok text =>
        liftExcept (readSettings ("Failed to parse " ++ Settings.defaultPath) text)
      | .error reason => throw (.ofMessage reason)
    else return .default

/-- The view of the interfaces that options or settings select. -/
def openView (files : Files m) (settings : Settings) (selection : Selection) : Attempt m View := do
  let path ← liftExcept (orMessage "No ABI document given; pass --abi or set MX_ABI_PATH"
    (selection.document <|> settings.document))
  let registry := match ← files.read path with
    | .ok text => Registry.parse text
    | .error reason => .error (.invalidDocument (.noFile path reason))
  let registry ← liftExcept (orReport
    (fun e => .around ("Failed to load ABI from " ++ path) (.ofMessage e.message)) registry)
  let names := if selection.contracts.isEmpty then settings.contracts else selection.contracts
  liftExcept (orReport (fun e => .ofMessage e.message)
    (registry.select (if names.isEmpty then none else some names)))

/-- The type with a spelling. Custom types are found where an interface document is named. -/
def findType (files : Files m) (settings : Settings) (selection : Selection) (spelled : String) :
    Attempt m Ty := do
  let table ←
    if selection.document.isSome ∨ settings.document.isSome then
      View.customTypes <$> openView files settings selection
    else pure []
  liftExcept (orReport (fun e => .ofMessage e.message) (Ty.parse spelled table))

/-- Writes the default settings to a file, unless something stands at its path. -/
def createSettings (files : Files m) (path : String) : Attempt m Outcome := do
  if ← files.isPresent path then
    return .success (path ++ " already exists, leaving it untouched\n")
  match ← files.write path Settings.defaultText with
  | .ok () => return .success ("Created " ++ path ++ "\n")
  | .error reason => throw ⟨"Failed to write " ++ path, [reason]⟩

/-- Does what is asked. -/
def Action.perform (files : Files m) (settings : Settings) : Action → Attempt m Outcome
  | .endpoints selection => return listEndpoints settings (← openView files settings selection)
  | .check selection call => do
    let v ← openView files settings selection
    liftExcept (checkCall settings v call)
  | .encode selection type value encoding => do
    let t ← findType files settings selection type
    liftExcept (encodeLiteral settings t value encoding)
  | .decode selection type hex encoding => do
    let t ← findType files settings selection type
    liftExcept (decodeHex settings t hex encoding)
  | .writeSettings path => createSettings files path

/-- Reads the settings and does what the options ask. -/
def Options.perform (files : Files m) (options : Options) : Attempt m Outcome := do
  let settings ← loadSettings files options.settings
  options.action.perform files { settings with format := options.format.getD settings.format }

/-- The run for the words of a command line, where the environment may name an interface
document. -/
def run (files : Files m) (environment : Option String) (words : List String) : m Outcome := do
  match Options.parse? environment Settings.defaultPath words with
  | none => return .misuse
  | some options =>
    match ← (options.perform files).run with
    | .ok outcome => return outcome
    | .error report => return .failure report

end Run

end ContractCalls.Command

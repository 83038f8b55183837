import ContractCalls.Codec.Encoding
import ContractCalls.Text.Numeral
import ContractCalls.Text.Split

/-!
# Options of the command

The words behind the name of the command: options, the name of an action, and more options. The
value of an option is the next word, which may not look like an option, or stands behind an equals
sign. The words behind `--` are no options. An option is given at most once unless it may be
repeated. A text that breaks these rules is no set of options.
-/

namespace ContractCalls.Command

/-! ## Words -/

/-- What an option takes. -/
inductive OptionKind where
  /-- No value. -/
  | flag
  /-- A value, once. -/
  | single
  /-- A value, any number of times. -/
  | repeatable
  deriving DecidableEq, Repr

/-- The options that may be given, by name. -/
abbrev OptionKinds := List (String × OptionKind)

/-- A word of the command line. -/
inductive Word where
  /-- The name of an option, with a value if one is attached. -/
  | option (name : String) (value : Option String)
  /-- The mark behind which there are no options. -/
  | mark
  /-- A word that starts like an option and is none. -/
  | refused
  /-- Any other word. -/
  | plain
  deriving DecidableEq, Repr

/-- What a word is. A single hyphen is a plain word. -/
def Word.ofString (word : String) : Word :=
  match word.toList with
  | ['-', '-'] => .mark
  | '-' :: '-' :: text =>
    match Text.splitFirst '=' text with
    | some (name, value) => .option (String.ofList name) (some (String.ofList value))
    | none => .option (String.ofList text) none
  | '-' :: _ :: _ => .refused
  | _ => .plain

/-- The options that were given with their values, and the other words. -/
structure Given where
  options : List (String × String)
  words : List String

/-- Puts an option before those given. -/
def Given.add (name value : String) (given : Given) : Given :=
  { given with options := (name, value) :: given.options }

/-- Reads options. Where `leading` holds, the first word that is no option ends them. -/
def readOptions (kinds : OptionKinds) (leading : Bool) : List String → Option Given
  | [] => some ⟨[], []⟩
  | word :: words =>
    match Word.ofString word with
    | .plain =>
      if leading then some ⟨[], word :: words⟩
      else (readOptions kinds leading words).map fun given =>
        { given with words := word :: given.words }
    | .mark => some ⟨[], if leading then [] else words⟩
    | .refused => none
    | .option name value =>
      match kinds.lookup name, value with
      | none, _ => none
      | some .flag, some _ => none
      | some .flag, none => (readOptions kinds leading words).map (·.add name "")
      | some _, some value => (readOptions kinds leading words).map (·.add name value)
      | some _, none =>
        match words with
        | [] => none
        | value :: words =>
          if Word.ofString value = .plain then
            (readOptions kinds leading words).map (·.add name value)
          else none

namespace Given

/-- The values of an option. -/
def values (given : Given) (name : String) : List String :=
  (given.options.filter (·.1 = name)).map Prod.snd

/-- The value of an option that is given at most once. -/
def value? (given : Given) (name : String) : Option String :=
  given.options.lookup name

/-- Whether an option is given. -/
def isGiven (given : Given) (name : String) : Bool :=
  (given.value? name).isSome

/-- Whether no option is given more than once that may not be repeated. -/
def respects (given : Given) (kinds : OptionKinds) : Bool :=
  kinds.all fun (name, kind) => kind = .repeatable || (given.values name).length ≤ 1

/-- Reads options that have to respect their kinds. -/
def parse? (kinds : OptionKinds) (leading : Bool) (words : List String) : Option Given :=
  (readOptions kinds leading words).filter (·.respects kinds)

end Given

/-! ## Actions -/

/-- Which interfaces are searched. -/
structure Selection where
  document : Option String
  contracts : List String
  deriving DecidableEq, Repr

/-- A call as it is spelled in options. -/
structure CallSpelling where
  endpoint : String
  arguments : List String
  value : Option String
  tokens : List String
  receiver : Option String
  gasLimit : UInt64
  deriving DecidableEq, Repr

/-- What the command is asked to do. -/
inductive Action where
  | endpoints (selection : Selection)
  | check (selection : Selection) (call : CallSpelling)
  | encode (selection : Selection) (type value : String) (encoding : Encoding)
  | decode (selection : Selection) (type hex : String) (encoding : Encoding)
  | writeSettings (path : String)
  deriving DecidableEq, Repr

/-- The options that may stand before and behind the name of an action. -/
def commonKinds : OptionKinds :=
  [("config", .single), ("format", .single)]

/-- The options that select interfaces. -/
def selectionKinds : OptionKinds :=
  [("abi", .single), ("contract", .repeatable)]

/-- The options behind the name of an action; none if no action has the name. -/
def actionKinds? (action : String) : Option OptionKinds :=
  match action with
  | "endpoints" => some (commonKinds ++ selectionKinds)
  | "check" =>
    some (commonKinds ++ selectionKinds ++
      [("endpoint", .single), ("arg", .repeatable), ("value", .single), ("token", .repeatable),
        ("receiver", .single), ("gas-limit", .single)])
  | "encode" =>
    some (commonKinds ++ selectionKinds ++
      [("type", .single), ("value", .single), ("nested", .flag)])
  | "decode" =>
    some (commonKinds ++ selectionKinds ++
      [("type", .single), ("hex", .single), ("nested", .flag)])
  | "init-config" => some commonKinds
  | _ => none

namespace Given

/-- The selection; the environment may name a document where no option does. -/
def selection (given : Given) (environment : Option String) : Selection :=
  ⟨given.value? "abi" <|> environment, given.values "contract"⟩

/-- The encoding. -/
def encoding (given : Given) : Encoding :=
  if given.isGiven "nested" then .nested else .top

/-- The gas limit, zero unless one is given. -/
def gasLimit? (given : Given) : Option UInt64 :=
  match given.value? "gas-limit" with
  | some limit => Numeral.word64? limit
  | none => some 0

/-- The call. -/
def call? (given : Given) : Option CallSpelling := do
  return {
    endpoint := ← given.value? "endpoint"
    arguments := given.values "arg"
    value := given.value? "value"
    tokens := given.values "token"
    receiver := given.value? "receiver"
    gasLimit := ← given.gasLimit? }

/-- The action with a name. Only that of writing settings takes a word that is no option: the file,
which is `defaultPath` unless it is given. -/
def action? (given : Given) (environment : Option String) (defaultPath name : String) :
    Option Action :=
  match name, given.words with
  | "init-config", [] => some (.writeSettings defaultPath)
  | "init-config", [path] => some (.writeSettings path)
  | "endpoints", [] => some (.endpoints (given.selection environment))
  | "check", [] => return .check (given.selection environment) (← given.call?)
  | "encode", [] =>
    return .encode (given.selection environment) (← given.value? "type") (← given.value? "value")
      given.encoding
  | "decode", [] =>
    return .decode (given.selection environment) (← given.value? "type") (← given.value? "hex")
      given.encoding
  | _, _ => none

end Given

/-- All that the words of the command line say. -/
structure Options where
  /-- The file that holds the settings. -/
  settings : Option String
  /-- The format of the output. -/
  format : Option String
  action : Action
  deriving DecidableEq, Repr

/-- The options that words spell, where the environment may name an interface document. Of an
option that stands before and behind the name of the action, the latter counts. -/
def Options.parse? (environment : Option String) (defaultPath : String) (words : List String) :
    Option Options := do
  let leading ← Given.parse? commonKinds true words
  match leading.words with
  | [] => none
  | name :: words =>
    let given ← Given.parse? (← actionKinds? name) false words
    return {
      settings := given.value? "config" <|> leading.value? "config"
      format := given.value? "format" <|> leading.value? "format"
      action := ← given.action? environment defaultPath name }

end ContractCalls.Command

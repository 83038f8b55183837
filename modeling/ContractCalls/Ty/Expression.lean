import ContractCalls.Text.Blank
import ContractCalls.Text.Join
import ContractCalls.Ty.Fault

/-!
# Type expressions

The grammar of type spellings. A name is a run of characters other than `<`, `>` and `,`, taken
without blank ends; it may be followed by parameters between angle brackets, with commas between
them. Blank space may stand around brackets and commas. Names are resolved elsewhere.
-/

namespace ContractCalls

/-- A name with its parameters. -/
inductive Expression where
  | mk (name : String) (arguments : List Expression)
  deriving Repr

namespace Expression

/-- The name of an expression. -/
def name : Expression → String
  | mk name _ => name

/-- The parameters of an expression. -/
def arguments : Expression → List Expression
  | mk _ arguments => arguments

/-- The greatest number of brackets around one another. -/
def maxDepth : Nat := 64

/-- Whether a character ends a name. -/
def isDelimiter (c : Char) : Bool :=
  c = '<' || c = '>' || c = ','

/-- The name at the start of a text, behind `offset` bytes, and the text behind it. -/
def readName (offset : Nat) (cs : List Char) : Except TypeFault (String × List Char) :=
  match Text.trim (cs.takeWhile (!isDelimiter ·)) with
  | [] => .error (.missingName offset)
  | name => .ok (String.ofList name, cs.dropWhile (!isDelimiter ·))

/-- The text behind a character that may have blank space before it. -/
def eat? (c : Char) (cs : List Char) : Option (List Char) :=
  match Text.trimStart cs with
  | [] => none
  | d :: rest => if d = c then some rest else none

mutual

/-- The expression at the start of a text, inside `depth` brackets, and the text behind it. The
whole text has `total` bytes. -/
def read (total : Nat) : (fuel depth : Nat) → List Char → Except TypeFault (Expression × List Char)
  | 0, _, cs => .error (.missingName (total - Text.utf8Length cs))
  | fuel + 1, depth, cs => do
    let (name, rest) ← readName (total - Text.utf8Length cs) cs
    match eat? '<' rest with
    | none => .ok (mk name [], rest)
    | some rest =>
      if maxDepth ≤ depth then .error (.tooDeep maxDepth)
      else
        let (arguments, rest) ← readArguments total fuel (depth + 1) name rest
        .ok (mk name arguments, rest)

/-- The parameters of `owner` up to the closing bracket, and the text behind it. -/
def readArguments (total : Nat) : (fuel depth : Nat) → (owner : String) → List Char →
    Except TypeFault (List Expression × List Char)
  | 0, _, owner, _ => .error (.unclosed owner)
  | fuel + 1, depth, owner, cs => do
    let (argument, rest) ← read total fuel depth cs
    match eat? ',' rest with
    | some rest =>
      let (arguments, rest) ← readArguments total fuel depth owner rest
      .ok (argument :: arguments, rest)
    | none =>
      match eat? '>' rest with
      | some rest => .ok ([argument], rest)
      | none => .error (.unclosed owner)

end

/-- The expression that fills a text, apart from blank space at its end. Each step of the reader
but the first follows a character that is read, so the length of the text bounds their nesting. -/
def ofList? (cs : List Char) : Except TypeFault Expression := do
  let (expression, rest) ← read (Text.utf8Length cs) (cs.length + 1) 0 cs
  match Text.trimStart rest with
  | [] => .ok expression
  | rest => .error (.trailing (String.ofList rest))

/-- The expression that a spelling denotes. -/
def parse (source : String) : Except MalformedType Expression :=
  (ofList? source.toList).mapError (⟨source, ·⟩)

mutual

/-- The text of an expression, without blank space. -/
def print : Expression → List Char
  | mk name [] => name.toList
  | mk name (a :: as) => name.toList ++ '<' :: Text.join [','] (printAll (a :: as)) ++ ['>']

/-- The texts of several expressions. -/
def printAll : List Expression → List (List Char)
  | [] => []
  | e :: es => e.print :: printAll es

end

/-- The text of an expression as a string. -/
def display (e : Expression) : String :=
  String.ofList e.print

end Expression

end ContractCalls

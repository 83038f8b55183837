import ContractCalls.Text.Join

/-!
# Failures of the command

A failure is told with the failures it comes from, each the cause of the one before. A single cause
is indented; several are numbered.
-/

namespace ContractCalls.Command

/-- A failure of the command. -/
structure Report where
  message : String
  causes : List String
  deriving DecidableEq, Repr

namespace Report

/-- A failure without causes. -/
def ofMessage (message : String) : Report :=
  ⟨message, []⟩

/-- A failure that comes from another one. -/
def around (message : String) (cause : Report) : Report :=
  ⟨message, cause.message :: cause.causes⟩

/-- So many spaces. -/
def spaces (n : Nat) : String :=
  String.ofList (List.replicate n ' ')

/-- The lines of a cause, the first behind a label and the others below it. -/
def renderCause (label cause : String) : String :=
  "\n" ++ label ++ Text.joinStrings ("\n" ++ spaces label.length) (cause.splitOn "\n")

/-- The label of one of several causes: its number, in five places. -/
def causeLabel (n : Nat) : String :=
  let digits := toString n
  spaces (5 - digits.length) ++ digits ++ ": "

/-- Several causes, numbered from `n`. -/
def renderNumbered (n : Nat) : List String → String
  | [] => ""
  | cause :: causes => renderCause (causeLabel n) cause ++ renderNumbered (n + 1) causes

/-- The causes of a failure. -/
def renderCauses : List String → String
  | [] => ""
  | [cause] => "\n\nCaused by:" ++ renderCause (spaces 4) cause
  | causes => "\n\nCaused by:" ++ renderNumbered 0 causes

/-- The text of a failure. -/
def render (report : Report) : String :=
  "Error: " ++ report.message ++ renderCauses report.causes ++ "\n"

end Report

end ContractCalls.Command

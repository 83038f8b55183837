import ContractCalls.Command.Run

/-!
# The command
-/

namespace ContractCalls

/-- The wording of an error of the system. A number above the signed ones stands for its negative. -/
def systemReason (details : String) (code : UInt32) : String :=
  let number := if code < 0x80000000 then code else 0 - code
  details.capitalize ++ " (os error " ++ toString number ++ ")"

/-- Why the system refuses a file. -/
def refusalReason : IO.Error → String
  | .noFileOrDirectory _ code details => systemReason details code
  | .permissionDenied _ code details => systemReason details code
  | .inappropriateType _ code details => systemReason details code
  | e => toString e

/-- The result of an action, or the reason why the system refuses it. -/
def attempt {α : Type} (action : IO α) : IO (Except String α) := do
  match ← action.toBaseIO with
  | .ok a => return .ok a
  | .error e => return .error (refusalReason e)

/-- The content of a file, which has to be UTF-8. -/
def readText (path : String) : IO (Except String String) := do
  match ← attempt (IO.FS.readBinFile path) with
  | .error reason => return .error reason
  | .ok bytes =>
    match String.fromUTF8? bytes with
    | some text => return .ok text
    | none => return .error "stream did not contain valid UTF-8"

/-- The files of the system. -/
def systemFiles : Command.Files IO where
  read := readText
  isPresent path := return (← attempt (IO.FS.realPath path)).isOk
  write path content := attempt (IO.FS.writeFile path content)

end ContractCalls

/-- Runs the command that the words ask for and gives its exit code. -/
def main (words : List String) : IO UInt32 := do
  let environment ← IO.getEnv "MX_ABI_PATH"
  let outcome ← ContractCalls.Command.run ContractCalls.systemFiles environment words
  (← IO.getStdout).putStr outcome.output
  (← IO.getStderr).putStr outcome.errors
  return outcome.code.toUInt32

/-!
# Text files

What the command asks of the files around it.
-/

namespace ContractCalls.Command

/-- The operations on text files, as effects. A refusal tells the reason. -/
structure Files (m : Type → Type) where
  /-- The content of a file. -/
  read (path : String) : m (Except String String)
  /-- Whether a path leads to a file or a directory. -/
  isPresent (path : String) : m Bool
  /-- Makes a file with a content, in place of one that exists. -/
  write (path content : String) : m (Except String Unit)

end ContractCalls.Command

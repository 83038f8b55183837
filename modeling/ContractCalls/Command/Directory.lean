import ContractCalls.Command.Files
import ContractCalls.Text.Split

/-!
# Directories

The text files of one directory. Paths are relative to it. A file in a directory inside it is known
by its whole path, so there are exactly the directories that hold files.
-/

namespace ContractCalls.Command

/-- Why a path is refused. -/
inductive PathFault where
  /-- Nothing stands at the path. -/
  | missing
  /-- A file stands where the path needs a directory. -/
  | notDirectory
  /-- A directory stands where a file is needed. -/
  | isDirectory
  deriving DecidableEq, Repr

/-- The message of a fault at a path. -/
def PathFault.message : PathFault → String
  | .missing => "No such file or directory (os error 2)"
  | .notDirectory => "Not a directory (os error 20)"
  | .isDirectory => "Is a directory (os error 21)"

/-- A directory: its files by their paths, as lists of names, with their contents. -/
structure Directory where
  files : List (List String × String)
  deriving DecidableEq, Repr

namespace Directory

/-- The names of a path. Empty names and single dots stay where they are. -/
def names (path : String) : List String :=
  (Text.splitAt '/' path.toList).map String.ofList

/-- Whether a name stays in its directory. -/
def isStay (name : String) : Bool :=
  name = "" || name = "."

/-- The directory of the given files. -/
def ofList (files : List (String × String)) : Directory :=
  ⟨files.map fun (path, content) => ((names path).filter (!isStay ·), content)⟩

/-- Whether the names lead to a directory. -/
def isDirectory (d : Directory) (place : List String) : Bool :=
  place.isEmpty ||
    d.files.any fun (file, _) => place.length < file.length && file.take place.length = place

/-- The place to which names lead from a place. The directory around this one is not known. -/
def walk (d : Directory) : (place names : List String) → Except PathFault (List String)
  | place, [] => .ok place
  | place, name :: rest =>
    if ¬d.isDirectory place then
      .error (if (d.files.lookup place).isSome then .notDirectory else .missing)
    else if isStay name then d.walk place rest
    else if name = ".." then
      if place.isEmpty then .error .missing else d.walk place.dropLast rest
    else d.walk (place ++ [name]) rest

/-- The place to which the names of a path lead. Absolute paths lead out of the directory. -/
def locate (d : Directory) : List String → Except PathFault (List String)
  | [] => .error .missing
  | "" :: _ => .error .missing
  | names => d.walk [] names

/-- The content of a file. -/
def read (d : Directory) (path : String) : Except PathFault String := do
  let place ← d.locate (names path)
  if d.isDirectory place then .error .isDirectory
  else
    match d.files.lookup place with
    | some content => .ok content
    | none => .error .missing

/-- Whether a path leads to a file or a directory. -/
def isPresent (d : Directory) (path : String) : Bool :=
  match d.locate (names path) with
  | .ok place => d.isDirectory place || (d.files.lookup place).isSome
  | .error _ => false

/-- The names of a path without the empty ones at its end. -/
def dropSlashes (names : List String) : List String :=
  (names.reverse.dropWhile (· = "")).reverse

/-- The directory with a file made at a path, whose last name has to be that of the file. -/
def write (d : Directory) (path content : String) : Except PathFault Directory := do
  let place ← d.locate (dropSlashes (names path))
  if d.isDirectory place ∨ (names path).getLast?.any isStay then .error .isDirectory
  else .ok ⟨(place, content) :: d.files.filter (·.1 ≠ place)⟩

/-- The operations on a directory. -/
def asFiles : Files (StateM Directory) where
  read path := return ((← get).read path).mapError PathFault.message
  isPresent path := return (← get).isPresent path
  write path content := do
    match (← get).write path content with
    | .ok d => set d; return .ok ()
    | .error fault => return .error fault.message

end Directory

end ContractCalls.Command

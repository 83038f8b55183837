import ContractCalls.Toml.Basic

/-!
# Trees of TOML tables

A document defines its tables line by line, so a tree remembers how each table came to be. A table
has at most one header, a header adds nothing to a table that dotted keys made, a dotted key adds
nothing to a table that has a header, and no value is ever changed.
-/

namespace ContractCalls.Toml

/-- How a table came to be: by a header of its own, by the header of a table inside it, or by a
dotted key. -/
inductive Origin where
  | header
  | implied
  | dotted
  deriving DecidableEq, Repr

/-- What stands under a key: a value, a table, or the rows of an array of tables, the last of which
is still open. -/
inductive Node where
  | value (v : Toml)
  | table (origin : Origin) (entries : List (String × Node))
  | rows (closed : List (List (String × Node))) (last : List (String × Node))

/-- What stands in a table. -/
abbrev Entries := List (String × Node)

namespace Entries

/-- Puts a node under a key, in place of one that stands there. -/
def put (key : String) (node : Node) : Entries → Entries
  | [] => [(key, node)]
  | (k, n) :: entries => if k = key then (key, node) :: entries else (k, n) :: put key node entries

/-- Changes the table at the end of a path. Tables that are missing on the way are made as `made`
says. The path goes through the last row of an array of tables, and with a dotted key not through
tables that have a header. -/
def updateAt (made : Origin) (change : Origin → Entries → Option Entries) :
    (path : List String) → Origin → Entries → Option Entries
  | [], origin, entries => change origin entries
  | key :: path, _, entries =>
    match entries.lookup key with
    | none =>
      (updateAt made change path made []).map fun inner => put key (.table made inner) entries
    | some (.value _) => none
    | some (.table origin inner) =>
      if made = .dotted ∧ origin = .header then none
      else
        (updateAt made change path origin inner).map fun inner =>
          put key (.table origin inner) entries
    | some (.rows closed last) =>
      (updateAt made change path .header last).map fun last => put key (.rows closed last) entries

/-- Puts a node under a new key. -/
def putNew (key : String) (node : Node) (entries : Entries) : Option Entries :=
  if (entries.lookup key).isSome then none else some (entries ++ [(key, node)])

/-- Gives a value to a key. Only a table that dotted keys made gets values by a dotted key. -/
def define (entries : Entries) (path : List String) (key : String) (v : Toml) : Option Entries :=
  entries.updateAt .dotted (fun origin table =>
    if path ≠ [] ∧ origin ≠ .dotted then none else putNew key (.value v) table) path .header

/-- Opens the table of a header. -/
def openTable (entries : Entries) (path : List String) (key : String) : Option Entries :=
  entries.updateAt .implied (fun _ table =>
    match table.lookup key with
    | none => some (table.put key (.table .header []))
    | some (.table .implied inner) => some (table.put key (.table .header inner))
    | some _ => none) path .header

/-- Opens a new row of the array of tables of a header. -/
def openRow (entries : Entries) (path : List String) (key : String) : Option Entries :=
  entries.updateAt .implied (fun _ table =>
    match table.lookup key with
    | none => some (table.put key (.rows [] []))
    | some (.rows closed last) => some (table.put key (.rows (closed ++ [last]) []))
    | some _ => none) path .header

/-- Gives a value to a key of the table that was opened last, at the path `current`. -/
def defineIn (entries : Entries) (current path : List String) (key : String) (v : Toml) :
    Option Entries :=
  entries.updateAt .implied (fun _ table => table.define path key v) current .header

end Entries

mutual

/-- The value of a node. -/
def Node.toToml : Node → Toml
  | .value v => v
  | .table _ entries => .table (entriesToToml entries)
  | .rows closed last => .array (rowsToToml closed ++ [.table (entriesToToml last)])

/-- The values of entries. -/
def entriesToToml : List (String × Node) → List (String × Toml)
  | [] => []
  | (key, node) :: entries => (key, node.toToml) :: entriesToToml entries

/-- The values of rows. -/
def rowsToToml : List (List (String × Node)) → List Toml
  | [] => []
  | entries :: rows => .table (entriesToToml entries) :: rowsToToml rows

end

end ContractCalls.Toml

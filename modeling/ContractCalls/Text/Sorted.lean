/-!
# Entries sorted by key

Entries with a string each, in the order of the code points of the strings, and no two with one
string.
-/

namespace ContractCalls.Sorted

variable {α : Type}

/-- Puts an entry among sorted ones, in place of one with the same key. -/
def insert (key : String) (value : α) : List (String × α) → List (String × α)
  | [] => [(key, value)]
  | (k, v) :: rest =>
    if key = k then (key, value) :: rest
    else if key < k then (key, value) :: (k, v) :: rest
    else (k, v) :: insert key value rest

/-- The entries sorted by key, of entries with one key only the last. -/
def ofList (entries : List (String × α)) : List (String × α) :=
  entries.foldl (fun sorted (key, value) => insert key value sorted) []

end ContractCalls.Sorted

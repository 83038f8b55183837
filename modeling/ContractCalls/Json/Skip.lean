import ContractCalls.Json.Lexical
import ContractCalls.Json.Number
import ContractCalls.Text.Word

/-!
# Values that nobody asks for

A value in a text may be skipped. It then has to have the form of a value, but need not denote one:
its numbers may be of any size, its strings may hold surrogates without their partners, and its
arrays and objects may stand in one another as deep as they like.
-/

namespace ContractCalls.Json

mutual

/-- The text behind the value at its start. -/
def skipValue : (fuel : Nat) → List Char → Option (List Char)
  | 0, _ => none
  | fuel + 1, cs =>
    match skipSpace cs with
    | '"' :: rest => skipString rest
    | '[' :: rest =>
      match skipSpace rest with
      | ']' :: rest => some rest
      | rest => skipItems fuel rest
    | '\x7b' :: rest =>
      match skipSpace rest with
      | '\x7d' :: rest => some rest
      | rest => skipMembers fuel rest
    | 'n' :: rest => Text.skipWord ['u', 'l', 'l'] rest
    | 't' :: rest => Text.skipWord ['r', 'u', 'e'] rest
    | 'f' :: rest => Text.skipWord ['a', 'l', 's', 'e'] rest
    | rest => (Lexeme.scan rest).map Prod.snd

/-- The text behind the items of an array and its closing bracket. -/
def skipItems : (fuel : Nat) → List Char → Option (List Char)
  | 0, _ => none
  | fuel + 1, cs => do
    let rest ← skipValue fuel cs
    match skipSpace rest with
    | ',' :: rest => skipItems fuel rest
    | ']' :: rest => some rest
    | _ => none

/-- The text behind the members of an object and its closing brace. -/
def skipMembers : (fuel : Nat) → List Char → Option (List Char)
  | 0, _ => none
  | fuel + 1, cs =>
    match skipSpace cs with
    | '"' :: rest => do
      let rest ← skipString rest
      match skipSpace rest with
      | ':' :: rest => do
        let rest ← skipValue fuel rest
        match skipSpace rest with
        | ',' :: rest => skipMembers fuel rest
        | '\x7d' :: rest => some rest
        | _ => none
      | _ => none
    | _ => none

end

end ContractCalls.Json

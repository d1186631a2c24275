import ConfigChain.Json.Grammar

/-!
JSON values as data, and their strict reader.
-/

namespace ConfigChain.Json

/-- A value. The members of an object are sorted by key and no key occurs twice. -/
inductive Value where
  | null
  | bool (b : Bool)
  | number (n : Number)
  | text (s : String)
  | list (items : List Value)
  | object (members : List (String × Value))

/-- Puts a member into its place, instead of one with the same key. -/
def place {α : Type} (key : String) (a : α) : List (String × α) → List (String × α)
  | [] => [(key, a)]
  | (k, b) :: rest =>
    if key = k then (key, a) :: rest
    else if key < k then (key, a) :: (k, b) :: rest
    else (k, b) :: place key a rest

/-- The members of an object from those that are written: the last one of a key counts. -/
def sorted {α : Type} (written : List (String × α)) : List (String × α) :=
  written.foldl (fun ms m => place m.1 m.2 ms) []

/-- The grammar of strict JSON. -/
def strict : Grammar String Value where
  key := string
  text := string.map .text
  number := number.map .number
  null := .null
  bool := .bool
  list := .list
  object ms := .object (sorted ms)
  listClosed := .trailingComma
  objectEnded := .endInValue
  objectClosed := .trailingComma

/-- How many lists and objects may be nested. -/
def greatestDepth : Nat := 127

/-- A strict JSON text as a value. -/
def Value.parse (text : Bytes) : Except Fault Value := (strict.value greatestDepth).whole text

/-- The member of an object under a key. -/
def Value.member? (key : String) : Value → Option Value
  | .object ms => ms.lookup key
  | _ => none

end ConfigChain.Json

import ConfigChain.Path.Relative

/-!
Alias tables: patterns for module specifiers, each with the templates of the paths it stands for. Rows
keep the order in which their patterns were first written, and a pattern that is written again gets its
later templates in its old place.
-/

namespace ConfigChain

/-- A pattern and its templates, in the order written. -/
structure Alias where
  pattern : String
  templates : List String
deriving DecidableEq, Repr

/-- Aliases and the directory that their templates count from, itself relative to the directory of the
config file the table belongs to. -/
structure AliasTable where
  base : String
  rows : List Alias
deriving DecidableEq, Repr

/-- Writes a row behind others, or over the row with the same pattern. -/
def Alias.put (row : Alias) : List Alias → List Alias
  | [] => [row]
  | first :: rest => if first.pattern = row.pattern then row :: rest else first :: row.put rest

/-- The rows that remain of all rows as they were written. -/
def Alias.settle (written : List Alias) : List Alias :=
  written.foldl (fun rows row => row.put rows) []

namespace AliasTable

/-- A table without rows. -/
def empty (base : String) : AliasTable := ⟨Path.normalize base, []⟩

/-- A table with one more row. -/
def insert (t : AliasTable) (pattern : String) (templates : List String) : AliasTable :=
  { t with rows := Alias.put ⟨pattern, templates⟩ t.rows }

/-- The templates of a pattern. -/
def get? (t : AliasTable) (pattern : String) : Option (List String) :=
  (t.rows.find? fun row => row.pattern = pattern).map Alias.templates

/-- Whether a pattern has a row. -/
def contains (t : AliasTable) (pattern : String) : Bool := t.rows.any fun row => row.pattern = pattern

/-- The number of rows. -/
def size (t : AliasTable) : Nat := t.rows.length

/-- Whether there are no rows. -/
def isEmpty (t : AliasTable) : Bool := t.size = 0

/-- A table of a config file in the directory `source`, handed down to one in `destination`. Only the
base directory is rewritten. -/
def rebased (t : AliasTable) (source destination : String) : AliasTable :=
  { t with base := Path.rebase t.base source destination }

end AliasTable

end ConfigChain

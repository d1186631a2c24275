import ConfigChain.Settings
import ConfigChain.Text.Utf8

/-!
The paths that a module specifier may mean. A pattern without a star matches itself only; one with a
single star matches whatever starts with the text before the star and ends with the text after it. The
candidates of all matching aliases come in the order of how closely the pattern fits, and the specifier
taken as a path comes last. Nothing is looked up: candidates need not exist.
-/

namespace ConfigChain

/-- How closely a pattern fits: as a whole, or up to its star, with so many bytes before it. -/
inductive Closeness where
  | upTo (size : Nat)
  | whole
deriving DecidableEq, Repr

/-- Whether one fit is at least as close as another; a whole fit is closest. -/
def Closeness.atLeast : Closeness → Closeness → Bool
  | .whole, _ => true
  | .upTo _, .whole => false
  | .upTo m, .upTo n => n ≤ m

/-- A match: how closely the pattern fits, and the text that its star stands for. -/
structure Match where
  closeness : Closeness
  capture : Option (List Char)
deriving DecidableEq, Repr

/-- The text before the first star and the text after it, if there is one. -/
def splitStar : List Char → Option (List Char × List Char)
  | [] => none
  | c :: cs =>
    if c = '*' then some ([], cs)
    else (splitStar cs).map fun (before, after) => (c :: before, after)

/-- How a pattern matches a specifier. A pattern with more than one star matches nothing. -/
def Match.of? (pattern specifier : List Char) : Option Match :=
  match splitStar pattern with
  | none => if pattern = specifier then some ⟨.whole, none⟩ else none
  | some (before, after) =>
    if '*' ∈ after then none
    else do
      let rest ← before.isPrefixOf? specifier
      let capture ← after.isSuffixOf? rest
      some ⟨.upTo (Utf8.size before), some capture⟩

/-- A template with its first star replaced. -/
def fill (template : List Char) (capture : Option (List Char)) : List Char :=
  match capture with
  | none => template
  | some text =>
    match splitStar template with
    | none => template
    | some (before, after) => before ++ text ++ after

/-- A row that matches a specifier. -/
structure Hit where
  found : Match
  templates : List String
deriving DecidableEq, Repr

/-- The rows that match a specifier, in the order of the table. -/
def AliasTable.hits (t : AliasTable) (specifier : String) : List Hit :=
  t.rows.filterMap fun row =>
    (Match.of? row.pattern.toList specifier.toList).map fun found => ⟨found, row.templates⟩

/-- Hits ordered by how closely they fit, the closest first; equals keep their order. -/
def Hit.sorted (hits : List Hit) : List Hit :=
  hits.mergeSort fun a b => a.found.closeness.atLeast b.found.closeness

/-- The paths a hit stands for, below a directory. -/
def Hit.paths (dir : String) (hit : Hit) : List String :=
  hit.templates.map fun template =>
    Path.join dir (String.ofList (fill template.toList hit.found.capture))

namespace Settings

/-- The directory that a specifier without an alias counts from. -/
def fallbackDir (s : Settings) (here specifier : String) : String :=
  if Path.isRelative specifier then here else s.baseUrl.getD here

/-- The specifier taken as a path. -/
def fallback (s : Settings) (here specifier : String) : String :=
  Path.join s.configDir (Path.join (s.fallbackDir here specifier) specifier)

/-- The paths that aliases give a specifier; a relative one has none. -/
def aliased (s : Settings) (specifier : String) : List String :=
  match s.paths with
  | none => []
  | some table =>
    if Path.isRelative specifier then []
    else (Hit.sorted (table.hits specifier)).flatMap (Hit.paths (Path.join s.configDir table.base))

/-- The paths that a specifier may mean in a file of the directory `here`, which counts from the
directory of the config. -/
def expand (s : Settings) (here specifier : String) : List String :=
  s.aliased specifier ++ [s.fallback here specifier]

end Settings

end ConfigChain

/-!
Slash-separated paths, handled as text. A path is read from left to right as moves from a starting
place: an empty piece or `.` stays, `..` climbs, and any other piece enters a directory or names a file.
`normalize` spells the place a path leads to; `join`, `directory` and `fileName` work on that spelling.
Nothing here looks at a file system.
-/

namespace ConfigChain.Path

/-- The pieces of a text between its slashes: always one more than there are slashes. -/
def pieces : List Char → List (List Char)
  | [] => [[]]
  | c :: cs =>
    if c = '/' then [] :: pieces cs
    else match pieces cs with
      | [] => [[c]]
      | piece :: rest => (c :: piece) :: rest

/-- Pieces written one after the other with a slash between neighbours. -/
def link : List (List Char) → List Char
  | [] => []
  | [piece] => piece
  | piece :: rest => piece ++ '/' :: link rest

/-- Where a path leads: first `climbs` directories up, then down through `names`, which lists the
innermost name first. A rooted place counts from the root directory, above which nothing lies. -/
structure Place where
  rooted : Bool
  climbs : Nat
  names : List (List Char)
deriving DecidableEq, Repr

/-- The place reached by following one more piece. -/
def Place.move (p : Place) (piece : List Char) : Place :=
  if piece = [] ∨ piece = ['.'] then p
  else if piece = ['.', '.'] then
    match p.names with
    | _ :: outer => { p with names := outer }
    | [] => if p.rooted then p else { p with climbs := p.climbs + 1 }
  else { p with names := piece :: p.names }

/-- A path that begins with a slash counts from the root directory. -/
def startsAtRoot (cs : List Char) : Bool := cs.head? == some '/'

/-- The place where the moves of a path begin. -/
def start (cs : List Char) : Place := ⟨startsAtRoot cs, 0, []⟩

/-- The place a path leads to. -/
def place (cs : List Char) : Place := (pieces cs).foldl Place.move (start cs)

/-- The pieces that lead to a place without detours. -/
def Place.route (p : Place) : List (List Char) :=
  List.replicate p.climbs ['.', '.'] ++ p.names.reverse

/-- The shortest text that leads to a place: `/` for the root, `.` for where one stands. -/
def Place.spell (p : Place) : List Char :=
  if p.rooted then '/' :: link p.route
  else if p.route = [] then ['.']
  else link p.route

/-- A backslash becomes a slash. -/
def slashed (c : Char) : Char := if c = '\\' then '/' else c

/-- The canonical spelling of a path. Backslashes belong to names while the path is followed and
become slashes afterwards, so only a path without backslashes is surely canonical after one round. -/
def normalize (p : String) : String :=
  String.ofList ((place p.toList).spell.map slashed)

/-- Whether a path counts from the root directory. -/
def isAbsolute (p : String) : Bool := startsAtRoot p.toList

/-- The path `rel`, as seen from the directory `base`. An absolute `rel` stands for itself. -/
def join (base rel : String) : String :=
  if isAbsolute rel ∨ base = "" ∨ base = "." then normalize rel
  else if rel = "" ∨ rel = "." then normalize base
  else normalize (base ++ "/" ++ rel)

/-- A path as seen from a directory, with nothing folded; an absolute path stands for itself. -/
def beneath (dir path : String) : String :=
  if isAbsolute path ∨ dir = "" then path
  else if dir.toList.getLast? = some '/' then dir ++ path
  else dir ++ "/" ++ path

/-- The text before the last slash and the text after it. -/
def splitLast : List Char → Option (List Char × List Char)
  | [] => none
  | c :: cs =>
    match splitLast cs with
    | some (before, after) => some (c :: before, after)
    | none => if c = '/' then some ([], cs) else none

/-- The directory that holds what a path names; `.` when the path has a single piece. -/
def directory (p : String) : String :=
  match splitLast (normalize p).toList with
  | none => "."
  | some ([], _) => "/"
  | some (before, _) => String.ofList before

/-- The last piece of a path. -/
def fileName (p : String) : String :=
  match splitLast (normalize p).toList with
  | none => normalize p
  | some (_, after) => String.ofList after

/-- Whether a text is written as a path from where it stands: `.`, `..`, `./…` or `../…`. -/
def isRelative (p : String) : Bool :=
  p = "." || p = ".." || ['.', '/'].isPrefixOf p.toList || ['.', '.', '/'].isPrefixOf p.toList

/-- What remains of `p` below the directory `dir`, compared piece by piece; nothing is below `.`. -/
def below? (p dir : String) : Option String :=
  if dir = "." then none
  else match dir.toList.isPrefixOf? p.toList with
    | some ('/' :: c :: rest) => some (String.ofList (c :: rest))
    | _ => none

end ConfigChain.Path

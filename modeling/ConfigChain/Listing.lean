import ConfigChain.Ignore.Level

/-!
The config files below a directory. A walk comes by everything there but entries with a name that is never
looked into and entries that are hidden by a rule, and what is in them. The paths of the config files that it
comes by count from the directory and come in the order of their bytes.
-/

namespace ConfigChain

/-- Something that a walk comes by: the names that lead there from where the walk begins, its own name, and
whether it is a file. Names are bytes, which may spell no text. -/
structure Visited where
  way : List Bytes
  name : Bytes
  isFile : Bool
deriving DecidableEq, Repr

namespace Visited

/-- Whether this is a config file. Its name has to be a text, but not those on the way. -/
def isConfig (v : Visited) : Bool := v.isFile && (Utf8.decode? v.name).any FileNames.isConfig

/-- The way as a path. Bytes that spell no character are replaced, and backslashes become slashes, as they do
in canonical paths. -/
def text (v : Visited) : String := String.ofList ((Path.link (v.way.map Utf8.lossy)).map Path.slashed)

end Visited

/-- Whether a text comes no later than another in the order of their bytes. -/
def bytesLE (a b : String) : Bool := decide (Utf8.encode a.toList ≤ Utf8.encode b.toList)

/-- The paths of the config files that a walk has come by. -/
def listing (visited : List Visited) : List String :=
  ((visited.filter Visited.isConfig).map Visited.text).mergeSort bytesLE

namespace Tree

/-- Whether an entry is passed over. The way to it counts from the root of the listing. -/
def passedOver (hidden : Location → Bool → Bool) (way : Location) (name : String) (t : Tree) : Bool :=
  FileNames.skipped.contains name || hidden (way ++ [name]) t.isDirectory

/-- A name as it is stored. -/
def nameBytes (name : String) : Bytes := Utf8.encode name.toList

mutual

/-- What a walk comes by in a tree of a name that is reached by `way`: the tree, and what is in it. -/
def walk (hidden : Location → Bool → Bool) (way : Location) (name : String) : Tree → List Visited
  | .file _ => [⟨way.map nameBytes, nameBytes name, true⟩]
  | .directory entries => ⟨way.map nameBytes, nameBytes name, false⟩ :: walkIn hidden way entries

/-- What a walk comes by among the entries of a directory that is reached by `way`. -/
def walkIn (hidden : Location → Bool → Bool) (way : Location) : List (String × Tree) → List Visited
  | [] => []
  | (name, t) :: rest =>
    (if passedOver hidden way name t then [] else walk hidden (way ++ [name]) name t) ++
      walkIn hidden way rest

end

/-- The paths of the config files in a directory with these entries. -/
def configFiles (hidden : Location → Bool → Bool) (entries : List (String × Tree)) : List String :=
  listing (walkIn hidden [] entries)

end Tree

/-- Why the files below a directory cannot be listed: it cannot be reached, or the rule files above it
have faults. -/
inductive ListingFault where
  | unreachable (root : String) (fault : FileFault)
  | rules (root : String) (faults : List Ignore.Fault)
deriving DecidableEq, Repr

namespace ListingFault

/-- What could not be done. -/
def message : ListingFault → String
  | .unreachable root _ => "Failed to walk " ++ root
  | .rules root _ => "Failed to walk " ++ root

/-- Why it could not be done. -/
def reason : ListingFault → String
  | .unreachable root fault => root ++ ": IO error for operation on " ++ root ++ ": " ++ fault.message
  | .rules _ faults => "\n".intercalate (faults.map Ignore.Fault.message)

end ListingFault

namespace FileSystem

/-- What a walk that begins at a path comes by, when only rules hide anything. -/
def walk (fs : FileSystem) (root : String) : Except ListingFault (List Visited) :=
  match fs.locate root with
  | .error fault => .error (.unreachable root fault)
  | .ok location =>
    match fs.top.at? location with
    | none => .error (.unreachable root .notFound)
    | some (.file content) => .ok (Tree.walk (fun _ _ => false) [] (location.getLastD "") (.file content))
    | some (.directory entries) =>
      match Ignore.faultsAbove fs.top location with
      | [] =>
        .ok (Tree.walk (fun way => Ignore.ignores fs.top (location ++ way)) [] (location.getLastD "")
          (.directory entries))
      | fault :: more => .error (.rules root (fault :: more))

/-- The config files below a path that no rule hides. If a config file stands at the path itself, the
way to it is empty. -/
def configFiles (fs : FileSystem) (root : String) : Except ListingFault (List String) :=
  (fs.walk root).map listing

end FileSystem

end ConfigChain

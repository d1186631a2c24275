import ConfigChain.FileNames
import ConfigChain.Json.Byte
import ConfigChain.Path.Ancestors
import ConfigChain.Text.Utf8

/-!
A file system held in memory: a tree of directories and files, some of which may not be readable, and the
directory from which relative paths count. A path is followed from directory to directory as it is written,
so `a/../b` needs a directory `a`. The faults are those of an operating system, with its wording.
-/

namespace ConfigChain

/-- Why something could not be reached. -/
inductive FileFault where
  | notFound
  | notDirectory
  | isDirectory
  | nameTooLong
  | nulByte
  /-- Anything else that keeps a file from being read, with the number it has. -/
  | refused (number : Nat) (words : String)
deriving DecidableEq, Repr

/-- The words of the operating system. -/
def FileFault.message : FileFault → String
  | .notFound => "No such file or directory (os error 2)"
  | .notDirectory => "Not a directory (os error 20)"
  | .isDirectory => "Is a directory (os error 21)"
  | .nameTooLong => "File name too long (os error 36)"
  | .nulByte => "file name contained an unexpected NUL byte"
  | .refused number words => words ++ " (os error " ++ toString number ++ ")"

/-- A file with its content, or a directory with its entries by name. -/
inductive Tree where
  | file (content : Bytes)
  | directory (entries : List (String × Tree))

/-- The names that lead to something from the root directory. -/
abbrev Location := List String

namespace Tree

/-- What stands at a location. -/
def at? : Location → Tree → Option Tree
  | [], t => some t
  | _ :: _, .file _ => none
  | name :: rest, .directory entries => (entries.lookup name).bind (at? rest)

/-- Entries with one of them set. -/
def setEntry (name : String) (t : Tree) : List (String × Tree) → List (String × Tree)
  | [] => [(name, t)]
  | (n, s) :: rest => if n = name then (name, t) :: rest else (n, s) :: setEntry name t rest

/-- A tree with something put at a location; missing directories on the way are made. -/
def graft (new : Tree) : Location → Tree → Tree
  | [], _ => new
  | _ :: _, .file content => .file content
  | name :: rest, .directory entries =>
    .directory (setEntry name (graft new rest ((entries.lookup name).getD (.directory []))) entries)

/-- A tree without what stands at a location. -/
def prune : Location → Tree → Tree
  | [], t => t
  | _ :: _, .file content => .file content
  | [name], .directory entries => .directory (entries.filter fun e => e.1 ≠ name)
  | name :: rest, .directory entries =>
    .directory (entries.map fun e => if e.1 = name then (e.1, prune rest e.2) else e)

/-- Whether this is a directory. -/
def isDirectory : Tree → Bool
  | .file _ => false
  | .directory _ => true

mutual

/-- How many files there are. -/
def fileCount : Tree → Nat
  | .file _ => 1
  | .directory entries => fileCountIn entries

/-- How many files there are in the entries of a directory. -/
def fileCountIn : List (String × Tree) → Nat
  | [] => 0
  | (_, t) :: rest => fileCount t + fileCountIn rest

end

end Tree

/-- Everything, where relative paths count from, and which files cannot be read for which fault. -/
structure FileSystem where
  top : Tree
  here : Location
  unreadable : List (Location × FileFault) := []

namespace FileSystem

/-- The longest name, in bytes. -/
def greatestName : Nat := 255

/-- The longest path, in bytes. -/
def greatestPath : Nat := 4095

/-- One step along a path. Only a directory can be stepped from, even when the step stays. -/
def step (fs : FileSystem) (location : Location) (piece : List Char) : Except FileFault Location :=
  match fs.top.at? location with
  | none => .error .notFound
  | some (.file _) => .error .notDirectory
  | some (.directory entries) =>
    if piece = [] ∨ piece = ['.'] then .ok location
    else if piece = ['.', '.'] then .ok location.dropLast
    else if greatestName < Utf8.size piece then .error .nameTooLong
    else if (entries.lookup (String.ofList piece)).isSome then
      .ok (location ++ [String.ofList piece])
    else .error .notFound

/-- The location that a path leads to. -/
def locate (fs : FileSystem) (path : String) : Except FileFault Location :=
  if '\x00' ∈ path.toList then .error .nulByte
  else if path = "" then .error .notFound
  else if greatestPath < Utf8.size path.toList then .error .nameTooLong
  else (Path.pieces path.toList).foldlM fs.step (if Path.isAbsolute path then [] else fs.here)

/-- What a path leads to. -/
def find (fs : FileSystem) (path : String) : Except FileFault Tree :=
  match fs.locate path with
  | .error fault => .error fault
  | .ok location =>
    match fs.top.at? location with
    | none => .error .notFound
    | some t => .ok t

/-- Whether a path leads anywhere. -/
def has (fs : FileSystem) (path : String) : Bool := (fs.find path).toOption.isSome

/-- The content of a file. -/
def read (fs : FileSystem) (path : String) : Except FileFault Bytes :=
  match fs.locate path with
  | .error fault => .error fault
  | .ok location =>
    match fs.top.at? location with
    | none => .error .notFound
    | some (.directory _) => .error .isDirectory
    | some (.file content) =>
      match fs.unreadable.lookup location with
      | some fault => .error fault
      | none => .ok content

/-- The path of a location, without detours. -/
def spell (location : Location) : String :=
  String.ofList ('/' :: Path.link (location.map String.toList))

/-- The path without detours that leads to the same place. -/
def canonical (fs : FileSystem) (path : String) : Except FileFault String :=
  match fs.locate path with
  | .error fault => .error fault
  | .ok location => .ok (spell location)

/-! The repository that a directory belongs to: the nearest directory above it, itself included, that holds a
repository mark. -/

/-- The nearest repository that a path is written below. -/
def repository? (fs : FileSystem) (start : String) : Option String :=
  (Path.ancestors start).find? fun dir => fs.has (Path.beneath dir FileNames.repository)

/-- What is said when a path lies in no repository. -/
def noRepository (start : String) : String :=
  "Could not find .git directory above " ++ start

/-! Changes. -/

/-- Makes the next directory on a way, if it is not there. -/
def makeStep (state : Tree × Location) (piece : List Char) : Tree × Location :=
  let (top, location) := state
  if piece = [] ∨ piece = ['.'] then state
  else if piece = ['.', '.'] then (top, location.dropLast)
  else
    let next := location ++ [String.ofList piece]
    ((if (top.at? next).isSome then top else Tree.graft (.directory []) next top), next)

/-- Makes a directory and those it lies in. The result tells where it is. -/
def makeDirectories (fs : FileSystem) (path : String) : FileSystem × Location :=
  let (top, location) :=
    (Path.pieces path.toList).foldl makeStep (fs.top, if Path.isAbsolute path then [] else fs.here)
  ({ fs with top }, location)

/-- Writes a file, making the directories it lies in. -/
def write (fs : FileSystem) (path : String) (content : Bytes) : FileSystem :=
  let pieces := Path.pieces path.toList
  let dir := String.ofList (Path.link pieces.dropLast ++ ['/'])
  let (fs, location) :=
    if pieces.length ≤ 1 then (fs, fs.here) else fs.makeDirectories dir
  let name := String.ofList (pieces.getLastD [])
  { fs with top := Tree.graft (.file content) (location ++ [name]) fs.top }

/-- Takes away what a path leads to. -/
def remove (fs : FileSystem) (path : String) : FileSystem :=
  match fs.locate path with
  | .error _ => fs
  | .ok location => { fs with top := Tree.prune location fs.top }

end FileSystem

end ConfigChain

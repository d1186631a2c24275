import ConfigChain.Json.Value
import ConfigChain.Loading

/-!
A workspace: a file system and the directory in it that config files are addressed from.
-/

namespace ConfigChain

/-- A file system with the path of a directory in it. -/
structure Workspace where
  files : FileSystem
  root : String

namespace Workspace

/-- The content of a file of the workspace. -/
def read (w : Workspace) (path : String) : Except FileFault Bytes :=
  w.files.read (Path.beneath w.root path)

/-- The config file that the description of a package names. The description is strict JSON. -/
def declaredConfig? (w : Workspace) (package : String) : Option String := do
  let bytes ← (w.files.read (Path.beneath (Path.beneath w.root package) FileNames.manifest)).toOption
  let _ ← Utf8.decode? bytes
  let description ← (Json.Value.parse bytes).toOption
  match description.member? FileNames.manifestMember with
  | some (.text name) => some name
  | _ => none

/-- The packages installed in the workspace. -/
def packages (w : Workspace) : Resolver.Packages where
  present path := w.files.has (Path.beneath w.root path)
  declared := w.declaredConfig?

/-- The two ways to take a reference. -/
inductive Strategy where
  | identity
  | package
deriving DecidableEq, Repr

/-- The resolver for a way to take references. -/
def resolver (w : Workspace) : Strategy → Resolver
  | .identity => Resolver.sibling
  | .package => Resolver.package w.packages

/-- Loading from the workspace. -/
def source (w : Workspace) (resolver : Resolver) : Source where
  root := w.root
  read := w.read
  resolver := resolver

/-- How many canonical paths lead to a file at most: absolute, or up by fewer steps than fit a path. -/
def pathsPerFile : Nat := 2 + FileSystem.greatestPath / 3

/-- More canonical paths than can be read. No two files open one inside the other have the same, as
long as candidates are canonical, so this is depth enough. -/
def depth (w : Workspace) : Nat := w.files.top.fileCount * pathsPerFile + 1

/-- Loads the config file at a path. -/
def load (w : Workspace) (resolver : Resolver) (m : Memory) (path : String) : Memory × Outcome :=
  Memory.load (w.source resolver) w.depth m path

end Workspace

end ConfigChain

import ConfigChain.FileNames
import ConfigChain.Path.Length

/-!
Which files the text of an `extends` option may refer to, in the order in which to try them. `sibling`
takes the text as a path beside the file that is being extended. `package` takes it as the name of an
installed package, to be looked for in every directory from the file upwards.
-/

namespace ConfigChain

/-- From the directory of a config file and the text of its reference to the files to try. -/
abbrev Resolver := String → String → List String

namespace Resolver

/-- The ending that a reference need not write. -/
def ending : String := ".json"

/-- Whether a reference writes the ending. -/
def hasEnding (reference : String) : Bool := ending.toList.isSuffixOf reference.toList

/-- The reference as a path, as it is and with the ending added. -/
def sibling : Resolver := fun dir reference =>
  Path.join dir reference ::
    if hasEnding reference then [] else [Path.join dir (reference ++ ending)]

/-- Where a walk upwards ends: at the workspace, outside of it, or at an absolute path. -/
def isTop (dir : String) : Bool :=
  dir = "." || ['.', '.'].isPrefixOf dir.toList || Path.isAbsolute dir

theorem isTop_root : isTop "/" = true := by decide

theorem isTop_here : isTop "." = true := by decide

/-- A directory and those above it. -/
def upwards (dir : String) : List String :=
  dir :: if isTop dir then [] else upwards (Path.directory dir)
termination_by if isTop dir then 0 else dir.length + 1
decreasing_by
  rcases Path.length_directory_lt dir with h | h | h
  · simp_all [isTop_here]
  · simp_all [isTop_root]
  · split <;> simp_all

/-- What is known of installed packages: whether something stands at a path, and the config file that
the description of a package names. Both paths count from the workspace. -/
structure Packages where
  present : String → Bool
  declared : String → Option String

/-- The directory where a package of that name would be installed, seen from `dir`. -/
def installed (dir reference : String) : String :=
  Path.join (Path.join dir FileNames.packages) reference

/-- The files to try in a package: the one referred to; else the one its description names, the usual
one, and a file beside the package. -/
def Packages.candidates (p : Packages) (package reference : String) : List String :=
  if hasEnding reference then [package]
  else ((p.declared package).map (Path.join package)).toList ++
    [Path.join package FileNames.config, package ++ ending]

/-- Whether a package is installed, as a directory or as a file. -/
def Packages.found (p : Packages) (package : String) : Bool :=
  p.present package || p.present (package ++ ending)

/-- The reference as the name of a package; one that is written as a path is taken as a path. -/
def package (p : Packages) : Resolver := fun dir reference =>
  if reference = "" then []
  else if Path.isRelative reference || Path.isAbsolute reference then sibling dir reference
  else (upwards (Path.normalize dir)).flatMap fun level =>
    if p.found (installed level reference) then p.candidates (installed level reference) reference
    else []

end Resolver

end ConfigChain

/-!
The file names that mean something to this library.
-/

namespace ConfigChain.FileNames

/-- The usual name of a config file, also inside a package. -/
def config : String := "tsconfig.json"

/-- The text before the variable part of a variant such as `tsconfig.build.json`. -/
def variantStart : List Char := "tsconfig.".toList

/-- The text after the variable part of a variant. -/
def variantEnd : List Char := ".json".toList

/-- The description of a package. -/
def manifest : String := "package.json"

/-- The member of a package description that names its config file. -/
def manifestMember : String := "tsconfig"

/-- The directory that packages are installed in. -/
def packages : String := "node_modules"

/-- The entry that marks a repository. -/
def repository : String := ".git"

/-- The entries of a directory that is a repository: either is enough. -/
def repositoryMarks : List String := [repository, ".jj"]

/-- The file with rules for ignoring that hold anywhere. -/
def ignoreOwn : String := ".ignore"

/-- The file with rules for ignoring that a repository shares. -/
def ignoreShared : String := ".gitignore"

/-- The file with rules for ignoring that a repository keeps to itself, below its directory. -/
def ignoreExcluded : List String := [repository, "info", "exclude"]

/-- Entries of these names are never looked into. -/
def skipped : List String := [packages, repository]

/-- Whether a file of this name is a config file: the usual name, or a variant of it whose variable
part is not empty. -/
def isConfig (name : String) : Bool :=
  name = config ||
    match variantStart.isPrefixOf? name.toList with
    | some rest =>
      match variantEnd.isSuffixOf? rest with
      | some middle => !middle.isEmpty
      | none => false
    | none => false

end ConfigChain.FileNames

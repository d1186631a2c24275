import ConfigChain.Declaration

/-!
What a config file means: its own declarations over the settings of the file it extends. An option of
its own wins over the inherited one. Aliases and the directory they count from travel together: a file
that declares either of them inherits neither, and a file that declares neither inherits both, rewritten
to count from its own directory.
-/

namespace ConfigChain

/-- The effective settings of a config file. `configDir` counts from the workspace, every other
directory from `configDir`. -/
structure Settings where
  configDir : String
  configName : String
  rootDir : String
  outDir : String
  declarationDir : Option String
  importHelpers : Bool
  allowJs : Bool
  resolveJsonModule : Bool
  declaration : Bool
  reference : String
  baseUrl : Option String
  paths : Option AliasTable
deriving DecidableEq, Repr

namespace Settings

/-- Settings of a config in a directory that declares nothing and was not read from a file. -/
def plain (configDir : String) : Settings where
  configDir := Path.normalize configDir
  configName := ""
  rootDir := "."
  outDir := "."
  declarationDir := none
  importHelpers := false
  allowJs := false
  resolveJsonModule := false
  declaration := false
  reference := ""
  baseUrl := none
  paths := none

/-- Settings with another alias table. -/
def setPaths (s : Settings) (table : AliasTable) : Settings := { s with paths := some table }

/-- Settings with another directory for names without an alias. -/
def setBaseUrl (s : Settings) (dir : String) : Settings :=
  { s with baseUrl := some (Path.normalize dir) }

/-- The path of the file that the settings were read from. -/
def configPath (s : Settings) : String := Path.join s.configDir s.configName

/-- The aliases and the base directory that options declare. -/
def declaredPaths (o : Options) : Option AliasTable × Option String :=
  (some { AliasTable.empty (o.baseUrl.getD ".") with rows := o.paths.getD [] },
    o.baseUrl.map Path.normalize)

/-- The aliases and the base directory of `base`, as seen from another directory. -/
def inheritedPaths (base : Option Settings) (dir : String) : Option AliasTable × Option String :=
  match base with
  | none => (none, none)
  | some b =>
    (b.paths.map fun table => table.rebased b.configDir dir,
      b.baseUrl.map fun url => Path.rebase url b.configDir dir)

/-- A directory option: the declared one, else the inherited one. -/
def directory? (declared : Option String) (inherited : Option String) : Option String :=
  (declared.map Path.normalize).or inherited

/-- The settings of the file at `path` that declares `d` and extends a file with the settings `base`. -/
def inherit (path : String) (d : Declaration) (base : Option Settings) : Settings :=
  let o := d.declared
  let dir := Path.directory path
  let paths := if o.declaresPaths then declaredPaths o else inheritedPaths base dir
  { configDir := dir
    configName := Path.fileName path
    rootDir := (directory? o.rootDir (base.map rootDir)).getD "."
    outDir := (directory? o.outDir (base.map outDir)).getD "."
    declarationDir := directory? o.declarationDir (base.bind declarationDir)
    importHelpers := (o.importHelpers.or (base.map importHelpers)).getD false
    allowJs := (o.allowJs.or (base.map allowJs)).getD false
    resolveJsonModule := (o.resolveJsonModule.or (base.map resolveJsonModule)).getD false
    declaration := (o.declaration.or (base.map declaration)).getD false
    reference := d.referenceText
    baseUrl := paths.2
    paths := paths.1 }

/-! Where the compiled form of a source lands: the part of its path below the root directory, moved to the
output directory. A source that is not below the root directory keeps its whole path. -/

/-- A source moved below a directory. -/
def moved (s : Settings) (source target : String) : String :=
  let path := Path.normalize source
  let rest := (Path.below? path s.rootDir).getD path
  if target = "." then rest else Path.join target rest

/-- Where the code compiled from a source lands. -/
def codePath (s : Settings) (source : String) : String := s.moved source s.outDir

/-- Where the declarations made from a source land: beside the code unless a directory is set. -/
def declarationPath (s : Settings) (source : String) : String :=
  s.moved source (s.declarationDir.getD s.outDir)

end Settings

end ConfigChain

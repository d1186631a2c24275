import ConfigChain.AliasTable

/-!
What a single config file says. Everything is optional: an option that is absent, or written as `null`,
is not declared.
-/

namespace ConfigChain

/-- The compiler options that have a meaning here. -/
structure Options where
  rootDir : Option String := none
  outDir : Option String := none
  declarationDir : Option String := none
  baseUrl : Option String := none
  paths : Option (List Alias) := none
  importHelpers : Option Bool := none
  allowJs : Option Bool := none
  resolveJsonModule : Option Bool := none
  declaration : Option Bool := none
deriving DecidableEq, Repr

/-- What a config file declares: the text that refers to the file it extends, and its options. -/
structure Declaration where
  reference : Option String := none
  options : Option Options := none
deriving DecidableEq, Repr

/-- The text that refers to the extended file; empty when there is none. -/
def Declaration.referenceText (d : Declaration) : String := d.reference.getD ""

/-- The declared options. -/
def Declaration.declared (d : Declaration) : Options := d.options.getD {}

/-- Whether a base directory or aliases are declared. The two are never inherited apart. -/
def Options.declaresPaths (o : Options) : Bool := o.baseUrl.isSome || o.paths.isSome

end ConfigChain

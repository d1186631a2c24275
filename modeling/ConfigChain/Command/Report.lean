import ConfigChain.Command.Style
import ConfigChain.Survey

/-!
What the program writes: the settings of a config file, the paths that a specifier may mean, where
sources are compiled to, and the outcome of a survey.
-/

namespace ConfigChain.Command.Report

/-- A line. -/
def line (parts : List String) : String := String.join parts ++ "\n"

/-- The mark before a heading. -/
def bullet (colored : Bool) : String := Style.brightBlue.paint colored "●"

/-- An option that is on or off. -/
def flag (colored value : Bool) : String :=
  if value then Style.green.paint colored "true" else Style.dimmed.paint colored "false"

/-- A row of an alias table. -/
def row (colored : Bool) (r : Alias) : String :=
  line ["    ", Style.yellow.paint colored r.pattern, " → ", ", ".intercalate r.templates]

/-- The alias table. -/
def paths (colored : Bool) : Option AliasTable → String
  | none => line ["  paths:          ", Style.dimmed.paint colored "none"]
  | some table =>
    line ["  paths (relative to ", Style.cyan.paint colored table.base, "):"] ++
      String.join (table.rows.map (row colored))

/-- The settings of a config file. -/
def settings (colored : Bool) (s : Settings) : String :=
  line [bullet colored, " ", Style.bold.paint colored s.configPath] ++
  (if s.reference = "" then ""
    else line ["  extends:        ", Style.cyan.paint colored s.reference]) ++
  line ["  rootDir:        ", s.rootDir] ++
  line ["  outDir:         ", s.outDir] ++
  (match s.declarationDir with
    | none => ""
    | some dir => line ["  declarationDir: ", dir]) ++
  line ["  importHelpers:  ", flag colored s.importHelpers] ++
  line ["  allowJs:        ", flag colored s.allowJs] ++
  line ["  resolveJson:    ", flag colored s.resolveJsonModule] ++
  line ["  declaration:    ", flag colored s.declaration] ++
  (match s.baseUrl with
    | none => ""
    | some dir => line ["  baseUrl:        ", dir]) ++
  paths colored s.paths

/-- The branches of a tree: the last one is bent. -/
def branches (colored : Bool) : List String → String
  | [] => ""
  | [last] => line ["  ", Style.dimmed.paint colored "└──", " ", last]
  | candidate :: rest =>
    line ["  ", Style.dimmed.paint colored "├──", " ", candidate] ++ branches colored rest

/-- The paths that a specifier may mean. -/
def candidates (colored : Bool) (specifier : String) (paths : List String) : String :=
  line [bullet colored, " ", Style.bold.paint colored specifier] ++ branches colored paths

/-- Where sources are compiled to. -/
def outputs (colored : Bool) (moved : List (String × String)) : String :=
  String.join (moved.map fun (source, output) =>
    line [source, " ", Style.dimmed.paint colored "→", " ", Style.cyan.paint colored output])

/-- A file of a survey that has settings. -/
def success (colored : Bool) (s : Settings) : String :=
  let aliases := match s.paths with
    | none => 0
    | some table => table.size
  line [Style.boldGreen.paint colored "✓", " ", s.configPath,
    if s.reference = "" then ""
      else " " ++ Style.dimmed.paint colored "extends" ++ " " ++ Style.cyan.paint colored s.reference,
    " (", toString aliases, " aliases)"]

/-- A file of a survey that has none. -/
def failure (colored : Bool) (path : String) (fault : LoadFault) : String :=
  line [Style.boldRed.paint colored "✗", " ", Style.bold.paint colored path, ": ", fault.message]

/-- The outcome of a survey. -/
def survey (colored : Bool) (s : Survey) : String :=
  String.join (s.loaded.map (success colored)) ++
    String.join (s.failed.map fun (path, fault) => failure colored path fault)

/-- A number that stands out. -/
def number (colored : Bool) (n : Nat) : String := Style.cyan.paint colored (toString n)

/-- What is said after a survey. -/
def summary (colored : Bool) (s : Survey) (milliseconds threads : Nat) : String :=
  line ["\n", bullet colored, " Finished in ", number colored milliseconds, "ms on ",
    number colored s.size, " files (using ", number colored threads, " threads)."]

end ConfigChain.Command.Report

import ConfigChain.Workspace

/-!
The words of a command line: what to do, with which files, and in which workspace. The words are first
told apart as options and operands; the first operand names the action. Options that hold for every
action may stand before or after it, and those after it win. Anything that is not understood in full is
not understood at all.
-/

namespace ConfigChain.Command

/-- The options. All but the last take a value. -/
inductive Name where
  | root
  | resolver
  | dir
  | declaration
deriving DecidableEq, Repr

/-- The option that a word names. -/
def Name.ofWord? (word : String) : Option Name :=
  if word = "--root" then some .root
  else if word = "--resolver" then some .resolver
  else if word = "--from" then some .dir
  else if word = "--declaration" then some .declaration
  else none

/-- Whether an option takes a value. -/
def Name.takesValue : Name → Bool
  | .declaration => false
  | _ => true

/-- What a word of the command line is. -/
inductive Item where
  | option (name : Name) (value : String)
  | operand (word : String)
  | divider
deriving DecidableEq, Repr

/-- Whether a word looks like an option. A dash on its own does not. -/
def isDashed (word : String) : Bool := ['-'].isPrefixOf word.toList && word ≠ "-"

/-- The text before the first equals sign and the text after it, if there is one. -/
def splitValue : List Char → List Char × Option (List Char)
  | [] => ([], none)
  | c :: cs =>
    if c = '=' then ([], some cs)
    else
      let (name, value) := splitValue cs
      (c :: name, value)

/-- An option with the value that its own word gives it. -/
def Item.ofDashed? (word : String) : Option (Name × Option String) :=
  let (name, value) := splitValue word.toList
  (Name.ofWord? (String.ofList name)).map fun n => (n, value.map String.ofList)

/-- Tells words apart. The value of an option is part of its word or is the next word, which then may
not look like an option. After the divider every word is an operand. -/
def Item.ofWords? : List String → Option (List Item)
  | [] => some []
  | word :: rest =>
    if word = "--" then some (.divider :: rest.map .operand)
    else if isDashed word then
      match Item.ofDashed? word with
      | none => none
      | some (name, some value) =>
        if name.takesValue then (Item.ofWords? rest).map (.option name value :: ·) else none
      | some (name, none) =>
        if name.takesValue then
          match rest with
          | [] => none
          | value :: more =>
            if isDashed value then none else (Item.ofWords? more).map (.option name value :: ·)
        else (Item.ofWords? rest).map (.option name "" :: ·)
    else (Item.ofWords? rest).map (.operand word :: ·)

namespace Item

/-- Whether this is an option. -/
def isOption : Item → Bool
  | .option .. => true
  | _ => false

/-- The value of an option of a given name. -/
def valueOf (name : Name) : Item → Option String
  | .option n value => if n = name then some value else none
  | _ => none

/-- The word of an operand. -/
def word? : Item → Option String
  | .operand word => some word
  | _ => none

/-- The value of an option that may be given once. Twice is not understood. -/
def once? (name : Name) (items : List Item) : Option (Option String) :=
  match items.filterMap (valueOf name) with
  | [] => some none
  | [value] => some (some value)
  | _ => none

/-- Whether no option has any other name. -/
def onlyOptions (names : List Name) (items : List Item) : Bool :=
  items.all fun
    | .option name _ => names.contains name
    | _ => true

end Item

/-- What to do. -/
inductive Action where
  | describe (config : String)
  | expand (config specifier dir : String)
  | outputs (config : String) (files : List String) (declarations : Bool)
  | scan
deriving DecidableEq, Repr

/-- A path on the command line is not empty. -/
def path? (word : String) : Option String := if word = "" then none else some word

/-- The action that a word names, with what follows it. -/
def Action.ofItems? (verb : String) (items : List Item) : Option Action :=
  let shared := [Name.root, Name.resolver]
  let operands := items.filterMap Item.word?
  if verb = "show" ∧ Item.onlyOptions shared items then
    match operands with
    | [config] => (path? config).map .describe
    | _ => none
  else if verb = "expand" ∧ Item.onlyOptions (.dir :: shared) items then
    match operands with
    | [config, specifier] => do
      let dir ← Item.once? .dir items
      let config ← path? config
      some (.expand config specifier (dir.getD "."))
    | _ => none
  else if verb = "out-path" ∧ Item.onlyOptions (.declaration :: shared) items then
    match operands with
    | config :: file :: files => do
      let declarations ← Item.once? .declaration items
      let config ← path? config
      some (.outputs config (file :: files) declarations.isSome)
    | _ => none
  else if verb = "scan" ∧ Item.onlyOptions shared items ∧ operands = [] then some .scan
  else none

/-- What holds for every action: where the workspace is, and how references are taken. -/
structure Choices where
  root : Option String
  strategy : Option Workspace.Strategy
deriving DecidableEq, Repr

/-- The way to take references that a word names. -/
def strategy? (word : String) : Option Workspace.Strategy :=
  if word = "identity" then some .identity
  else if word = "package" then some .package
  else none

/-- The choices among some items. -/
def Choices.ofItems? (items : List Item) : Option Choices := do
  let root ← match ← Item.once? .root items with
    | none => some none
    | some word => (path? word).map some
  let strategy ← match ← Item.once? .resolver items with
    | none => some none
    | some word => (strategy? word).map some
  some { root, strategy }

/-- A command line that is understood. -/
structure Invocation where
  root : Option String
  strategy : Workspace.Strategy
  action : Action
deriving DecidableEq, Repr

/-- The meaning of a command line. References are taken as packages unless it says otherwise. -/
def Invocation.ofWords? (words : List String) : Option Invocation := do
  let items ← Item.ofWords? words
  let outer := items.takeWhile Item.isOption
  match items.dropWhile Item.isOption with
  | .operand verb :: given =>
    if !Item.onlyOptions [.root, .resolver] outer then none
    else
      let before ← Choices.ofItems? outer
      let after ← Choices.ofItems? given
      let action ← Action.ofItems? verb given
      some {
        root := after.root.or before.root
        strategy := (after.strategy.or before.strategy).getD .package
        action }
  | _ => none

/-- What is said about a command line that is not understood. -/
def usage : String :=
  "Usage: [--root DIR] [--resolver identity|package] ACTION\n" ++
  "  show CONFIG\n" ++
  "  expand CONFIG SPECIFIER [--from DIR]\n" ++
  "  out-path CONFIG FILE... [--declaration]\n" ++
  "  scan\n"

end ConfigChain.Command

import ConfigChain.FileNames
import ConfigChain.FileSystem
import ConfigChain.Ignore.Rule

/-!
Which entries of a file system are ignored. Every directory may hold rules of three kinds: its own, those
of a repository, and those that a repository keeps to itself. Rules of the last two kinds hold only
inside of the repository that they are written in. Of one kind the rule in the nearest directory
decides; the directory's own rules come before the others, and those that a repository keeps to itself
come last.
-/

namespace ConfigChain.Ignore

/-- What a directory says about ignoring. -/
structure Level where
  own : RuleFile
  shared : RuleFile
  excluded : RuleFile
  isRepository : Bool

/-- The rule file at a location, without rules if there is none. -/
def ruleFile (t : Tree) (location : Location) : RuleFile :=
  match t.at? location with
  | some (.file content) => .parse content
  | _ => .empty

namespace Level

/-- What a directory with these entries says. -/
def ofEntries (entries : List (String × Tree)) : Level where
  own := ruleFile (.directory entries) [FileNames.ignoreOwn]
  shared := ruleFile (.directory entries) [FileNames.ignoreShared]
  excluded := ruleFile (.directory entries) FileNames.ignoreExcluded
  isRepository := FileNames.repositoryMarks.any fun mark => (entries.lookup mark).isSome

/-- What the directories above a location say, the nearest first, each with the way from there. -/
def above : Tree → Location → List (Level × Location)
  | .directory entries, name :: rest =>
    (match entries.lookup name with
      | some t => above t rest
      | none => []) ++ [(ofEntries entries, name :: rest)]
  | _, _ => []

/-- The levels up to the nearest repository; none if there is no repository. -/
def toRepository : List (Level × Location) → List (Level × Location)
  | [] => []
  | l :: outer =>
    if l.1.isRepository then [l]
    else match toRepository outer with
      | [] => []
      | inner => l :: inner

/-- The bytes of a way. -/
def path (way : Location) : Bytes := Utf8.encode (Path.link (way.map String.toList))

/-- What the nearest level with something to say says. -/
def verdict? (kind : Level → RuleFile) (levels : List (Level × Location)) (isDirectory : Bool) :
    Option Verdict :=
  levels.findSome? fun l => Rule.verdict? (kind l.1).rules (path l.2) isDirectory

/-- What levels say about an entry below them. -/
def decision? (levels : List (Level × Location)) (isDirectory : Bool) : Option Verdict :=
  (verdict? own levels isDirectory).or
    ((verdict? shared (toRepository levels) isDirectory).or
      (verdict? excluded (toRepository levels) isDirectory))

end Level

/-- Whether the entry at a location is ignored. -/
def ignores (top : Tree) (location : Location) (isDirectory : Bool) : Bool :=
  Level.decision? (Level.above top location) isDirectory = some .ignored

/-! What is wrong with rule files. -/

/-- A fault in a line of a rule file. -/
structure Fault where
  file : Location
  line : Nat
  cause : LineFault
deriving DecidableEq, Repr

/-- The words for a fault. -/
def Fault.message (f : Fault) : String :=
  FileSystem.spell f.file ++ ": line " ++ toString f.line ++ ": " ++ f.cause.message

/-- The faults to be told about in the rule files of a directory. -/
def Level.faults (l : Level) (dir : Location) : List Fault :=
  let told (name : Location) (f : RuleFile) : List Fault :=
    f.reported.map fun fault => ⟨dir ++ name, fault.1, fault.2⟩
  told [FileNames.ignoreOwn] l.own ++ told [FileNames.ignoreShared] l.shared ++
    told FileNames.ignoreExcluded l.excluded

/-- The faults in the directories above a location, the outermost first. -/
def faultsAbove (top : Tree) (location : Location) : List Fault :=
  (Level.above top location).reverse.flatMap fun l =>
    l.1.faults (location.take (location.length - l.2.length))

end ConfigChain.Ignore

import ConfigChain.Command.Arguments
import ConfigChain.Command.Report
import ConfigChain.Expansion
import ConfigChain.Path.Relative

/-!
Carrying out a command line. Everything that the program learns from its surroundings is in one value,
and what it answers is an exit code and two texts.
-/

namespace ConfigChain.Command

/-- What a program runs in. The time counts from its start. A walk that begins at a path may pass over more than
the rules in the file system tell it to, and come by names that no text can tell. -/
structure Surroundings where
  files : FileSystem
  walk : String → Except ListingFault (List Visited) := files.walk
  colored : Bool
  threads : Nat
  milliseconds : Nat

/-- What a run comes to. -/
structure Answer where
  exitCode : Nat
  output : String
  complaint : String
deriving DecidableEq, Repr

/-- Why an action cannot be carried out. -/
inductive Failure where
  | noRepository (start : String)
  | outside (path root : String)
  | load (key : String) (fault : LoadFault)
  | endless (key : String)
  | survey (fault : SurveyFault)
deriving DecidableEq, Repr

namespace Failure

/-- What could not be done. -/
def message : Failure → String
  | .noRepository start => FileSystem.noRepository start
  | .outside path root => path ++ " is outside of workspace " ++ root
  | .load key _ => "Failed to resolve " ++ key
  | .endless key => "Failed to resolve " ++ key
  | .survey (.listing fault) => fault.message
  | .survey (.noFiles root) => "No tsconfig files found under " ++ root

/-- Why it could not be done, each reason with the one behind it after it. -/
def causes : Failure → List String
  | .noRepository _ => []
  | .outside _ _ => []
  | .load _ fault => [fault.message, fault.reason]
  | .endless _ => []
  | .survey (.listing fault) => [fault.reason]
  | .survey (.noFiles _) => []

/-- The lines of a text after the first one, moved below it. -/
def hanging (indent : List Char) : List Char → List Char
  | [] => []
  | c :: cs => if c = '\n' then c :: indent ++ hanging indent cs else c :: hanging indent cs

/-- A cause, moved to the right; one of several has a number. -/
def cause (number : Option Nat) (text : String) : String :=
  match number with
  | none => "    " ++ String.ofList (hanging (List.replicate 4 ' ') text.toList)
  | some n =>
    let digits := toString n
    String.ofList (List.replicate (5 - digits.length) ' ') ++ digits ++ ": " ++
      String.ofList (hanging (List.replicate 7 ' ') text.toList)

/-- The causes, a line each. A single one has no number. -/
def causeLines : List String → List String
  | [] => []
  | [text] => ["Caused by:", cause none text]
  | texts => "Caused by:" :: texts.mapIdx fun i text => cause (some i) text

/-- What the program complains. -/
def complaint (f : Failure) : String :=
  let reasons := match f.causes with
    | [] => ""
    | texts => "\n" ++ String.join ((causeLines texts).map (· ++ "\n"))
  "Error: " ++ f.message ++ "\n" ++ reasons

end Failure

/-- The root of the workspace: the directory that was named, or else the repository. A directory that
cannot be reached keeps its name. -/
def rootOf (files : FileSystem) (named : Option String) : Except Failure String :=
  match named with
  | some path => .ok ((files.canonical path).toOption.getD path)
  | none =>
    let here := FileSystem.spell files.here
    match files.repository? here with
    | some root => .ok root
    | none => .error (.noRepository here)

/-- The key of a config file in a workspace. An absolute path has to be written below the root; a
relative one counts from the root. -/
def keyOf (w : Workspace) (path : String) : Except Failure String :=
  let canonical (text : String) : String :=
    Path.normalize (String.ofList (text.toList.map Path.slashed))
  if Path.isAbsolute path then
    match Path.after? ((w.files.canonical path).toOption.getD path) w.root with
    | some rest => .ok (canonical rest)
    | none => .error (.outside path w.root)
  else .ok (canonical path)

/-- The settings of a config file that was named. -/
def settingsOf (w : Workspace) (strategy : Workspace.Strategy) (path : String) :
    Except Failure Settings := do
  let key ← keyOf w path
  match w.loadAfresh strategy key with
  | .loaded s => .ok s
  | .failed fault => .error (.load key fault)
  | .unfinished => .error (.endless key)

/-- Carries out an action: the exit code and what is written. -/
def perform (around : Surroundings) (w : Workspace) (strategy : Workspace.Strategy) :
    Action → Except Failure (Nat × String)
  | .describe config => do
    let s ← settingsOf w strategy config
    .ok (0, Report.settings around.colored s)
  | .expand config specifier dir => do
    let s ← settingsOf w strategy config
    .ok (0, Report.candidates around.colored specifier (s.expand dir specifier))
  | .outputs config files declarations => do
    let s ← settingsOf w strategy config
    let move := if declarations then s.declarationPath else s.codePath
    .ok (0, Report.outputs around.colored (files.map fun file => (file, move file)))
  | .scan =>
    match w.survey strategy (around.walk w.root) with
    | .error fault => .error (.survey fault)
    | .ok result =>
      .ok (if result.failed.isEmpty then 0 else 1,
        Report.survey around.colored result ++
          Report.summary around.colored result around.milliseconds around.threads)

/-- Carries out a command line that is understood. -/
def Invocation.perform (around : Surroundings) (i : Invocation) : Except Failure (Nat × String) := do
  let root ← rootOf around.files i.root
  Command.perform around { files := around.files, root } i.strategy i.action

/-- The exit code for a command line that is not understood. -/
def misuse : Nat := 2

/-- Runs the program on the words of a command line. -/
def run (around : Surroundings) (words : List String) : Answer :=
  match Invocation.ofWords? words with
  | none => { exitCode := misuse, output := "", complaint := usage }
  | some invocation =>
    match invocation.perform around with
    | .ok (exitCode, output) => { exitCode, output, complaint := "" }
    | .error failure => { exitCode := 1, output := "", complaint := failure.complaint }

end ConfigChain.Command

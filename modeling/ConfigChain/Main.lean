import ConfigChain.Command.Run

/-!
The program as it is started from a shell. It reads the directories that the command line is about into
memory, carries out the command line there, and writes the answer.
-/

namespace ConfigChain.Main

/-- Where to look: a way from the root directory, and whether to read everything at its end. -/
abbrev Interest := Location × Bool

/-- What remains of some interests in the directory of a given name. -/
def narrowed (name : String) (interests : List Interest) : List Interest :=
  interests.filterMap fun
    | (first :: rest, whole) => if first = name then some (rest, whole) else none
    | ([], _) => none

/-- What is of interest in every repository: the rules that it keeps to itself. -/
def inRepository (name : String) : List Interest :=
  if name = FileNames.repository then [(["info"], false)] else []

/-- The fault that keeps a file from being read. -/
def faultOf : IO.Error → FileFault
  | .permissionDenied _ number words => .refused number.toNat words
  | .resourceExhausted _ number words => .refused number.toNat words
  | .hardwareFault number words => .refused number.toNat words
  | .resourceBusy number words => .refused number.toNat words
  | .otherError number words => .refused number.toNat words
  | fault => .refused 5 (toString fault)

/-- Reads the directory at a location: its files, the directories on the way to something of interest, and all
others too if the whole is asked for. Of a repository only little is read. What cannot be read is told. -/
partial def readTree (path : String) (location : Location) (whole : Bool) (interests : List Interest) :
    IO (Tree × List (Location × FileFault)) := do
  let mut entries := []
  let mut unreadable := []
  for entry in ← (← IO.FS.realPath path).readDir do
    let name := entry.fileName
    let place := location ++ [name]
    match (← entry.path.symlinkMetadata).type with
    | .file =>
      try
        let content ← IO.FS.readBinFile entry.path
        entries := (name, .file content.toList) :: entries
      catch fault =>
        entries := (name, .file []) :: entries
        unreadable := (place, faultOf fault) :: unreadable
    | .dir =>
      let inner := narrowed name interests ++ inRepository name
      let all := (whole && name ≠ FileNames.repository) || inner.contains ([], true)
      if all || !inner.isEmpty then
        let (tree, more) ←
          try readTree entry.path.toString place all inner catch _ => pure (.directory [], [])
        entries := (name, tree) :: entries
        unreadable := more ++ unreadable
      else
        entries := (name, .directory []) :: entries
    | _ => pure ()
  return (.directory entries, unreadable)

/-- The location of an absolute path without detours. -/
def locationOf (path : String) : Location :=
  ((Path.pieces path.toList).filter (!Path.stays ·)).map String.ofList

/-- The workspace that a command line is about, as far as it can be told by looking at the directories
above the current one. -/
def rootAbout (files : FileSystem) (words : List String) : IO (Option String) := do
  match (Command.Invocation.ofWords? words).bind (·.root) with
  | some named => try return some (← IO.FS.realPath named).toString catch _ => return none
  | none => return files.repository? (FileSystem.spell files.here)

/-- Reads the directories that a command line is about. -/
def readFiles (words : List String) : IO FileSystem := do
  let here := locationOf (← IO.FS.realPath (← IO.currentDir)).toString
  let (top, unreadable) ← readTree "/" [] false [(here, false)]
  let near : FileSystem := { top, here, unreadable }
  match ← rootAbout near words with
  | none => return near
  | some root =>
    let (top, unreadable) ← readTree "/" [] false [(here, false), (locationOf root, true)]
    return { top, here, unreadable }

/-- Runs the program: the exit code, after everything has been written. -/
def run (words : List String) : IO UInt32 := do
  let start ← IO.monoMsNow
  let files ← readFiles words
  let output ← IO.getStdout
  let answer := Command.run {
    files
    colored := ← output.isTty
    threads := 1
    milliseconds := (← IO.monoMsNow) - start } words
  output.putStr answer.output
  (← IO.getStderr).putStr answer.complaint
  return answer.exitCode.toUInt32

end ConfigChain.Main

def main (words : List String) : IO UInt32 := ConfigChain.Main.run words

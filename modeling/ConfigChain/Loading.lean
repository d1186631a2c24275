import ConfigChain.Declaration.Format
import ConfigChain.Extends
import ConfigChain.FileSystem
import ConfigChain.Settings

/-!
Loading a config file with the chain of files it extends. A `Memory` keeps the settings of every file
met so far, by canonical path, and marks the files that are still being resolved: a reference that leads
back to one of them ends the chain. A file that is extended but cannot be loaded is passed over for the
next candidate; only what is wrong with the requested file itself is reported.

The recursion goes from a file to the file it extends. How deep it may go is a parameter, and a result
says when that was not enough.
-/

namespace ConfigChain

/-- What is known of a file: it is being resolved, or its settings are settled. -/
inductive Entry where
  | pending
  | settled (s : Settings)
deriving DecidableEq, Repr

/-- The files met so far, by path. -/
structure Memory where
  entries : List (String × Entry)
deriving DecidableEq, Repr

/-- Why a requested file has no settings. -/
inductive LoadFault where
  | unreadable (path : String) (fault : FileFault)
  | malformed (path : String) (fault : Json.Fault)
deriving DecidableEq, Repr

namespace LoadFault

/-- The file at fault. -/
def path : LoadFault → String
  | .unreadable path _ => path
  | .malformed path _ => path

/-- What is wrong with it. -/
def reason : LoadFault → String
  | .unreadable _ fault => fault.message
  | .malformed _ fault => fault.message

/-- The words for a fault. -/
def message : LoadFault → String
  | .unreadable path fault => "failed to read tsconfig '" ++ path ++ "': " ++ fault.message
  | .malformed path fault => "malformed tsconfig '" ++ path ++ "': " ++ fault.message

end LoadFault

/-- What loading comes to: settings, a fault, or nothing yet when the depth was used up. -/
inductive Outcome where
  | loaded (s : Settings)
  | failed (fault : LoadFault)
  | unfinished
deriving DecidableEq, Repr

/-- What the search for the extended file comes to. -/
inductive Search where
  | found (s : Settings)
  | nothing
  | unfinished
deriving DecidableEq, Repr

/-- Where files are loaded from: the directory that paths count from, what is read at a path, and the
files that a reference may mean. -/
structure Source where
  root : String
  read : String → Except FileFault Bytes
  resolver : Resolver

namespace Memory

/-- Nothing met so far. -/
def empty : Memory := ⟨[]⟩

/-- What is known of the file at a canonical path. -/
def known? (m : Memory) (key : String) : Option Entry := m.entries.lookup key

/-- The memory with something known of one more file. -/
def set (m : Memory) (key : String) (e : Entry) : Memory :=
  ⟨(key, e) :: m.entries.filter fun known => known.1 ≠ key⟩

/-- The settings of a file that has been loaded. -/
def get? (m : Memory) (path : String) : Option Settings :=
  match m.known? (Path.normalize path) with
  | some (.settled s) => some s
  | _ => none

/-- How many files are settled. -/
def size (m : Memory) : Nat :=
  m.entries.countP fun known => match known.2 with
    | .settled _ => true
    | .pending => false

/-- The first candidate that can be loaded. A candidate that is still being resolved ends the search. -/
def search (load : Memory → String → Memory × Outcome) (m : Memory) :
    List String → Memory × Search
  | [] => (m, .nothing)
  | candidate :: rest =>
    match m.known? (Path.normalize candidate) with
    | some (.settled s) => (m, .found s)
    | some .pending => (m, .nothing)
    | none =>
      match load m (Path.normalize candidate) with
      | (m, .loaded s) => (m, .found s)
      | (m, .failed _) => search load m rest
      | (m, .unfinished) => (m, .unfinished)

/-- The settings of the file that a declaration at `key` refers to. -/
def base (load : Memory → String → Memory × Outcome) (source : Source) (m : Memory) (key : String)
    (d : Declaration) : Memory × Search :=
  if d.referenceText = "" then (m, .nothing)
  else m.search load (source.resolver (Path.directory key) d.referenceText)

/-- Settles the file at `key`, which declares `d`. -/
def resolve (load : Memory → String → Memory × Outcome) (source : Source) (m : Memory) (key : String)
    (d : Declaration) : Memory × Outcome :=
  let settle (m : Memory) (base : Option Settings) : Memory × Outcome :=
    let s := Settings.inherit key d base
    (m.set key (.settled s), .loaded s)
  match (m.set key .pending).base load source key d with
  | (m, .found s) => settle m (some s)
  | (m, .nothing) => settle m none
  | (m, .unfinished) => (m, .unfinished)

/-- Settles the file at a path from its text. -/
def parseWith (load : Memory → String → Memory × Outcome) (source : Source) (m : Memory)
    (path : String) (text : Bytes) : Memory × Outcome :=
  let key := Path.normalize path
  match Declaration.parse text with
  | .error fault => (m, .failed (.malformed (Path.beneath source.root key) fault))
  | .ok d => m.resolve load source key d

/-- Loads the file at a path, with at most `depth` files open one inside the other. -/
def load (source : Source) : Nat → Memory → String → Memory × Outcome
  | 0, m, _ => (m, .unfinished)
  | depth + 1, m, path =>
    let key := Path.normalize path
    match m.get? key with
    | some s => (m, .loaded s)
    | none =>
      match source.read key with
      | .error fault => (m, .failed (.unreadable (Path.beneath source.root key) fault))
      | .ok text => m.parseWith (load source depth) source key text

/-- Settles the file at a path from a text, with at most `depth` files open inside it. -/
def parse (source : Source) (depth : Nat) (m : Memory) (path : String) (text : Bytes) :
    Memory × Outcome :=
  m.parseWith (load source depth) source path text

end Memory

end ConfigChain

import ConfigChain.Listing
import ConfigChain.Workspace

/-!
Loading every config file of a workspace. Each file is loaded with a memory of its own, so what one of
them declares never bears on another that does not extend it.
-/

namespace ConfigChain

/-- What loading every file came to: the settings, and the files that have none, both in the order of
the listing. -/
structure Survey where
  loaded : List Settings
  failed : List (String × LoadFault)
deriving DecidableEq, Repr

/-- How many files were loaded or failed. -/
def Survey.size (s : Survey) : Nat := s.loaded.length + s.failed.length

/-- Why there is nothing to load. -/
inductive SurveyFault where
  | listing (fault : ListingFault)
  | noFiles (root : String)
deriving DecidableEq, Repr

/-- The settings that a file was loaded with. -/
def Outcome.settings? : Outcome → Option Settings
  | .loaded s => some s
  | _ => none

/-- The fault that a file could not be loaded for. -/
def Outcome.fault? : Outcome → Option LoadFault
  | .failed fault => some fault
  | _ => none

namespace Workspace

/-- Loads a file with nothing in memory. -/
def loadAfresh (w : Workspace) (strategy : Strategy) (path : String) : Outcome :=
  (w.load (w.resolver strategy) .empty path).2

/-- Loads each of some files. -/
def loadEach (w : Workspace) (strategy : Strategy) (paths : List String) : Survey where
  loaded := paths.filterMap fun path => (w.loadAfresh strategy path).settings?
  failed := paths.filterMap fun path => (w.loadAfresh strategy path).fault?.map (path, ·)

/-- Loads every config file that a walk of the workspace came by. -/
def survey (w : Workspace) (strategy : Strategy) (walk : Except ListingFault (List Visited)) :
    Except SurveyFault Survey :=
  match walk.map listing with
  | .error fault => .error (.listing fault)
  | .ok [] => .error (.noFiles w.root)
  | .ok (path :: more) => .ok (w.loadEach strategy (path :: more))

end Workspace

end ConfigChain

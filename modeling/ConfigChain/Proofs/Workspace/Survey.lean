import ConfigChain.Command.Run
import ConfigChain.Proofs.Loading.Lookup
import ConfigChain.Proofs.Workspace.Depth
import ConfigChain.Proofs.Workspace.Exact

/-! # Surveys

A survey tells the config files that a walk of a workspace comes by apart by what is wrong with each file itself. A
file that extends a broken one is loaded all the same. Nothing depends on how the walk is made, on what it passes over
or on whether the names that it comes by are texts. -/

namespace ConfigChain

namespace Workspace

open Memory (Returns)

variable (w : Workspace) (strategy : Strategy) {path : String} {paths : List String}

/-- Loading from an empty memory, as deep as it goes. -/
def fresh (path : String) (depth : Nat) : Memory × Outcome :=
  Memory.load (w.source (w.resolver strategy)) depth .empty path

end Workspace

namespace Command

end Command

namespace Workspace

end Workspace

end ConfigChain

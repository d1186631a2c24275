import ConfigChain.Path

/-!
The way from one directory to another. `difference` walks two paths side by side and leaves out what
they share; `rebase` uses it to say, as seen from a second directory, what a path means in a first one.
-/

namespace ConfigChain.Path

/-- One step of a path as it is written. Only a leading `.` counts as a step of its own. -/
inductive Step where
  | root
  | here
  | up
  | into (name : List Char)
deriving DecidableEq, Repr

/-- The step a piece stands for, if it moves at all. -/
def Step.ofPiece (piece : List Char) : List Step :=
  if piece = [] ∨ piece = ['.'] then []
  else if piece = ['.', '.'] then [.up]
  else [.into piece]

/-- The steps of a path as it is written. -/
def steps (cs : List Char) : List Step :=
  let opening :=
    if startsAtRoot cs then [Step.root]
    else if (pieces cs).head? = some ['.'] then [Step.here]
    else []
  opening ++ (pieces cs).flatMap Step.ofPiece

/-- How a step is written. -/
def Step.text : Step → List Char
  | .root => ['/']
  | .here => ['.']
  | .up => ['.', '.']
  | .into name => name

/-- What follows in a path after the steps of another path, if it begins with them. -/
def after? (path base : String) : Option String :=
  ((steps base.toList).isPrefixOf? (steps path.toList)).map fun way =>
    String.ofList (link (way.map Step.text))

/-- The steps that lead from the end of `base` to the end of `target`. As long as `shared` holds,
equal steps are left out. There is no answer when `base` climbs where `target` does not: which
directory it came from is not written anywhere. -/
def difference (shared : Bool) : (target base : List Step) → Option (List Step)
  | [], [] => some []
  | step :: target, [] => some (step :: target)
  | [], _ :: base => (difference false [] base).map (.up :: ·)
  | step :: target, other :: base =>
    if shared ∧ step = other then difference true target base
    else if other = .here then (difference false target base).map (step :: ·)
    else if other = .up then none
    else some (.up :: base.map (fun _ => .up) ++ step :: target)

/-- The path `target` as seen from `base`, if it can be told from the texts alone. -/
def seenFrom? (target base : String) : Option String :=
  if isAbsolute target = isAbsolute base then
    (difference true (steps target.toList) (steps base.toList)).map fun way =>
      String.ofList (link (way.map Step.text))
  else if isAbsolute target then some target
  else none

/-- What `rel` means in the directory `source`, written as seen from the directory `destination`.
Where that cannot be told, `rel` is kept as it is. -/
def rebase (rel source destination : String) : String :=
  let source := normalize source
  let destination := normalize destination
  if source = destination then normalize rel
  else match seenFrom? (join source rel) destination with
    | some way => normalize (String.ofList (way.toList.map slashed))
    | none => normalize rel

end ConfigChain.Path

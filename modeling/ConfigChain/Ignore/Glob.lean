import ConfigChain.Json.Byte
import ConfigChain.Text.Utf8

/-!
Globs: patterns over paths, matched byte by byte. A glob is a list of tokens, a token stands for one or
more runs of pieces, and a piece fits one byte of a set or any number of them. A star and a question
mark never fit a slash; only the three ways to write `**` reach over directories.
-/

namespace ConfigChain.Ignore

/-- A set of bytes: those of some ranges, or those of none of them. -/
structure ByteSet where
  ranges : List (UInt8 × UInt8)
  negated : Bool
deriving DecidableEq, Repr

namespace ByteSet

/-- Whether a byte is in a set. -/
def has (s : ByteSet) (b : UInt8) : Bool :=
  (s.ranges.any fun r => decide (r.1 ≤ b ∧ b ≤ r.2)) != s.negated

/-- The set of one byte. -/
def only (b : UInt8) : ByteSet := ⟨[(b, b)], false⟩

/-- Every byte but one. -/
def except (b : UInt8) : ByteSet := ⟨[(b, b)], true⟩

/-- Every byte. -/
def all : ByteSet := ⟨[], true⟩

end ByteSet

/-- One byte of a set, or any number of them. -/
inductive Piece where
  | one (s : ByteSet)
  | many (s : ByteSet)
deriving DecidableEq, Repr

/-- Whether a run of pieces fits all of a text. -/
def fits : List Piece → Bytes → Bool
  | [], text => text.isEmpty
  | .one _ :: _, [] => false
  | .one s :: run, b :: text => s.has b && fits run text
  | .many _ :: run, [] => fits run []
  | .many s :: run, b :: text => fits run (b :: text) || (s.has b && fits (.many s :: run) text)
termination_by run text => run.length + text.length

/-- The parts of a glob. `opening`, `between` and `closing` are `**` where a path begins, between two
slashes, and where it ends. A group offers alternatives; one without any fits the empty text. -/
inductive Token where
  | literal (c : Char)
  | any
  | star
  | set (s : ByteSet)
  | opening
  | between
  | closing
  | group (alternatives : List (List Token))

/-- The byte between directories. -/
def divider : Piece := .one (.only Json.slash)

mutual

/-- The runs of pieces that a token stands for. -/
def Token.runs : Token → List (List Piece)
  | .literal c => [(Utf8.encode [c]).map fun b => .one (.only b)]
  | .any => [[.one (.except Json.slash)]]
  | .star => [[.many (.except Json.slash)]]
  | .set s => [[.one s]]
  | .opening => [[], [divider], [.many .all, divider]]
  | .between => [[divider], [divider, .many .all, divider]]
  | .closing => [[divider, .many .all]]
  | .group [] => [[]]
  | .group (first :: rest) => runsInTurn first ++ runsOfAny rest

/-- The runs that tokens stand for, one after the other. -/
def runsInTurn : List Token → List (List Piece)
  | [] => [[]]
  | t :: rest => t.runs.flatMap fun run => (runsInTurn rest).map (run ++ ·)

/-- The runs that any of several lists of tokens stands for. -/
def runsOfAny : List (List Token) → List (List Piece)
  | [] => []
  | first :: rest => runsInTurn first ++ runsOfAny rest

end

/-- A pattern over paths. -/
structure Glob where
  tokens : List Token

/-- Whether a token stands for itself. -/
def Token.isLiteral : Token → Bool
  | .literal _ => true
  | _ => false

/-- Whether a token stands for one given character. -/
def Token.spells (c : Char) : Token → Bool
  | .literal d => c = d
  | _ => false

namespace Glob

/-- Whether tokens spell a path in full, or its end from some directory on. -/
def isSpelled : List Token → Bool
  | .opening :: rest => rest.all Token.isLiteral && rest.any (Token.spells '/')
  | tokens => tokens.all Token.isLiteral

/-- Whether tokens end in a dot. -/
def endsInDot (tokens : List Token) : Bool := (tokens.getLast?.map (Token.spells '.')).getD false

/-- Whether a glob covers a path. A `**` on its own fits everything. A dot at the end of a glob is an
ending without a name, which no path has, unless the glob spells the path. -/
def covers (g : Glob) (path : Bytes) : Bool :=
  match g.tokens with
  | [.opening] => true
  | tokens =>
    (!endsInDot tokens || isSpelled tokens) && (runsInTurn tokens).any fun run => fits run path

end Glob

end ConfigChain.Ignore

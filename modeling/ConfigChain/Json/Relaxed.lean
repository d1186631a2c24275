import ConfigChain.Json.Value

/-!
Relaxed JSON: a byte-order mark in front, comments, and a comma after the last item of a list or object.
`plain` turns such a text into strict JSON of the same shape. What is taken out becomes spaces, line ends
stay, so a place in the result is the same place in the relaxed text. A text that is broken in other ways
stays broken, for the strict reader to report.
-/

namespace ConfigChain.Json

/-- The byte-order mark. -/
def mark : Bytes := [0xEF, 0xBB, 0xBF]

/-- A text without its byte-order mark. -/
def withoutMark (s : Bytes) : Bytes := (mark.isPrefixOf? s).getD s

/-- Where a byte stands with respect to strings. -/
inductive Quoting where
  | outside
  | inside
  | escaped
deriving DecidableEq, Repr

/-- Where the next byte stands. -/
def Quoting.after : Quoting → UInt8 → Quoting
  | .outside, b => if b = quote then .inside else .outside
  | .inside, b => if b = backslash then .escaped else if b = quote then .outside else .inside
  | .escaped, _ => .inside

/-- Where a byte stands with respect to comments. The first two and the last two bytes of a block
comment belong together. -/
inductive Region where
  | plain (q : Quoting)
  | line
  | opening
  | block
  | closing
deriving DecidableEq, Repr

/-- Whether a block comment that has been opened is closed further on. -/
def closes : Bytes → Bool
  | [] => false
  | b :: s => (b = star && s.head? = some slash) || closes s

/-- A byte of a comment becomes a space unless it ends a line. -/
def blank (b : UInt8) : UInt8 := if b = newline then b else space

/-- Comments become spaces. A block comment that is never closed is left as it is, with all that
follows. -/
def blankComments : Region → Bytes → Bytes
  | _, [] => []
  | .plain q, b :: s =>
    if q = .outside ∧ b = slash ∧ s.head? = some slash then space :: blankComments .line s
    else if q = .outside ∧ b = slash ∧ s.head? = some star then
      if closes (s.drop 1) then space :: blankComments .opening s else b :: s
    else b :: blankComments (.plain (q.after b)) s
  | .line, b :: s =>
    if b = newline then b :: blankComments (.plain .outside) s else space :: blankComments .line s
  | .opening, _ :: s => space :: blankComments .block s
  | .block, b :: s =>
    if b = star ∧ s.head? = some slash then space :: blankComments .closing s
    else blank b :: blankComments .block s
  | .closing, _ :: s => space :: blankComments (.plain .outside) s

/-- Bytes that a comma looks past to see what it stands before: the blanks, and the form feed. -/
def isPassed (b : UInt8) : Bool := isBlank b || b = 0x0C

/-- Whether a closing bracket or brace comes next. -/
def beforeClose (s : Bytes) : Bool :=
  match s.find? (fun b => !isPassed b) with
  | some b => b = closeObject || b = closeList
  | none => false

/-- Commas outside strings that stand before a closing bracket or brace become spaces. -/
def blankCommas : Quoting → Bytes → Bytes
  | _, [] => []
  | q, b :: s =>
    (if q = .outside ∧ b = comma ∧ beforeClose s then space else b) :: blankCommas (q.after b) s

/-- The strict form of a relaxed text. -/
def plain (s : Bytes) : Bytes :=
  blankCommas .outside (blankComments (.plain .outside) (withoutMark s))

/-- A relaxed JSON text, read with a reader for strict ones. -/
def Reader.relaxed {α : Type} (reader : Reader α) (text : Bytes) : Except Fault α :=
  reader.whole (plain text)

/-- A relaxed JSON text as a value. -/
def Value.parseRelaxed (text : Bytes) : Except Fault Value :=
  (strict.value greatestDepth).relaxed text

end ConfigChain.Json

import ConfigChain.Ignore.Glob.Parser

/-!
Rule files: one rule a line, a glob that says which paths below the directory of the file are ignored or,
after `!`, kept. Of the rules that apply to a path the last one decides. A line that is no glob is left
out and reported.
-/

namespace ConfigChain.Text

/-! The characters that leave a gap in a text: the Unicode property `White_Space`. -/

/-- The ranges of code points with the property, in increasing order. -/
def blankRanges : List (Nat × Nat) := [
  (0x9, 0xD), (0x20, 0x20), (0x85, 0x85), (0xA0, 0xA0), (0x1680, 0x1680), (0x2000, 0x200A),
  (0x2028, 0x2029), (0x202F, 0x202F), (0x205F, 0x205F), (0x3000, 0x3000)]

/-- Whether a character is blank. -/
def isBlank (c : Char) : Bool :=
  blankRanges.any fun r => decide (r.1 ≤ c.toNat ∧ c.toNat ≤ r.2)

/-- A text without the blanks at its end. -/
def trimEnd (cs : List Char) : List Char := (cs.reverse.dropWhile isBlank).reverse

end ConfigChain.Text

namespace ConfigChain.Ignore

/-- What a rule says about a path. -/
inductive Verdict where
  | ignored
  | kept
deriving DecidableEq, Repr

/-- A line of a rule file. -/
structure Rule where
  verdict : Verdict
  directoriesOnly : Bool
  glob : Glob

namespace Rule

/-- Whether a rule applies to a path. -/
def applies (r : Rule) (path : Bytes) (isDirectory : Bool) : Bool :=
  (isDirectory || !r.directoriesOnly) && r.glob.covers path

/-- What the last of the rules that apply says about a path. -/
def verdict? (rules : List Rule) (path : Bytes) (isDirectory : Bool) : Option Verdict :=
  (rules.reverse.find? fun r => r.applies path isDirectory).map verdict

/-! Reading a line. -/

/-- A line without the blanks at its end, unless a backslash keeps the last one. -/
def significant (line : List Char) : List Char :=
  if ['\\', ' '].isSuffixOf line then line else Text.trimEnd line

/-- The marks at the start of a line: what the rule says, whether it is tied to the directory of the
file, and what follows. A backslash takes a mark for itself. -/
def opening : List Char → Verdict × Bool × List Char
  | '\\' :: '!' :: rest => (.ignored, false, '!' :: rest)
  | '\\' :: '#' :: rest => (.ignored, false, '#' :: rest)
  | '!' :: '/' :: rest => (.kept, true, rest)
  | '!' :: rest => (.kept, false, rest)
  | '/' :: rest => (.ignored, true, rest)
  | rest => (.ignored, false, rest)

/-- A slash at the end of a line, which may be escaped: the rule applies to directories only. -/
def ending (cs : List Char) : Bool × List Char :=
  match cs.reverse with
  | '/' :: '\\' :: rest => (true, rest.reverse)
  | '/' :: rest => (true, rest.reverse)
  | _ => (false, cs)

/-- Whether a glob begins in any directory as it is written. -/
def beginsAnywhere (cs : List Char) : Bool := ['*', '*', '/'].isPrefixOf cs || cs = ['*', '*']

/-- The text of the glob. Without a slash in it the rule holds in every directory below, and what ends
in `/**` leaves the directory itself alone. -/
def globText (tied : Bool) (cs : List Char) : List Char :=
  let cs := if tied || '/' ∈ cs || beginsAnywhere cs then cs else ['*', '*', '/'] ++ cs
  if ['/', '*', '*'].isSuffixOf cs then cs ++ ['/', '*'] else cs

/-- The rule that a line states; a comment and an empty line state none. -/
def parse (line : List Char) : Except GlobFault (Option Rule) :=
  if line.head? = some '#' ∨ significant line = [] then .ok none
  else
    let (verdict, tied, rest) := opening (significant line)
    let (directoriesOnly, rest) := ending rest
    (Glob.parse (globText tied rest)).map fun glob => some { verdict, directoriesOnly, glob }

end Rule

/-! Reading a file. -/

/-- What is wrong with a line: it is no glob, or no text. -/
inductive LineFault where
  | glob (text : String) (fault : GlobFault)
  | encoding
deriving DecidableEq, Repr

/-- The words for a fault. -/
def LineFault.message : LineFault → String
  | .glob text fault => "error parsing glob '" ++ text ++ "': " ++ fault.message
  | .encoding => "stream did not contain valid UTF-8"

/-- A rule file: its rules, and what is wrong with which line. -/
structure RuleFile where
  rules : List Rule
  faults : List (Nat × LineFault)

namespace RuleFile

/-- A file without rules. -/
def empty : RuleFile := ⟨[], []⟩

/-- The lines of a file without their ends. A carriage return belongs to the end it stands before. -/
def lines : Bytes → List Bytes
  | [] => []
  | b :: rest =>
    if b = Json.newline then [] :: lines rest
    else if b = 0x0D ∧ rest.head? = some Json.newline then lines rest
    else match lines rest with
      | [] => [[b]]
      | line :: more => (b :: line) :: more

/-- The file with a line before it. -/
def withLine (number : Nat) (line : List Char) (f : RuleFile) : RuleFile :=
  match Rule.parse line with
  | .error fault =>
    let text := String.ofList (Rule.significant line)
    { f with faults := (number, .glob text fault) :: f.faults }
  | .ok none => f
  | .ok (some rule) => { f with rules := rule :: f.rules }

/-- Reads lines from a number on. What is no text ends the file. -/
def ofLines (number : Nat) : List Bytes → RuleFile
  | [] => empty
  | line :: rest =>
    match Utf8.decode? line with
    | none => { empty with faults := [(number, .encoding)] }
    | some text =>
      let cs := if number = 1 then text.toList.dropWhile (· = '\uFEFF') else text.toList
      (ofLines (number + 1) rest).withLine number cs

/-- Reads a file. -/
def parse (content : Bytes) : RuleFile := ofLines 1 (lines content)

/-- What is to be told about a file. That it is no text is not, unless something else is wrong too. -/
def reported (f : RuleFile) : List (Nat × LineFault) :=
  match f.faults with
  | [(_, .encoding)] => []
  | faults => faults

end RuleFile

end ConfigChain.Ignore

import ConfigChain.Ignore.Glob

/-!
Reading globs. `?` and `*` stand for bytes of a name, `**` between slashes for directories, `[…]` for one
byte of a set, `{…}` with commas for alternatives, and a backslash takes the next character for itself.
A bracket that is never closed stands for itself, as do all brackets after it; a group that is never
closed is a fault.
-/

namespace ConfigChain.Ignore

/-- Why a text is no glob. -/
inductive GlobFault where
  | range (low high : Char)
  | unopened
  | unclosed
  | escape
deriving DecidableEq, Repr

/-- The words for a fault. -/
def GlobFault.message : GlobFault → String
  | .range low high =>
    "invalid range; '" ++ String.ofList [low] ++ "' > '" ++ String.ofList [high] ++ "'"
  | .unopened =>
    "unopened alternate group; missing '\x7b' (maybe escape '\x7d' with '[\x7d]'?)"
  | .unclosed =>
    "unclosed alternate group; missing '\x7d' (maybe escape '\x7b' with '[\x7b]'?)"
  | .escape => "dangling '\\'"

/-! What stands between brackets. -/

/-- The ranges between brackets: characters, and pairs of them with a dash between. The last range read
so far is given. A dash at the end stands for itself. -/
def charRanges (low high : Char) : List Char → Except GlobFault (List (Char × Char))
  | [] => .ok [(low, high)]
  | ['-'] => .ok [(low, high), ('-', '-')]
  | '-' :: c :: rest => if c < low then .error (.range low c) else charRanges low c rest
  | c :: rest => (charRanges c c rest).map ((low, high) :: ·)

/-- The bytes of a range of characters: where a character takes several bytes, all of them count, and
the range runs from the last byte of the first character to the first byte of the last one. -/
def byteRanges (r : Char × Char) : List (UInt8 × UInt8) :=
  let low := Utf8.encode [r.1]
  let high := Utf8.encode [r.2]
  let single (b : UInt8) : UInt8 × UInt8 := (b, b)
  if r.1 = r.2 then low.map single
  else low.dropLast.map single ++ (low.getLastD 0, high.headD 0) :: high.tail.map single

/-- The set that the text between brackets stands for. -/
def byteSet (negated : Bool) : List Char → Except GlobFault ByteSet
  | [] => .ok ⟨[], negated⟩
  | c :: rest => (charRanges c c rest).map fun rs => ⟨rs.flatMap byteRanges, negated⟩

/-- Whether the text after an opening bracket begins with a negation, and what follows it. -/
def negation : List Char → Bool × List Char
  | '!' :: rest => (true, rest)
  | '^' :: rest => (true, rest)
  | rest => (false, rest)

/-- The text up to the closing bracket. A bracket that comes first does not close. -/
def inside : List Char → List Char
  | [] => []
  | c :: rest => c :: rest.takeWhile (· ≠ ']')

/-- The text from the closing bracket on. -/
def outside : List Char → List Char
  | [] => []
  | _ :: rest => rest.dropWhile (· ≠ ']')

/-! The reader. -/

/-- A group that is not closed yet: its finished alternatives and the tokens before it, both with the
last one first. -/
structure Group where
  alternatives : List (List Token)
  before : List Token

/-- A glob that is being read: the tokens of the innermost alternative with the last one first, the open
groups with the innermost first, and whether brackets stand for themselves. -/
structure Draft where
  tokens : List Token
  groups : List Group
  plainBrackets : Bool

/-- Whether tokens stand for nothing: there are only groups without alternatives. -/
def isVoid (tokens : List Token) : Bool :=
  tokens.all fun
    | .group [] => true
    | _ => false

namespace Draft

/-- Nothing read yet. -/
def empty : Draft := ⟨[], [], false⟩

/-- One more token. -/
def push (d : Draft) (t : Token) : Draft := { d with tokens := t :: d.tokens }

/-- Begins a group. -/
def openGroup (d : Draft) : Draft := { d with tokens := [], groups := ⟨[], d.tokens⟩ :: d.groups }

/-- A comma begins the next alternative of a group; outside of groups it stands for itself. -/
def comma (d : Draft) : Draft :=
  match d.groups with
  | [] => d.push (.literal ',')
  | g :: outer =>
    let g := { g with alternatives := d.tokens.reverse :: g.alternatives }
    { d with tokens := [], groups := g :: outer }

/-- Ends a group. Alternatives that stand for nothing are left out. -/
def closeGroup (d : Draft) : Except GlobFault Draft :=
  match d.groups with
  | [] => .error .unopened
  | g :: outer =>
    let alternatives := (d.tokens.reverse :: g.alternatives).reverse.filter (!isVoid ·)
    .ok { d with tokens := .group alternatives :: g.before, groups := outer }

/-- Puts a `**` in place of the slash before it. One `**` after another adds nothing. -/
def reach (d : Draft) (t : Token) : Draft :=
  match d.tokens with
  | .opening :: _ => d
  | .closing :: _ => d
  | _ :: before => { d with tokens := t :: before }
  | [] => d

/-- A `**` that is not on its own between slashes is two stars. -/
def twoStars (d : Draft) : Draft := (d.push .star).push .star

/-- Whether a `**` may stand after a character. -/
def mayReachAfter (d : Draft) (last : Option Char) : Bool :=
  last = some '/' || (!d.groups.isEmpty && (last = some ',' || last = some '\x7b'))

/-- Reads what a star begins, after the star: the draft, the last character read, and the rest. -/
def stars (d : Draft) (last : Option Char) : List Char → Draft × Char × List Char
  | '*' :: rest =>
    if d.tokens.isEmpty then
      match rest with
      | [] => (d.push .opening, '*', [])
      | '/' :: more => (d.push .opening, '/', more)
      | more => (d.twoStars, '*', more)
    else if d.mayReachAfter last then
      match rest with
      | [] => (d.reach .closing, '*', [])
      | '/' :: more => (d.reach .between, '/', more)
      | c :: more =>
        if !d.groups.isEmpty && (c = ',' || c = '\x7d') then (d.reach .closing, '*', c :: more)
        else (d.twoStars, '*', c :: more)
    else (d.twoStars, '*', rest)
  | rest => (d.push .star, '*', rest)

theorem length_stars_le (d : Draft) (last : Option Char) (cs : List Char) :
    (d.stars last cs).2.2.length ≤ cs.length := by
  unfold stars
  grind

theorem length_negation_le (cs : List Char) : (negation cs).2.length ≤ cs.length := by
  unfold negation
  split <;> simp

theorem length_outside_le (cs : List Char) : (outside cs).length ≤ cs.length := by
  cases cs with
  | nil => simp [outside]
  | cons c rest =>
    have := (List.dropWhile_sublist (l := rest) (· ≠ ']')).length_le
    simp only [outside, List.length_cons]
    omega

/-- Reads the rest of a glob, after the character `last`. -/
def read (d : Draft) (last : Option Char) : List Char → Except GlobFault Draft
  | [] => .ok d
  | '*' :: cs =>
    have := length_stars_le d last cs
    (d.stars last cs).1.read (some (d.stars last cs).2.1) (d.stars last cs).2.2
  | '\\' :: cs =>
    match cs with
    | [] => .error .escape
    | c :: rest => (d.push (.literal c)).read (some c) rest
  | '[' :: cs =>
    if d.plainBrackets then (d.push (.literal '[')).read (some '[') cs
    else
      have := length_negation_le cs
      have := length_outside_le (negation cs).2
      match byteSet (negation cs).1 (inside (negation cs).2) with
      | .error fault => .error fault
      | .ok s =>
        match _h : outside (negation cs).2 with
        | _ :: rest => (d.push (.set s)).read (some ']') rest
        | [] => ({ d with plainBrackets := true }.push (.literal '[')).read (some '[') cs
  | '\x7b' :: cs => d.openGroup.read (some '\x7b') cs
  | '\x7d' :: cs =>
    match d.closeGroup with
    | .error fault => .error fault
    | .ok d => d.read (some '\x7d') cs
  | ',' :: cs => d.comma.read (some ',') cs
  | '?' :: cs => (d.push .any).read (some '?') cs
  | c :: cs => (d.push (.literal c)).read (some c) cs
termination_by cs => cs.length
decreasing_by all_goals grind

end Draft

/-- Reads a glob. -/
def Glob.parse (cs : List Char) : Except GlobFault Glob :=
  match Draft.empty.read none cs with
  | .error fault => .error fault
  | .ok d => if d.groups.isEmpty then .ok ⟨d.tokens.reverse⟩ else .error .unclosed

end ConfigChain.Ignore

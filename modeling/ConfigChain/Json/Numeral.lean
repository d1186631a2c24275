import ConfigChain.Json.Reader

/-!
Numbers as they are written. `Numeral.read` takes the digits apart, and `Numeral.number?` says which
number they denote. Whole numbers that fit 64 bits are exact; every other numeral is read as a decimal
significand of 64 bits and a power of ten, digits beyond the significand being left out.
-/

namespace ConfigChain.Json

/-- A number as it is written: the digits before the point, those after it, and the digits of the
exponent with whether it is negative. -/
structure Numeral where
  negative : Bool
  whole : List Nat
  fraction : List Nat
  exponent : Option (Bool × List Nat)
deriving DecidableEq, Repr

namespace Numeral

/-- The digits before the point: a lone zero, or digits that do not begin with one. -/
def readWhole (atEnd : Cause) : Bytes → Reading (List Nat)
  | [] => .error (.here atEnd [])
  | b :: r =>
    if b = 0x30 then
      if r.head?.any isDigit then .error (.at .invalidNumber r) else .ok ([0], r)
    else if isDigit b then .ok (digitValue b :: digits r, afterDigits r)
    else .error (.here .invalidNumber r)

theorem length_readWhole_lt {e : Cause} {s r : Bytes} {ds : List Nat}
    (h : readWhole e s = .ok (ds, r)) : r.length < s.length := by
  cases s with
  | nil => cases h
  | cons b s =>
    have := length_afterDigits_le s
    unfold readWhole at h
    grind

/-- The digits after the point, at least one if there is a point. -/
def readFraction (atEnd : Cause) : Bytes → Reading (List Nat)
  | [] => .ok ([], [])
  | b :: r =>
    if b = point then
      match digits r with
      | [] => .error (.at (if r = [] then atEnd else .invalidNumber) r)
      | d :: ds => .ok (d :: ds, afterDigits r)
    else .ok ([], b :: r)

theorem length_readFraction_le {e : Cause} {s r : Bytes} {ds : List Nat}
    (h : readFraction e s = .ok (ds, r)) : r.length ≤ s.length := by
  cases s with
  | nil => simp_all [readFraction]
  | cons b s =>
    have := length_afterDigits_le s
    unfold readFraction at h
    grind

/-- Past a sign. -/
def dropSign (s : Bytes) : Bytes :=
  if s.head? = some plus ∨ s.head? = some minus then s.drop 1 else s

/-- The exponent, at least one digit if there is a mark for it. -/
def readExponent (atEnd : Cause) : Bytes → Reading (Option (Bool × List Nat))
  | [] => .ok (none, [])
  | b :: r =>
    if b = letterE ∨ b = capitalE then
      match dropSign r with
      | [] => .error (.here atEnd [])
      | d :: s =>
        if isDigit d then .ok (some (r.head? == some minus, digitValue d :: digits s), afterDigits s)
        else .error (.here .invalidNumber s)
    else .ok (none, b :: r)

theorem length_dropSign_le (s : Bytes) : (dropSign s).length ≤ s.length := by
  unfold dropSign
  split
  · simp
  · exact Nat.le_refl _

theorem length_readExponent_le {e : Cause} {s r : Bytes} {x : Option (Bool × List Nat)}
    (h : readExponent e s = .ok (x, r)) : r.length ≤ s.length := by
  cases s with
  | nil => simp_all [readExponent]
  | cons b s =>
    have hd := length_dropSign_le s
    simp only [readExponent] at h
    split at h
    · cases hs : dropSign s with
      | nil => simp [hs] at h
      | cons d t =>
        have := length_afterDigits_le t
        simp only [hs] at h hd
        grind
    · simp_all

/-- A number as it is written. `atEnd` is what is wrong when the text ends inside it. -/
def read (atEnd : Cause) (s : Bytes) : Reading Numeral :=
  let negative := s.head? == some minus
  match readWhole atEnd (if negative then s.drop 1 else s) with
  | .error stop => .error stop
  | .ok (whole, r) =>
    match readFraction atEnd r with
    | .error stop => .error stop
    | .ok (fraction, r) =>
      match readExponent atEnd r with
      | .error stop => .error stop
      | .ok (exponent, r) => .ok ({ negative, whole, fraction, exponent }, r)

theorem length_read_lt {e : Cause} {s r : Bytes} {n : Numeral} (h : read e s = .ok (n, r)) :
    r.length < s.length := by
  unfold read at h
  have hd : (if (s.head? == some minus) = true then s.drop 1 else s).length ≤ s.length := by
    split <;> simp
  grind [→ length_readWhole_lt, → length_readFraction_le, → length_readExponent_le]

/-- Digits taken into a number as long as it does not pass a limit, and the digits left. -/
def absorb (limit : Nat) : Nat → List Nat → Nat × List Nat
  | n, [] => (n, [])
  | n, d :: ds => if limit < n * 10 + d then (n, d :: ds) else absorb limit (n * 10 + d) ds

/-- The greatest significand. -/
def greatestWhole : Nat := Nat.pow 2 64 - 1

/-- The magnitude of the least whole number. -/
def leastWhole : Nat := Nat.pow 2 63

/-- The greatest exponent that is looked at. -/
def greatestExponent : Nat := Nat.pow 2 31 - 1

/-- A whole number with a sign, where it is one of 64 bits; the negative zero is not. -/
def signed? (negative : Bool) (n : Nat) : Option Number :=
  if negative then
    if n = 0 ∨ leastWhole < n then (Binary64.nearest n 1).map (.binary true) else some (.whole (-n))
  else some (.whole n)

/-- The number a numeral denotes, or how many of its last bytes are unread when it is out of range. -/
def number? (n : Numeral) : Except Nat Number :=
  let (whole, dropped) := absorb greatestWhole 0 n.whole
  let decimal (significand : Nat) (power : Int) : Except Nat Number :=
    match Binary64.ofDecimal? significand power with
    | some x => .ok (.binary n.negative x)
    | none => .error 0
  if n.fraction = [] ∧ n.exponent = none ∧ dropped = [] then
    match signed? n.negative whole with
    | some x => .ok x
    | none => .error 0
  else
    let (significand, unused) := absorb greatestWhole whole n.fraction
    let power : Int := (dropped.length : Int) - (n.fraction.length - unused.length : Nat)
    match n.exponent with
    | none => decimal significand power
    | some (negative, ds) =>
      match absorb greatestExponent 0 ds with
      | (e, []) => decimal significand (if negative then power - e else power + e)
      | (_, _ :: unread) =>
        if significand = 0 ∨ negative then .ok (.binary n.negative .zero) else .error unread.length

end Numeral

/-- A number, read and evaluated. -/
def readNumber (s : Bytes) : Reading Number :=
  match Numeral.read .endInValue s with
  | .error stop => .error stop
  | .ok (n, r) =>
    match n.number? with
    | .ok x => .ok (x, r)
    | .error unread => .error ⟨.outOfRange, r.length + unread, 0⟩

/-- A number. -/
def number : Reader Number where
  read := readNumber
  consumes h := by
    unfold readNumber at h
    grind [→ Numeral.length_read_lt]

/-- A number, passed over. -/
def skippedNumber : Reader Unit where
  read s := (Numeral.read .invalidNumber s).map fun _ => ()
  consumes h := by
    obtain ⟨n, hn, _⟩ := Reading.map_eq_ok h
    exact Numeral.length_read_lt hn

end ConfigChain.Json

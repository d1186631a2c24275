import ConfigChain.Json.Structure
import ConfigChain.Json.Numeral

/-!
Values of any shape. A `Grammar` says what is made of scalars, lists and objects; `Grammar.value` is the
reader for it, up to a depth of nesting. `skipped` is the grammar that makes nothing of a value.
-/

namespace ConfigChain.Json

/-- What to make of a value, part by part, and what is wrong where a comma is followed by no item. -/
structure Grammar (κ α : Type) where
  key : Reader κ
  text : Reader α
  number : Reader α
  null : α
  bool : Bool → α
  list : List α → α
  object : List (κ × α) → α
  listClosed : Cause
  objectEnded : Cause
  objectClosed : Cause

variable {κ α : Type}

/-- A word of which the first byte is read. -/
def wordThen (rest : Bytes) (a : α) (s : Bytes) : Reading α :=
  match word rest s with
  | .error stop => .error stop
  | .ok r => .ok (a, r)

theorem length_wordThen_le {w s r : Bytes} {a b : α} (h : wordThen w a s = .ok (b, r)) :
    r.length ≤ s.length := by
  unfold wordThen at h
  split at h
  · cases h
  · rename_i hw
    simp only [Except.ok.injEq, Prod.mk.injEq] at h
    exact h.2 ▸ length_word_le hw

namespace Grammar

/-- A value that is neither a list nor an object, from its first byte on. -/
def scalar (g : Grammar κ α) (b : UInt8) (t : Bytes) : Reading α :=
  if b = letterN then wordThen restOfNull g.null t
  else if b = letterT then wordThen restOfTrue (g.bool true) t
  else if b = letterF then wordThen restOfFalse (g.bool false) t
  else if b = quote then g.text.read (b :: t)
  else if b = minus ∨ isDigit b then g.number.read (b :: t)
  else .error (.at .expectedValue (b :: t))

theorem length_scalar_le {g : Grammar κ α} {b : UInt8} {t r : Bytes} {a : α}
    (h : g.scalar b t = .ok (a, r)) : r.length ≤ t.length := by
  unfold scalar at h
  split at h
  · exact length_wordThen_le h
  split at h
  · exact length_wordThen_le h
  split at h
  · exact length_wordThen_le h
  split at h
  · exact Nat.le_of_lt_succ (g.text.consumes h)
  split at h
  · exact Nat.le_of_lt_succ (g.number.consumes h)
  · cases h

/-- Members are collected last first. -/
def collecting (g : Grammar κ α) (item : Reader α) : Members κ (List (κ × α)) where
  key := g.key
  value state k := .ok (item.map fun a => (k, a) :: state)
  ended := g.objectEnded
  closed := g.objectClosed

/-- A list or object whose items are read by `item?`; without it, nesting has gone too deep. -/
def nested (g : Grammar κ α) (item? : Unit → Option (Reader α)) (b : UInt8) (t : Bytes) : Reading α :=
  match item? () with
  | none => .error (.at .tooDeep (b :: t))
  | some item =>
    if b = openList then Reading.map g.list (elements item g.listClosed t)
    else Reading.map (fun ms => g.object ms.reverse) (members (g.collecting item) [] t)

theorem length_nested_le {g : Grammar κ α} {item? : Unit → Option (Reader α)} {b : UInt8} {t r : Bytes}
    {a : α} (h : g.nested item? b t = .ok (a, r)) : r.length ≤ t.length := by
  unfold nested at h
  split at h
  · cases h
  split at h
  · obtain ⟨_, hl, _⟩ := Reading.map_eq_ok h
    exact Nat.le_of_lt (length_elements_lt hl)
  · obtain ⟨_, hm, _⟩ := Reading.map_eq_ok h
    exact Nat.le_of_lt (length_members_lt hm)

/-- Reads a value after blanks, given how the items of lists and objects are read. -/
def readShallow (g : Grammar κ α) (item? : Unit → Option (Reader α)) (s : Bytes) : Reading α :=
  match skipBlanks s with
  | [] => .error (.at .endInValue [])
  | b :: t => if b = openList ∨ b = openObject then g.nested item? b t else g.scalar b t

theorem length_readShallow_lt {g : Grammar κ α} {item? : Unit → Option (Reader α)} {s r : Bytes} {a : α}
    (h : g.readShallow item? s = .ok (a, r)) : r.length < s.length := by
  have hs := length_skipBlanks_le s
  unfold readShallow at h
  split at h
  · cases h
  · rename_i b t hb
    rw [hb] at hs
    simp only [List.length_cons] at hs
    split at h
    · have := length_nested_le h
      omega
    · have := length_scalar_le h
      omega

/-- A value after blanks, given how the items of lists and objects are read. -/
def shallow (g : Grammar κ α) (item? : Unit → Option (Reader α)) : Reader α where
  read := g.readShallow item?
  consumes := length_readShallow_lt

/-- A value with at most `depth` lists and objects around any of its parts. -/
def value (g : Grammar κ α) : Nat → Reader α
  | 0 => g.shallow fun _ => none
  | depth + 1 => g.shallow fun _ => some (value g depth)

end Grammar

/-- The grammar of values that are passed over. -/
def skipped : Grammar Unit Unit where
  key := skippedString
  text := skippedString
  number := skippedNumber
  null := ()
  bool _ := ()
  list _ := ()
  object _ := ()
  listClosed := .expectedValue
  objectEnded := .endInObject
  objectClosed := .keyNotString

/-- Any value, passed over. No nesting is too deep: it cannot be deeper than the text is long. -/
def skip : Reader Unit where
  read s := (skipped.value s.length).read s
  consumes h := (skipped.value _).consumes h

end ConfigChain.Json

import ConfigChain.Json.Byte
import ConfigChain.Json.Cause

/-!
Readers of bytes. A reader takes what it needs from the front of a text and hands back the rest; a
bundled `Reader` comes with the fact that the rest is shorter, which is why every repetition of one ends.
Where reading stops is told by how many bytes were left, so that a reader need not know what came before
it; `Stop.locate` turns that into a line and a column of the whole text.
-/

namespace ConfigChain.Json

/-- Why and where reading stopped: `left` bytes before the end of the text. The column is moved back by
`back`. -/
structure Stop where
  cause : Cause
  left : Nat
  back : Nat
deriving DecidableEq, Repr

/-- Stopped between what was read and `rest`. -/
def Stop.here (cause : Cause) (rest : Bytes) : Stop := ⟨cause, rest.length, 0⟩

/-- Stopped at the first byte of `rest`, which counts as read when there is one. -/
def Stop.at (cause : Cause) (rest : Bytes) : Stop := ⟨cause, rest.length - 1, 0⟩

/-- A cause with its place in a text. Lines count from one and columns from zero. -/
structure Fault where
  cause : Cause
  line : Nat
  column : Nat
deriving DecidableEq, Repr

/-- The line and column between what was read of a text and what was left of it. -/
def Stop.locate (text : Bytes) (stop : Stop) : Fault :=
  let read := text.take (text.length - stop.left)
  { cause := stop.cause
    line := 1 + read.count newline
    column := (read.reverse.takeWhile (· != newline)).length - stop.back }

/-- The words for a fault. -/
def Fault.message (f : Fault) : String :=
  f.cause.message ++ " at line " ++ toString f.line ++ " column " ++ toString f.column

/-- What reading gives: a stop, or something read and the bytes after it. -/
abbrev Reading (α : Type) := Except Stop (α × Bytes)

/-- A reader that takes at least one byte whenever it succeeds. -/
structure Reader (α : Type) where
  read : Bytes → Reading α
  consumes : ∀ {s : Bytes} {a : α} {r : Bytes}, read s = .ok (a, r) → r.length < s.length

/-- A reading with its result changed. -/
def Reading.map {α β : Type} (f : α → β) : Reading α → Reading β
  | .ok (a, r) => .ok (f a, r)
  | .error stop => .error stop

theorem Reading.map_eq_ok {α β : Type} {f : α → β} {x : Reading α} {b : β} {r : Bytes}
    (h : x.map f = .ok (b, r)) : ∃ a, x = .ok (a, r) ∧ f a = b := by
  match x, h with
  | .ok (a, r'), h =>
    simp only [Reading.map, Except.ok.injEq, Prod.mk.injEq] at h
    exact ⟨a, by rw [h.2], h.1⟩

/-- A reader with its result changed. -/
def Reader.map {α β : Type} (f : α → β) (reader : Reader α) : Reader β where
  read s := (reader.read s).map f
  consumes h := by
    obtain ⟨a, ha, _⟩ := Reading.map_eq_ok h
    exact reader.consumes ha

/-- Only blanks may follow what was read. -/
def finish {α : Type} : Reading α → Except Stop α
  | .error stop => .error stop
  | .ok (a, r) =>
    match skipBlanks r with
    | [] => .ok a
    | rest => .error (.at .trailingCharacters rest)

/-- Reads a whole text, faults placed in it. -/
def Reader.whole {α : Type} (reader : Reader α) (text : Bytes) : Except Fault α :=
  match finish (reader.read text) with
  | .ok a => .ok a
  | .error stop => .error (stop.locate text)

end ConfigChain.Json

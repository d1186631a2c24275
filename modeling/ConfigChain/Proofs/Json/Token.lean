import ConfigChain.Json.Relaxed
import Mathlib.Data.Bool.AllAny
import Mathlib.Data.List.Chain

/-! # Values as they are written

The tokens of JSON, and values made of them. A value may be written with a comma after its last item; that
comma is kept apart from the others, since only those are tokens. -/

namespace ConfigChain.Json

/-! ## Tokens -/

/-- What may stand between the quotes of a string: no bare quote, and a backslash takes the byte after it. -/
inductive IsBody : Bytes → Prop where
  | nil : IsBody []
  | escaped (b : UInt8) {s : Bytes} (h : IsBody s) : IsBody (backslash :: b :: s)
  | cons {b : UInt8} {s : Bytes} (hquote : b ≠ quote) (hbackslash : b ≠ backslash) (h : IsBody s) :
      IsBody (b :: s)

/-- The inside of a string. -/
structure Body where
  bytes : Bytes
  isBody : IsBody bytes

/-- Decimal digits, at least one. -/
structure Digits where
  bytes : Bytes
  ne_nil : bytes ≠ []
  isDigit : ∀ b ∈ bytes, isDigit b = true

/-- The exponent of a number. A sign is a minus or a plus. -/
structure ExponentText where
  capital : Bool
  sign : Option Bool
  digits : Digits

/-- A number as the grammar of JSON has it. -/
structure NumberText where
  negative : Bool
  whole : Digits
  leading : whole.bytes.head? = some 0x30 → whole.bytes = [0x30]
  fraction : Option Digits
  exponent : Option ExponentText

/-- The six marks. -/
inductive Mark where
  | openList
  | closeList
  | openObject
  | closeObject
  | comma
  | colon
deriving DecidableEq, Repr

/-- The tokens that are values by themselves. -/
inductive Atom where
  | null
  | bool (b : Bool)
  | number (n : NumberText)
  | text (body : Body)

/-- A token of JSON. -/
inductive Token where
  | mark (m : Mark)
  | atom (a : Atom)

def ExponentText.bytes (e : ExponentText) : Bytes :=
  (if e.capital then capitalE else letterE) ::
    ((e.sign.map fun negative => if negative then minus else plus).toList ++ e.digits.bytes)

/-- What follows the digits before the point. -/
def NumberText.afterWhole (n : NumberText) : Bytes :=
  (n.fraction.elim [] fun ds => point :: ds.bytes) ++ n.exponent.elim [] ExponentText.bytes

def NumberText.bytes (n : NumberText) : Bytes :=
  (if n.negative then [minus] else []) ++ (n.whole.bytes ++ n.afterWhole)

def Body.quoted (body : Body) : Bytes := quote :: (body.bytes ++ [quote])

def Mark.byte : Mark → UInt8
  | .openList => Json.openList
  | .closeList => Json.closeList
  | .openObject => Json.openObject
  | .closeObject => Json.closeObject
  | .comma => Json.comma
  | .colon => Json.colon

def Atom.bytes : Atom → Bytes
  | .null => letterN :: restOfNull
  | .bool b => if b then letterT :: restOfTrue else letterF :: restOfFalse
  | .number n => n.bytes
  | .text body => body.quoted

def Token.bytes : Token → Bytes
  | .mark m => [m.byte]
  | .atom a => a.bytes

/-! ## The bytes of tokens -/

/-- The bytes that numbers are made of. -/
def isNumeric (b : UInt8) : Bool :=
  isDigit b || b = minus || b = plus || b = point || b = letterE || b = capitalE

theorem isNumeric_of_isDigit {b : UInt8} (h : isDigit b = true) : isNumeric b = true := by
  simp [isNumeric, h]

theorem Digits.isNumeric (ds : Digits) : ∀ b ∈ ds.bytes, isNumeric b = true :=
  fun b hb => isNumeric_of_isDigit (ds.isDigit b hb)

theorem ExponentText.isNumeric (e : ExponentText) : ∀ b ∈ e.bytes, isNumeric b = true := by
  intro b hb
  rcases List.mem_cons.mp hb with rfl | hb
  · split <;> decide
  · rcases List.mem_append.mp hb with hb | hb
    · obtain ⟨negative, -, rfl⟩ := Option.map_eq_some_iff.mp (Option.mem_toList.mp hb)
      split <;> decide
    · exact e.digits.isNumeric b hb

theorem NumberText.isNumeric (n : NumberText) : ∀ b ∈ n.bytes, isNumeric b = true := by
  intro b hb
  simp only [NumberText.bytes, NumberText.afterWhole, List.mem_append] at hb
  rcases hb with hb | hb | hb | hb
  · split at hb
    · rw [List.mem_singleton.mp hb]
      decide
    · cases hb
  · exact n.whole.isNumeric b hb
  · cases hfraction : n.fraction with
    | none => simp [hfraction] at hb
    | some ds =>
        rw [hfraction] at hb
        rcases List.mem_cons.mp hb with rfl | hb
        · decide
        · exact ds.isNumeric b hb
  · cases hexponent : n.exponent with
    | none => simp [hexponent] at hb
    | some e => exact e.isNumeric b (by simpa [hexponent] using hb)

theorem NumberText.bytes_ne (n : NumberText) {b : UInt8} (hb : Json.isNumeric b = false) (tail : Bytes) :
    n.bytes ≠ b :: tail := by
  intro h
  have hnumeric := n.isNumeric b (h ▸ List.mem_cons_self)
  rw [hb] at hnumeric
  cases hnumeric

/-- The bytes that values by themselves begin with. -/
def opensAtom (b : UInt8) : Bool :=
  b = letterN || b = letterT || b = letterF || b = quote || b = minus || isDigit b

theorem NumberText.exists_bytes_eq (n : NumberText) :
    ∃ b rest, n.bytes = b :: rest ∧ (b = minus ∨ isDigit b = true) := by
  obtain ⟨d, ds, hds⟩ := List.exists_cons_of_ne_nil n.whole.ne_nil
  cases hnegative : n.negative with
  | true => exact ⟨minus, n.whole.bytes ++ n.afterWhole, by simp [NumberText.bytes, hnegative], .inl rfl⟩
  | false =>
      refine ⟨d, ds ++ n.afterWhole, by simp [NumberText.bytes, hnegative, hds], .inr ?_⟩
      exact n.whole.isDigit d (by simp [hds])

theorem Atom.exists_bytes_eq (a : Atom) : ∃ b rest, a.bytes = b :: rest ∧ opensAtom b = true := by
  cases a with
  | null => exact ⟨_, _, rfl, by decide⟩
  | bool b => cases b <;> exact ⟨_, _, rfl, by decide⟩
  | number n =>
      obtain ⟨b, rest, hbytes, hb⟩ := n.exists_bytes_eq
      refine ⟨b, rest, hbytes, ?_⟩
      rcases hb with rfl | hb
      · decide
      · simp [opensAtom, hb]
  | text body => exact ⟨_, _, rfl, by decide⟩

theorem isPassed_of_opensAtom {b : UInt8} (h : opensAtom b = true) : isPassed b = false := by
  rw [Bool.eq_false_iff]
  intro hpassed
  simp only [isPassed, isBlank, Bool.or_eq_true, decide_eq_true_eq] at hpassed
  rcases hpassed with (((rfl | rfl) | rfl) | rfl) | rfl <;> exact absurd h (by decide)

theorem byte_ne_of_opensAtom {b : UInt8} (h : opensAtom b = true) (m : Mark) : b ≠ m.byte := by
  cases m <;> rintro rfl <;> exact absurd h (by decide)

/-- The first byte of a token is not passed over, and tells the marks apart. -/
theorem Token.exists_bytes_eq (t : Token) :
    ∃ b rest, t.bytes = b :: rest ∧ isPassed b = false ∧ ∀ m : Mark, b = m.byte → t = .mark m := by
  cases t with
  | mark m =>
      refine ⟨m.byte, [], rfl, by cases m <;> decide, fun m' h => ?_⟩
      cases m <;> cases m' <;> first | rfl | exact absurd h (by decide)
  | atom a =>
      obtain ⟨b, rest, hbytes, hb⟩ := a.exists_bytes_eq
      exact ⟨b, rest, hbytes, isPassed_of_opensAtom hb, fun m h => absurd h (byte_ne_of_opensAtom hb m)⟩

theorem Token.eq_mark {t : Token} {m : Mark} {tail : Bytes} (h : t.bytes = m.byte :: tail) :
    t = .mark m ∧ tail = [] := by
  obtain ⟨b, tail', hbytes, -, hmark⟩ := t.exists_bytes_eq
  obtain ⟨rfl, rfl⟩ := List.cons.inj (h.symm.trans hbytes)
  obtain rfl := hmark m rfl
  cases hbytes
  exact ⟨rfl, rfl⟩

theorem Token.eq_text {t : Token} {tail : Bytes} (h : t.bytes = quote :: tail) :
    ∃ body, t = .atom (.text body) := by
  match t with
  | .mark m => cases m <;> cases h
  | .atom .null => cases h
  | .atom (.bool b) => cases b <;> cases h
  | .atom (.number n) => exact absurd h (n.bytes_ne (by decide) tail)
  | .atom (.text body) => exact ⟨body, rfl⟩

/-- The bytes that open no string and no comment and end no item, as those of numbers and the blanks. -/
structure Quiet (b : UInt8) : Prop where
  ne_quote : b ≠ quote
  ne_slash : b ≠ slash
  ne_comma : b ≠ comma

instance (b : UInt8) : Decidable (Quiet b) :=
  decidable_of_iff (b ≠ quote ∧ b ≠ slash ∧ b ≠ comma)
    ⟨fun ⟨hquote, hslash, hcomma⟩ => ⟨hquote, hslash, hcomma⟩,
      fun h => ⟨h.ne_quote, h.ne_slash, h.ne_comma⟩⟩

theorem quiet_of_isNumeric {b : UInt8} (h : isNumeric b = true) : Quiet b := by
  refine ⟨?_, ?_, ?_⟩ <;> rintro rfl <;> exact absurd h (by decide)

theorem quiet_of_isBlank {b : UInt8} (h : isBlank b = true) : Quiet b := by
  refine ⟨?_, ?_, ?_⟩ <;> rintro rfl <;> exact absurd h (by decide)

/-- What tokens other than strings and the comma are made of. -/
theorem Token.quiet_or (t : Token) :
    (∀ b ∈ t.bytes, Quiet b) ∨ (∃ body, t = .atom (.text body)) ∨ t = .mark .comma := by
  match t with
  | .mark m =>
      by_cases hm : m = .comma
      · exact .inr (.inr (congrArg Token.mark hm))
      · refine .inl (List.forall_mem_singleton.mpr ?_)
        cases m <;> first | decide | exact absurd rfl hm
  | .atom .null => exact .inl (List.all_iff_forall_prop.mp (by decide))
  | .atom (.bool b) => exact .inl (List.all_iff_forall_prop.mp (by cases b <;> decide))
  | .atom (.number n) => exact .inl fun b hb => quiet_of_isNumeric (n.isNumeric b hb)
  | .atom (.text body) => exact .inr (.inl ⟨body, rfl⟩)

/-! ## Lexemes -/

/-- A token, or a comma that is none: the one after the last item of a list or object. -/
inductive Lexeme where
  | token (t : Token)
  | trailingComma

namespace Lexeme

def bytes : Lexeme → Bytes
  | .token t => t.bytes
  | .trailingComma => [comma]

/-- The token, if it is one. -/
def token? : Lexeme → Option Token
  | .token t => some t
  | .trailingComma => none

/-- Whether this is a closing bracket or brace. -/
def isClose : Lexeme → Bool
  | .token (.mark .closeList) => true
  | .token (.mark .closeObject) => true
  | _ => false

/-- Whether this is a value by itself. -/
def isAtom : Lexeme → Bool
  | .token (.atom _) => true
  | _ => false

/-- What may follow what: a closing mark after no comma but a trailing one, and no two values at once. -/
structure Fits (l next : Lexeme) : Prop where
  comma : l = .token (.mark .comma) → next.isClose = false
  trailing : l = .trailingComma → next.isClose = true
  atom : l.isAtom = true → next.isAtom = false

end Lexeme

/-! ## Values -/

/-- A value as it is written: lists and objects may have a comma after their last item, if there is one. -/
inductive Written where
  | atom (a : Atom)
  | list (items : List Written) (trailing : Bool)
  | object (members : List (Body × Written)) (trailing : Bool)

namespace Written

/-- The end of a list or object. -/
def ending (trailing : Bool) (close : Mark) : List Lexeme :=
  (if trailing then [.trailingComma] else []) ++ [.token (.mark close)]

mutual

/-- The lexemes of a value. -/
def lexemes : Written → List Lexeme
  | .atom a => [.token (.atom a)]
  | .list [] _ => [.token (.mark .openList), .token (.mark .closeList)]
  | .list (item :: items) trailing =>
    .token (.mark .openList) :: (lexemes item ++ moreItems trailing items)
  | .object [] _ => [.token (.mark .openObject), .token (.mark .closeObject)]
  | .object ((key, value) :: members) trailing =>
    .token (.mark .openObject) :: .token (.atom (.text key)) :: .token (.mark .colon) ::
      (lexemes value ++ moreMembers trailing members)

/-- The lexemes of a list after its first item. -/
def moreItems (trailing : Bool) : List Written → List Lexeme
  | [] => ending trailing .closeList
  | item :: items => .token (.mark .comma) :: (lexemes item ++ moreItems trailing items)

/-- The lexemes of an object after its first member. -/
def moreMembers (trailing : Bool) : List (Body × Written) → List Lexeme
  | [] => ending trailing .closeObject
  | (key, value) :: members =>
    .token (.mark .comma) :: .token (.atom (.text key)) :: .token (.mark .colon) ::
      (lexemes value ++ moreMembers trailing members)

end

/-- The tokens of a value. -/
def tokens (w : Written) : List Token := w.lexemes.filterMap Lexeme.token?

/-- The value in strict JSON, with nothing between its tokens. -/
def strict (w : Written) : Bytes := w.tokens.flatMap Token.bytes

/-! ## The lexemes of a value fit -/

/-- Lexemes that fit one another, with something known of the first and of the last one. -/
structure Run (first last : Lexeme → Prop) (ls : List Lexeme) : Prop where
  isChain : ls.IsChain Lexeme.Fits
  head : ∃ l ∈ ls.head?, first l
  last : ∃ l ∈ ls.getLast?, last l

/-- Lexemes that may stand where a value is wanted. -/
abbrev IsValue : List Lexeme → Prop :=
  Run (fun l => l.isClose = false) fun l => l.isAtom = true ∨ l.isClose = true

/-- Lexemes that may follow a value, up to the end of the list or object around it. -/
abbrev IsRest : List Lexeme → Prop := Run (fun l => l.isAtom = false) fun l => l.isClose = true

section

variable {first last first' last' : Lexeme → Prop} {ls ls' : List Lexeme}

theorem Run.cons {l : Lexeme} (hl : first' l) (hfits : ∀ next, first next → l.Fits next)
    (h : Run first last ls) : Run first' last (l :: ls) := by
  obtain ⟨next, hnext, hfirst⟩ := h.head
  obtain ⟨rest, rfl⟩ := List.head?_eq_some_iff.mp hnext
  refine ⟨List.isChain_cons_cons.mpr ⟨hfits next hfirst, h.isChain⟩, ⟨l, rfl, hl⟩, ?_⟩
  rw [List.getLast?_cons_cons]
  exact h.last

theorem Run.append (h : Run first last ls) (h' : Run first' last' ls')
    (hfits : ∀ l next, last l → first' next → l.Fits next) : Run first last' (ls ++ ls') := by
  obtain ⟨l, hl, hlast⟩ := h.last
  obtain ⟨next, hnext, hfirst⟩ := h'.head
  obtain ⟨head, hhead, hfirst'⟩ := h.head
  refine ⟨List.isChain_append.mpr ⟨h.isChain, h'.isChain, ?_⟩, ⟨head, ?_, hfirst'⟩, ?_⟩
  · intro x hx y hy
    rw [Option.mem_unique hx hl, Option.mem_unique hy hnext]
    exact hfits l next hlast hfirst
  · exact List.mem_head?_append_of_mem_head? hhead
  · obtain ⟨rest, rfl⟩ := List.head?_eq_some_iff.mp hnext
    rw [List.getLast?_append_of_ne_nil ls (List.cons_ne_nil next rest)]
    exact h'.last

end

/-- Where a value has ended, everything fits but a value. -/
theorem fits_of_value {l next : Lexeme} (h : l.isAtom = true ∨ l.isClose = true)
    (hnext : next.isAtom = false) : l.Fits next := by
  refine ⟨?_, ?_, fun _ => hnext⟩ <;> rintro rfl <;> simp [Lexeme.isAtom, Lexeme.isClose] at h

/-- After a comma everything fits but a closing mark. -/
theorem fits_of_comma {next : Lexeme} (h : next.isClose = false) :
    Lexeme.Fits (.token (.mark .comma)) next :=
  ⟨fun _ => h, nofun, nofun⟩

/-- After the other marks everything fits. -/
theorem fits_of_mark {m : Mark} (h : m ≠ .comma) (next : Lexeme) :
    Lexeme.Fits (.token (.mark m)) next := by
  refine ⟨fun heq => ?_, nofun, nofun⟩
  cases heq
  exact absurd rfl h

theorem isRest_ending (trailing : Bool) {close : Mark}
    (h : Lexeme.isClose (.token (.mark close)) = true) : IsRest (ending trailing close) := by
  have hclose : IsRest [.token (.mark close)] := ⟨List.isChain_singleton _, ⟨_, rfl, rfl⟩, ⟨_, rfl, h⟩⟩
  cases trailing with
  | false => exact hclose
  | true =>
      exact ⟨List.isChain_cons_cons.mpr ⟨⟨nofun, fun _ => h, nofun⟩, hclose.isChain⟩, ⟨_, rfl, rfl⟩,
        ⟨_, rfl, h⟩⟩

/-- A value and the rest of the list around it. -/
theorem IsValue.rest {v r : List Lexeme} (hv : IsValue v) (hr : IsRest r) :
    Run (fun l => l.isClose = false) (fun l => l.isClose = true) (v ++ r) :=
  hv.append hr fun _ _ => fits_of_value

/-- A member and the rest of the object around it. -/
theorem IsValue.member {v r : List Lexeme} (hv : IsValue v) (hr : IsRest r) (key : Body) :
    Run (fun l => l.isClose = false) (fun l => l.isClose = true)
      (.token (.atom (.text key)) :: .token (.mark .colon) :: (v ++ r)) := by
  have hcolon : IsRest (.token (.mark .colon) :: (v ++ r)) :=
    (hv.rest hr).cons rfl fun next _ => fits_of_mark (by decide) next
  exact hcolon.cons rfl fun _ => fits_of_value (.inl rfl)

/-- An opening mark and what is up to the closing one. -/
theorem isValue_cons {m : Mark} {ls : List Lexeme} (hm : m = .openList ∨ m = .openObject)
    (h : Run (fun l => l.isClose = false) (fun l => l.isClose = true) ls) :
    IsValue (.token (.mark m) :: ls) := by
  have hcomma : m ≠ .comma := by rcases hm with rfl | rfl <;> decide
  have hclose : Lexeme.isClose (.token (.mark m)) = false := by rcases hm with rfl | rfl <;> rfl
  have hrun : Run (fun l => l.isClose = false) (fun l => l.isClose = true) (.token (.mark m) :: ls) :=
    h.cons hclose fun next _ => fits_of_mark hcomma next
  exact ⟨hrun.isChain, hrun.head, hrun.last.imp fun l hl => ⟨hl.1, .inr hl.2⟩⟩

mutual

/-- The lexemes of a value. -/
theorem isValue_lexemes : ∀ w : Written, IsValue w.lexemes
  | .atom a => ⟨List.isChain_singleton _, ⟨_, rfl, rfl⟩, ⟨_, rfl, .inl rfl⟩⟩
  | .list [] _ => ⟨List.isChain_pair.mpr (fits_of_mark (by decide) _), ⟨_, rfl, rfl⟩, ⟨_, rfl, .inr rfl⟩⟩
  | .list (item :: items) trailing =>
      isValue_cons (.inl rfl) ((isValue_lexemes item).rest (isRest_moreItems trailing items))
  | .object [] _ => ⟨List.isChain_pair.mpr (fits_of_mark (by decide) _), ⟨_, rfl, rfl⟩, ⟨_, rfl, .inr rfl⟩⟩
  | .object ((key, value) :: members) trailing =>
      isValue_cons (.inr rfl) ((isValue_lexemes value).member (isRest_moreMembers trailing members) key)

theorem isRest_moreItems (trailing : Bool) : ∀ items, IsRest (moreItems trailing items)
  | [] => isRest_ending trailing rfl
  | item :: items =>
      ((isValue_lexemes item).rest (isRest_moreItems trailing items)).cons rfl fun _ => fits_of_comma

theorem isRest_moreMembers (trailing : Bool) : ∀ members, IsRest (moreMembers trailing members)
  | [] => isRest_ending trailing rfl
  | (key, value) :: members =>
      ((isValue_lexemes value).member (isRest_moreMembers trailing members) key).cons rfl
        fun _ => fits_of_comma

end

end Written

end ConfigChain.Json

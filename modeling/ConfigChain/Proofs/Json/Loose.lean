import ConfigChain.Proofs.Json.Kinds
import ConfigChain.Proofs.Json.Relaxed

/-! # Commas that stand alone

A loose document is one in which lists and objects may also hold nothing but a comma. The second pass looks only at what
comes after a comma, so it blanks these as well as the trailing ones, and readers that do not see blanks read a loose
document as its value. -/

namespace ConfigChain.Json

/-! ## Commas without items -/

/-- Whether this is an opening bracket or brace. -/
def Lexeme.isOpen : Lexeme → Bool
  | .token (.mark .openList) => true
  | .token (.mark .openObject) => true
  | _ => false

/-- The second lexemes are the first ones and some commas, each between an opening mark and a closing one. -/
inductive Loosened : List Lexeme → List Lexeme → Prop where
  | nil : Loosened [] []
  | cons (l : Lexeme) {ls ls' : List Lexeme} (h : Loosened ls ls') : Loosened (l :: ls) (l :: ls')
  | lone {o c : Lexeme} (ho : o.isOpen = true) (hc : c.isClose = true) {ls ls' : List Lexeme}
      (h : Loosened ls ls') : Loosened (o :: c :: ls) (o :: .trailingComma :: c :: ls')

section

variable {ls ls' ms ms' : List Lexeme}

theorem Loosened.refl : ∀ ls, Loosened ls ls
  | [] => .nil
  | l :: ls => .cons l (refl ls)

theorem Loosened.append (h : Loosened ls ls') (h' : Loosened ms ms') : Loosened (ls ++ ms) (ls' ++ ms') := by
  induction h with
  | nil => exact h'
  | cons l _ ih => exact .cons l ih
  | lone ho hc _ ih => exact .lone ho hc ih

theorem Loosened.head?_eq (h : Loosened ls ls') : ls'.head? = ls.head? := by
  cases h <;> rfl

theorem Loosened.getLast?_eq (h : Loosened ls ls') : ls'.getLast? = ls.getLast? := by
  induction h with
  | nil => rfl
  | cons l _ ih => rw [List.getLast?_cons, List.getLast?_cons, ih]
  | lone _ _ _ ih => simp only [List.getLast?_cons, ih, Option.getD_some]

theorem Loosened.tokens_eq (h : Loosened ls ls') : ls'.filterMap Lexeme.token? = ls.filterMap Lexeme.token? := by
  induction h with
  | nil => rfl
  | cons l _ ih => rw [List.filterMap_cons, List.filterMap_cons, ih]
  | lone _ _ _ ih =>
      simp only [List.filterMap_cons, ih]
      rfl

theorem Lexeme.exists_mark_of_isOpen {l : Lexeme} (h : l.isOpen = true) :
    ∃ m, l = .token (.mark m) ∧ m ≠ .comma := by
  match l with
  | .token (.mark m) => exact ⟨m, rfl, by rintro rfl; cases h⟩
  | .token (.atom a) => cases h
  | .trailingComma => cases h

theorem Loosened.isChain_fits (h : Loosened ls ls') (hfits : ls.IsChain Lexeme.Fits) : ls'.IsChain Lexeme.Fits := by
  induction h with
  | nil => exact hfits
  | cons l h ih =>
      obtain ⟨hfirst, hrest⟩ := List.isChain_cons.mp hfits
      exact List.isChain_cons.mpr ⟨h.head?_eq ▸ hfirst, ih hrest⟩
  | lone ho hc h ih =>
      obtain ⟨-, hclose⟩ := List.isChain_cons_cons.mp hfits
      obtain ⟨hnext, hrest⟩ := List.isChain_cons.mp hclose
      obtain ⟨m, rfl, hm⟩ := Lexeme.exists_mark_of_isOpen ho
      have hloose := List.isChain_cons.mpr ⟨h.head?_eq ▸ hnext, ih hrest⟩
      exact .cons_cons (Written.fits_of_mark hm _) (.cons_cons ⟨nofun, fun _ => hc, nofun⟩ hloose)

/-! ## Commas behind items -/

/-- A comma, trailing or not, stands behind the end of an item. -/
def Lexeme.Trails (l next : Lexeme) : Prop := next.bytes = [comma] → l.isAtom = true ∨ l.isClose = true

theorem Written.head?_lexemes_ne_comma (w : Written) : ∀ l ∈ w.lexemes.head?, l.bytes ≠ [comma] := by
  match w with
  | .atom a =>
      rintro _ ⟨⟩
      obtain ⟨b, rest, hbytes, hb⟩ := a.exists_bytes_eq
      intro heq
      have hcomma : b = comma := (List.cons.inj (hbytes.symm.trans heq)).1
      exact byte_ne_of_opensAtom hb .comma hcomma
  | .list [] _ | .list (_ :: _) _ | .object [] _ | .object (_ :: _) _ =>
      rintro _ ⟨⟩
      decide

/-- A value and what follows it, behind anything. -/
theorem isChain_trails_value {l : Lexeme} {w : Written} {r : List Lexeme} (hw : w.lexemes.IsChain Lexeme.Trails)
    (hr : r.IsChain Lexeme.Trails) : (l :: (w.lexemes ++ r)).IsChain Lexeme.Trails := by
  have hlast : ∀ x ∈ w.lexemes.getLast?, ∀ y ∈ r.head?, x.Trails y := by
    intro x hx y _ _
    obtain ⟨x', hx', hends⟩ := (Written.isValue_lexemes w).last
    rwa [Option.mem_unique hx hx']
  refine List.isChain_cons.mpr ⟨fun next hnext hcomma => ?_, List.isChain_append.mpr ⟨hw, hr, hlast⟩⟩
  obtain ⟨first, hfirst, -⟩ := (Written.isValue_lexemes w).head
  rw [Option.mem_unique hnext (List.mem_head?_append_of_mem_head? hfirst)] at hcomma
  exact absurd hcomma (w.head?_lexemes_ne_comma first hfirst)

theorem isChain_trails_ending (trailing : Bool) {close : Mark} (h : [close.byte] ≠ [comma]) :
    (Written.ending trailing close).IsChain Lexeme.Trails := by
  cases trailing with
  | false => exact List.isChain_singleton _
  | true => exact List.isChain_pair.mpr fun hcomma => absurd hcomma h

mutual

theorem isChain_trails_lexemes : ∀ w : Written, w.lexemes.IsChain Lexeme.Trails
  | .atom _ => List.isChain_singleton _
  | .list [] _ => List.isChain_pair.mpr nofun
  | .list (item :: items) trailing =>
      isChain_trails_value (isChain_trails_lexemes item) (isChain_trails_moreItems trailing items)
  | .object [] _ => List.isChain_pair.mpr nofun
  | .object ((_, value) :: members) trailing =>
      .cons_cons nofun (.cons_cons nofun
        (isChain_trails_value (isChain_trails_lexemes value) (isChain_trails_moreMembers trailing members)))

theorem isChain_trails_moreItems (trailing : Bool) :
    ∀ items, (Written.moreItems trailing items).IsChain Lexeme.Trails
  | [] => isChain_trails_ending trailing (by decide)
  | item :: items => isChain_trails_value (isChain_trails_lexemes item) (isChain_trails_moreItems trailing items)

theorem isChain_trails_moreMembers (trailing : Bool) :
    ∀ members, (Written.moreMembers trailing members).IsChain Lexeme.Trails
  | [] => isChain_trails_ending trailing (by decide)
  | (_, value) :: members =>
      .cons_cons nofun (.cons_cons nofun
        (isChain_trails_value (isChain_trails_lexemes value) (isChain_trails_moreMembers trailing members)))

end

/-- Only the commas that stand alone are not behind an item. -/
theorem Loosened.isChain_trails_iff {w : Written} (h : Loosened w.lexemes ls) :
    ls.IsChain Lexeme.Trails ↔ ls = w.lexemes := by
  refine ⟨fun htrails => ?_, fun heq => heq ▸ isChain_trails_lexemes w⟩
  generalize w.lexemes = ls₀ at h
  induction h with
  | nil => rfl
  | cons l _ ih => rw [ih (List.isChain_cons.mp htrails).2]
  | lone ho _ _ _ =>
      -- What the comma stands behind is an opening mark, the end of no item.
      obtain ⟨m, rfl, -⟩ := Lexeme.exists_mark_of_isOpen ho
      rcases (List.isChain_cons_cons.mp htrails).1 rfl with hatom | hclose
      · cases hatom
      · cases m <;> cases ho <;> cases hclose

end

/-! ## Loose documents -/

/-- Neither lines with comments nor block comments. -/
def AreBlanks (gap : List Filler) : Prop := ∀ f ∈ gap, ∃ b h, f = .blank b h

/-- A value with what stands before each of its lexemes and after the last one. Lists and objects without items may hold
a comma. -/
structure Loose where
  value : Written
  filled : List (List Filler × Lexeme)
  loosened : Loosened value.lexemes (filled.map Prod.snd)
  last : List Filler

namespace Loose

variable (d : Loose)

def written : Bytes :=
  (d.filled.flatMap fun p => p.1.flatMap Filler.written ++ p.2.bytes) ++ d.last.flatMap Filler.written

/-- The text with its trailing commas and those that stand alone blanked. -/
def blanked : Bytes :=
  (d.filled.flatMap fun p => p.1.flatMap Filler.blanked ++ p.2.blanked) ++ d.last.flatMap Filler.blanked

/-- There are no comments. -/
structure IsBare : Prop where
  filled : ∀ p ∈ d.filled, AreBlanks p.1
  last : AreBlanks d.last

theorem fits : (d.filled.map Prod.snd).IsChain Lexeme.Fits :=
  d.loosened.isChain_fits (Written.isValue_lexemes d.value).isChain

theorem last_ne_trailingComma : ∀ l ∈ (d.filled.map Prod.snd).getLast?, l ≠ .trailingComma :=
  d.loosened.getLast?_eq ▸ d.value.getLast?_ne_trailingComma

variable {d}

theorem plain_eq {text : Bytes} (h : d.written = withoutMark text) : plain text = d.blanked := by
  have hlast : blankComments (.plain .outside) (d.last.flatMap Filler.written) = d.last.flatMap Filler.blanked := by
    simpa [blankComments] using blankComments_fillers d.last []
  rw [plain, ← h, written, blankComments_filled, hlast,
    blankCommas_filled d.fits d.last_ne_trailingComma (isBlank_fillers d.last), blanked]

theorem spells_blanked : Spells d.value.tokens d.blanked := by
  have h := spells_filled d.fits (isBlank_fillers d.last)
  rwa [d.loosened.tokens_eq] at h

/-- The comma alone is not seen, no more than the trailing one. -/
theorem relaxed_eq {α : Type} {reader : Reader α} (hblind : Blind reader) {text : Bytes}
    (h : d.written = withoutMark text) :
    (reader.relaxed text).toOption = (reader.whole d.value.strict).toOption := by
  rw [Reader.relaxed, plain_eq h]
  exact hblind.whole_eq d.spells_blanked d.value.spells_strict

/-- Where no comma stands alone, there is a document. -/
theorem isChain_trails_iff {text : Bytes} (h : d.written = withoutMark text) :
    (d.filled.map Prod.snd).IsChain Lexeme.Trails ↔
      ∃ d' : Document, d'.written = text ∧ d'.filled = d.filled ∧ d'.last = d.last ∧ d'.comment = none := by
  refine ⟨fun htrails => ?_, ?_⟩
  · have hlexemes := d.loosened.isChain_trails_iff.mp htrails
    have hwritten (marked : Bool) : Document.written ⟨marked, d.value, d.filled, hlexemes, d.last, none⟩ =
        (if marked then mark else []) ++ withoutMark text := by
      simp [Document.written, ← h, written]
    rcases append_withoutMark text with hs | hs
    · exact ⟨_, (hwritten false).trans hs.symm, rfl, rfl, rfl⟩
    · exact ⟨_, (hwritten true).trans hs.symm, rfl, rfl, rfl⟩
  · rintro ⟨d', -, hfilled, -, -⟩
    rw [← hfilled, d'.lexemes_eq]
    exact isChain_trails_lexemes d'.value

end Loose

/-! ## No document has a comma that stands alone -/

/-- No filler begins as a mark does. -/
theorem Filler.written_ne (f : Filler) (m : Mark) (s : Bytes) : f.written ≠ m.byte :: s := by
  cases f with
  | blank b h =>
      rintro ⟨⟩
      cases m <;> cases h
  | line c => cases m <;> nofun
  | block c => cases m <;> nofun

theorem Lexeme.bytes_append_eq_mark {l : Lexeme} {m : Mark} {s u : Bytes} (h : l.bytes ++ u = m.byte :: s) :
    l.bytes = [m.byte] ∧ u = s := by
  cases l with
  | trailingComma =>
      obtain ⟨hb, rfl⟩ := List.cons.inj h
      exact ⟨congrArg (· :: []) hb, rfl⟩
  | token t =>
      obtain ⟨b, rest, hbytes, -, hmark⟩ := t.exists_bytes_eq
      simp only [bytes, hbytes, List.cons_append, List.cons.injEq] at h
      obtain rfl := hmark m h.1
      obtain ⟨-, rfl⟩ := List.cons.inj hbytes
      exact ⟨rfl, h.2⟩

theorem Lexeme.eq_mark_of_bytes {l : Lexeme} {m : Mark} (hm : m ≠ .comma) (h : l.bytes = [m.byte]) :
    l = .token (.mark m) := by
  cases l with
  | trailingComma => cases m <;> first | exact absurd rfl hm | cases h
  | token t => rw [(Token.eq_mark h).1]

theorem filled_eq_mark {filled : List (List Filler × Lexeme)} {tail s : Bytes} {m : Mark}
    (htail : ∀ u, tail ≠ m.byte :: u)
    (h : (filled.flatMap fun p => p.1.flatMap Filler.written ++ p.2.bytes) ++ tail = m.byte :: s) :
    ∃ l rest, filled = ([], l) :: rest ∧ l.bytes = [m.byte] ∧
      (rest.flatMap fun p => p.1.flatMap Filler.written ++ p.2.bytes) ++ tail = s := by
  match filled with
  | [] => exact absurd h (htail s)
  | (f :: gap, l) :: rest =>
      obtain ⟨b, u, hwritten, -⟩ := f.exists_written_eq
      simp only [List.flatMap_cons, hwritten, List.cons_append, List.cons.injEq] at h
      exact absurd (h.1 ▸ hwritten) (f.written_ne m u)
  | ([], l) :: rest =>
      rw [List.flatMap_cons, List.flatMap_nil, List.nil_append, List.append_assoc] at h
      obtain ⟨hbytes, hrest⟩ := Lexeme.bytes_append_eq_mark h
      exact ⟨l, rest, rfl, hbytes, hrest⟩

namespace Document

variable (d : Document)

theorem tail_ne_mark (m : Mark) (s : Bytes) :
    d.last.flatMap Filler.written ++ d.comment.elim [] LineComment.written ≠ m.byte :: s := by
  cases d.last with
  | nil =>
      cases d.comment with
      | none => nofun
      | some c => cases m <;> nofun
  | cons f last =>
      obtain ⟨b, u, hwritten, -⟩ := f.exists_written_eq
      intro h
      simp only [List.flatMap_cons, hwritten, List.cons_append, List.cons.injEq] at h
      exact f.written_ne m u (h.1 ▸ hwritten)

/-- A comma is never the first thing in a document that begins with an opening mark. -/
theorem written_ne_lone_comma {m : Mark} (hm : m = .openList ∨ m = .openObject) (s : Bytes) :
    d.written ≠ m.byte :: comma :: s := by
  intro h
  have hmark : withoutMark d.written = m.byte :: comma :: s := by
    rw [h]
    rcases hm with rfl | rfl <;> rfl
  rw [d.withoutMark_written] at hmark
  obtain ⟨l, _, hfilled, hl, hrest⟩ := filled_eq_mark (d.tail_ne_mark m) hmark
  obtain ⟨l', rest, rfl, hl', -⟩ := filled_eq_mark (m := .comma) (d.tail_ne_mark .comma) hrest
  have htrails := d.lexemes_eq ▸ isChain_trails_lexemes d.value
  rw [hfilled] at htrails
  have hcomma : m ≠ .comma := by rcases hm with rfl | rfl <;> decide
  obtain rfl := Lexeme.eq_mark_of_bytes hcomma hl
  rcases (List.isChain_cons_cons.mp htrails).1 hl' with hatom | hclose
  · cases hatom
  · rcases hm with rfl | rfl <;> cases hclose

end Document

end ConfigChain.Json

import ConfigChain.Proofs.Json.Kinds
import Mathlib.Data.List.Forall2

/-! # What blanking takes out

Stretch by stretch: strings stay, comments turn into spaces and line ends, and of the bytes outside only a comma can be
lost. Both passes see the same strings, since the first one leaves nothing of a comment that the second could mistake.
Only behind an opened block comment that is never closed they may differ. -/

namespace ConfigChain.Json

/-! ## Comments -/

theorem blankComments_code {b : UInt8} {s : Bytes} (hquote : b ≠ quote)
    (hslash : b = slash → s.head? ≠ some slash ∧ s.head? ≠ some star) :
    blankComments (.plain .outside) (b :: s) = b :: blankComments (.plain .outside) s := by
  have houtside : Quoting.outside.after b = .outside := if_neg hquote
  rw [blankComments, if_neg fun h => (hslash h.2.1).1 h.2.2, if_neg fun h => (hslash h.2.1).2 h.2.2, houtside]

theorem blankComments_openBody {t : Bytes} (h : IsOpenBody t) : blankComments (.plain .inside) t = t := by
  induction h with
  | nil => rfl
  | backslash => rfl
  | escaped b _ ih => simp [blankComments, Quoting.after, ih]
  | cons hquote hbackslash _ ih => simp [blankComments, Quoting.after, hquote, hbackslash, ih]

theorem blankComments_lineComment (c : LineComment) {s : Bytes} (hs : ∀ b ∈ s.head?, b = newline) :
    blankComments (.plain .outside) (c.written ++ s) = c.written.map blank ++ blankComments (.plain .outside) s := by
  cases s with
  | nil => simpa [blankComments] using c.blankComments_written
  | cons b s =>
      obtain rfl := hs b rfl
      rw [LineComment.written, List.cons_append, List.cons_append, blankComments_slash_slash,
        blankComments_line_newline c.newline_not_mem]
      rfl

theorem blankComments_blockComment (c : BlockComment) (s : Bytes) :
    blankComments (.plain .outside) (c.written ++ s) = c.written.map blank ++ blankComments (.plain .outside) s :=
  Filler.blankComments_written (.block c) s

theorem closes_eq_true_iff (t : Bytes) : closes t = true ↔ [star, slash] <:+: t := by
  induction t with
  | nil => simp [closes]
  | cons b t ih => simp [closes, infix_closer_cons_iff, ih]

theorem blankComments_openBlock {t : Bytes} (h : ¬ [star, slash] <:+: t) :
    blankComments (.plain .outside) (slash :: star :: t) = slash :: star :: t := by
  have hopen : blankComments (.plain .outside) (slash :: star :: t) =
      if closes t then space :: blankComments .opening (star :: t) else slash :: star :: t := rfl
  rw [hopen, if_neg fun hcloses => h ((closes_eq_true_iff t).mp hcloses)]

theorem blankCommas_openBody {t : Bytes} (h : IsOpenBody t) : blankCommas .inside t = t := by
  induction h with
  | nil => rfl
  | backslash => rfl
  | escaped b _ ih => simp [blankCommas, Quoting.after, ih]
  | cons hquote hbackslash _ ih => simp [blankCommas, Quoting.after, hquote, hbackslash, ih]

theorem blankCommas_code {b : UInt8} (hquote : b ≠ quote) (s : Bytes) :
    blankCommas .outside (b :: s) =
      (if b = comma ∧ beforeClose s then space else b) :: blankCommas .outside s := by
  have houtside : Quoting.outside.after b = .outside := if_neg hquote
  simp only [blankCommas, houtside, true_and]

/-! ## Both passes -/

/-- A text after both passes. -/
def cleaned (s : Bytes) : Bytes := blankCommas .outside (blankComments (.plain .outside) s)

theorem cleaned_code {b : UInt8} {s : Bytes} (hquote : b ≠ quote)
    (hslash : b = slash → s.head? ≠ some slash ∧ s.head? ≠ some star) :
    cleaned (b :: s) =
      (if b = comma ∧ beforeClose (blankComments (.plain .outside) s) then space else b) :: cleaned s := by
  rw [cleaned, blankComments_code hquote hslash, blankCommas_code hquote]
  rfl

theorem cleaned_quoted (body : Body) (s : Bytes) : cleaned (body.quoted ++ s) = body.quoted ++ cleaned s := by
  rw [cleaned, blankComments_quoted, blankCommas_quoted]
  rfl

theorem cleaned_openText {t : Bytes} (h : IsOpenBody t) : cleaned (quote :: t) = quote :: t := by
  rw [cleaned, blankComments_quote, blankComments_openBody h, blankCommas_quote, blankCommas_openBody h]

theorem cleaned_line (c : LineComment) {s : Bytes} (hs : ∀ b ∈ s.head?, b = newline) :
    cleaned (c.written ++ s) = c.written.map blank ++ cleaned s := by
  rw [cleaned, blankComments_lineComment c hs, blankCommas_blanks (isBlank_map_blank _)]
  rfl

theorem cleaned_block (c : BlockComment) (s : Bytes) :
    cleaned (c.written ++ s) = c.written.map blank ++ cleaned s := by
  rw [cleaned, blankComments_blockComment, blankCommas_blanks (isBlank_map_blank _)]
  rfl

theorem cleaned_openBlock {t : Bytes} (h : ¬ [star, slash] <:+: t) :
    cleaned (slash :: star :: t) = slash :: star :: blankCommas .outside t := by
  rw [cleaned, blankComments_openBlock h, blankCommas_code (by decide), blankCommas_code (by decide)]
  rfl

/-! ## Every byte stays or becomes a space -/

/-- What may become of a byte of some kind. -/
def Spared (p : UInt8 × Kind) (c : UInt8) : Prop := c = p.1 ∨ p.2 ≠ .text ∧ p.1 ≠ newline ∧ c = space

theorem spared_self (kind : Kind) (s : Bytes) : List.Forall₂ Spared (s.map (·, kind)) s :=
  List.forall₂_map_left_iff.mpr (List.forall₂_same.mpr fun _ _ => .inl rfl)

theorem spared_map_blank (s : Bytes) : List.Forall₂ Spared (s.map (·, .comment)) (s.map blank) := by
  refine List.forall₂_map_left_iff.mpr (List.forall₂_map_right_iff.mpr (List.forall₂_same.mpr fun b _ => ?_))
  unfold blank
  split
  · exact .inl rfl
  · exact .inr ⟨nofun, ‹_›, rfl⟩

theorem spared_blankCommas (q : Quoting) (s : Bytes) :
    List.Forall₂ Spared (s.map (·, .comment)) (blankCommas q s) := by
  induction s generalizing q with
  | nil => exact .nil
  | cons b s ih =>
      refine .cons ?_ (ih _)
      split
      · rename_i h
        exact .inr ⟨nofun, by rw [h.2.1]; decide, rfl⟩
      · exact .inl rfl

theorem zip_throughout (kind : Kind) (t : Bytes) : t.zip (kind.throughout t) = t.map (·, kind) := by
  induction t with
  | nil => rfl
  | cons b t ih => simp [ih]

theorem zip_throughout_append (kind : Kind) (t s : Bytes) (kinds : List Kind) :
    (t ++ s).zip (kind.throughout t ++ kinds) = t.map (·, kind) ++ s.zip kinds := by
  rw [List.zip_append (kind.length_throughout t).symm, zip_throughout]

section

variable {s : Bytes} {kinds : List Kind} {ending : Ending}

theorem Lexed.spared_cleaned (h : Lexed s kinds ending) : List.Forall₂ Spared (s.zip kinds) (cleaned s) := by
  induction h with
  | nil => exact .nil
  | code hquote hslash _ ih =>
      rw [cleaned_code hquote hslash, List.zip_cons_cons]
      refine .cons ?_ ih
      split
      · rename_i h
        exact .inr ⟨nofun, by rw [h.1]; decide, rfl⟩
      · exact .inl rfl
  | text body _ ih =>
      rw [cleaned_quoted, zip_throughout_append]
      exact List.rel_append (spared_self _ _) ih
  | openText h =>
      rw [cleaned_openText h, zip_throughout]
      exact spared_self _ _
  | line c hend _ ih =>
      rw [cleaned_line c hend, zip_throughout_append]
      exact List.rel_append (spared_map_blank _) ih
  | block c _ ih =>
      rw [cleaned_block, zip_throughout_append]
      exact List.rel_append (spared_map_blank _) ih
  | openBlock h =>
      rw [cleaned_openBlock h, zip_throughout]
      exact .cons (.inl rfl) (.cons (.inl rfl) (spared_blankCommas _ _))

/-! ## Which bytes become spaces -/

/-- Whether a byte is seen from a comma in front of it: it is neither in a comment nor a blank or form feed. -/
def isSeen (p : UInt8 × Kind) : Bool := p.2 ≠ .comment && !isPassed p.1

/-- Whether a byte with its kind becomes a space, given what follows it: a byte of a comment does unless it ends a line,
and so does a comma outside if the next byte seen from it closes an object or list. -/
def Erased (p : UInt8 × Kind) (rest : List (UInt8 × Kind)) : Prop :=
  p.2 = .comment ∧ p.1 ≠ newline ∨
    p.2 = .code ∧ p.1 = comma ∧ ∃ next ∈ rest.find? isSeen, next.1 = closeObject ∨ next.1 = closeList

instance (p : UInt8 × Kind) (rest : List (UInt8 × Kind)) : Decidable (Erased p rest) :=
  inferInstanceAs (Decidable (_ ∨ _ ∧ _ ∧ ∃ next ∈ _, _))

/-- A text with the kinds of its bytes, without the bytes that become spaces. -/
def erase : List (UInt8 × Kind) → Bytes
  | [] => []
  | p :: rest => (if Erased p rest then space else p.1) :: erase rest

theorem getElem?_erase (marked : List (UInt8 × Kind)) (i : Nat) :
    (erase marked)[i]? = marked[i]?.map fun p => if Erased p (marked.drop (i + 1)) then space else p.1 := by
  induction marked generalizing i with
  | nil => rfl
  | cons p rest ih =>
      cases i with
      | zero => rfl
      | succ i => simpa [erase] using ih i

theorem erase_text (t : Bytes) (rest : List (UInt8 × Kind)) : erase (t.map (·, .text) ++ rest) = t ++ erase rest := by
  induction t with
  | nil => rfl
  | cons b t ih => simp [erase, Erased, ih]

theorem erase_comment (t : Bytes) (rest : List (UInt8 × Kind)) :
    erase (t.map (·, .comment) ++ rest) = t.map blank ++ erase rest := by
  induction t with
  | nil => rfl
  | cons b t ih =>
      simp only [List.map_cons, List.cons_append, erase, ih]
      by_cases hb : b = newline <;> simp [Erased, blank, hb]

theorem find?_comment (t : Bytes) (rest : List (UInt8 × Kind)) :
    (t.map (·, Kind.comment) ++ rest).find? isSeen = rest.find? isSeen := by
  induction t with
  | nil => rfl
  | cons b t ih => simpa [isSeen] using ih

theorem not_sees_quote (s : Bytes) (rest : List (UInt8 × Kind)) :
    beforeClose (quote :: s) = true ↔
      ∃ next ∈ ((quote, Kind.text) :: rest).find? isSeen, next.1 = closeObject ∨ next.1 = closeList := by
  refine iff_of_false nofun ?_
  rintro ⟨_, ⟨⟩, hclose | hclose⟩ <;> exact absurd hclose (by decide)

/-- A comma sees the same behind it whether comments are passed over or have become spaces. -/
theorem Lexed.beforeClose_iff (h : Lexed s kinds ending) (hending : ending ≠ .inComment) :
    beforeClose (blankComments (.plain .outside) s) = true ↔
      ∃ next ∈ (s.zip kinds).find? isSeen, next.1 = closeObject ∨ next.1 = closeList := by
  induction h with
  | nil => simp [blankComments, beforeClose]
  | @code b s kinds _ hquote hslash _ ih =>
      rw [blankComments_code hquote hslash, List.zip_cons_cons]
      cases hpassed : isPassed b with
      | true => simpa [beforeClose, isSeen, hpassed] using ih hending
      | false => simp [beforeClose, isSeen, hpassed]
  | text body _ _ =>
      rw [blankComments_quoted, zip_throughout_append]
      exact not_sees_quote _ _
  | openText h =>
      rw [blankComments_quote, blankComments_openBody h, zip_throughout]
      exact not_sees_quote _ _
  | line c hend _ ih =>
      rw [blankComments_lineComment c hend, beforeClose_blanks (isBlank_map_blank _), zip_throughout_append,
        find?_comment]
      exact ih hending
  | block c _ ih =>
      rw [blankComments_blockComment, beforeClose_blanks (isBlank_map_blank _), zip_throughout_append, find?_comment]
      exact ih hending
  | openBlock _ => exact absurd rfl hending

theorem Lexed.cleaned_eq_erase (h : Lexed s kinds ending) (hending : ending ≠ .inComment) :
    cleaned s = erase (s.zip kinds) := by
  induction h with
  | nil => rfl
  | code hquote hslash h ih =>
      rw [cleaned_code hquote hslash, ih hending, List.zip_cons_cons, erase]
      simp only [h.beforeClose_iff hending, Erased, reduceCtorEq, false_and, true_and, false_or]
  | text body _ ih => rw [cleaned_quoted, ih hending, zip_throughout_append, erase_text]
  | @openText t h =>
      have herase := erase_text (quote :: t) []
      rw [List.append_nil, erase, List.append_nil] at herase
      rw [cleaned_openText h, zip_throughout, herase]
  | line c hend _ ih => rw [cleaned_line c hend, ih hending, zip_throughout_append, erase_comment]
  | block c _ ih => rw [cleaned_block, ih hending, zip_throughout_append, erase_comment]
  | openBlock _ => exact absurd rfl hending

/-! ## Position by position -/

/-- What has been taken out of a text with the kinds of its bytes. Which bytes these are is known unless the text ends
in a block comment. -/
structure Blanks (s : Bytes) (kinds : List Kind) (ending : Ending) (out : Bytes) : Prop where
  length_eq : out.length = s.length
  newline_iff : ∀ i : Nat, out[i]? = some newline ↔ s[i]? = some newline
  same_or_space : ∀ i : Nat, out[i]? = s[i]? ∨ out[i]? = some space
  text : ∀ i : Nat, kinds[i]? = some .text → out[i]? = s[i]?
  erased : ending ≠ .inComment → ∀ (i : Nat) p, (s.zip kinds)[i]? = some p →
    out[i]? = some (if Erased p ((s.zip kinds).drop (i + 1)) then space else p.1)

theorem Lexed.spared_at (h : Lexed s kinds ending) (i : Nat) :
    s[i]? = none ∧ kinds[i]? = none ∧ (cleaned s)[i]? = none ∨
      ∃ b kind c, s[i]? = some b ∧ kinds[i]? = some kind ∧ (cleaned s)[i]? = some c ∧ Spared (b, kind) c := by
  have hspared := h.spared_cleaned
  have hkinds : kinds.length = s.length := h.length_eq
  have hzip : (s.zip kinds).length = s.length := by rw [List.length_zip, hkinds, Nat.min_self]
  have hcleaned : (cleaned s).length = s.length := by rw [← hspared.length_eq, hzip]
  by_cases hi : i < s.length
  · have hat := hspared.get (hzip ▸ hi) (hcleaned ▸ hi)
    simp only [List.get_eq_getElem, List.getElem_zip] at hat
    exact .inr ⟨_, _, _, List.getElem?_eq_getElem hi, List.getElem?_eq_getElem (hkinds ▸ hi),
      List.getElem?_eq_getElem (hcleaned ▸ hi), hat⟩
  · exact .inl ⟨List.getElem?_eq_none (not_lt.mp hi), List.getElem?_eq_none (hkinds ▸ not_lt.mp hi),
      List.getElem?_eq_none (hcleaned ▸ not_lt.mp hi)⟩

theorem Lexed.blanks_cleaned (h : Lexed s kinds ending) : Blanks s kinds ending (cleaned s) := by
  refine ⟨?_, fun i => ?_, fun i => ?_, fun i hi => ?_, fun hending i p hp => ?_⟩
  · rw [← h.spared_cleaned.length_eq, List.length_zip, h.length_eq, Nat.min_self]
  · rcases h.spared_at i with ⟨hs, -, hc⟩ | ⟨b, kind, c, hs, -, hc, rfl | ⟨-, hnewline, rfl⟩⟩
    · rw [hs, hc]
    · rw [hs, hc]
    · rw [hs, hc]
      exact iff_of_false (by decide) fun heq => hnewline (Option.some.inj heq)
  · rcases h.spared_at i with ⟨hs, -, hc⟩ | ⟨b, kind, c, hs, -, hc, rfl | ⟨-, -, rfl⟩⟩
    · exact .inl (hc.trans hs.symm)
    · exact .inl (hc.trans hs.symm)
    · exact .inr hc
  · rcases h.spared_at i with ⟨hs, -, hc⟩ | ⟨b, kind, c, hs, hkind, hc, rfl | ⟨htext, -, -⟩⟩
    · exact hc.trans hs.symm
    · exact hc.trans hs.symm
    · exact absurd (Option.some.inj (hkind.symm.trans hi)) htext
  · rw [h.cleaned_eq_erase hending, getElem?_erase, hp]
    rfl

end

end ConfigChain.Json

import ConfigChain.Proofs.Json.Token
import Mathlib.Data.List.Infix

/-! # Documents of relaxed JSON

A document is a value with blanks and comments before and after its tokens. `plain` takes the document to
the same text with its comments and trailing commas blanked: first the comments, which no string holds,
then the commas, which then have nothing but blanks between them and the closing mark. -/

namespace ConfigChain.Json

/-! ## What stands between tokens -/

/-- A comment up to the end of its line. -/
structure LineComment where
  bytes : Bytes
  newline_not_mem : newline ∉ bytes

/-- The inside of a block comment. -/
structure BlockComment where
  bytes : Bytes
  not_infix : ¬ [star, slash] <:+: bytes

/-- A blank, a line with a comment, or a block comment. -/
inductive Filler where
  | blank (b : UInt8) (h : isBlank b = true)
  | line (comment : LineComment)
  | block (comment : BlockComment)

def LineComment.written (c : LineComment) : Bytes := slash :: slash :: c.bytes

def BlockComment.written (c : BlockComment) : Bytes := slash :: star :: (c.bytes ++ [star, slash])

namespace Filler

def written : Filler → Bytes
  | .blank b _ => [b]
  | .line comment => comment.written ++ [newline]
  | .block comment => comment.written

/-- Of a comment only the line ends are left. -/
def blanked : Filler → Bytes
  | .blank b _ => [b]
  | .line comment => comment.written.map Json.blank ++ [newline]
  | .block comment => comment.written.map Json.blank

end Filler

/-- A trailing comma is blanked. -/
def Lexeme.blanked : Lexeme → Bytes
  | .token t => t.bytes
  | .trailingComma => [space]

/-- A value with what stands before each of its lexemes and after the last one. The last line may end with
the text. -/
structure Document where
  marked : Bool
  value : Written
  filled : List (List Filler × Lexeme)
  lexemes_eq : filled.map Prod.snd = value.lexemes
  last : List Filler
  comment : Option LineComment

namespace Document

def written (d : Document) : Bytes :=
  (if d.marked then mark else []) ++
    ((d.filled.flatMap fun p => p.1.flatMap Filler.written ++ p.2.bytes) ++
      (d.last.flatMap Filler.written ++ d.comment.elim [] LineComment.written))

/-- The text without its mark, with the comments and the trailing commas blanked. -/
def blanked (d : Document) : Bytes :=
  (d.filled.flatMap fun p => p.1.flatMap Filler.blanked ++ p.2.blanked) ++
    (d.last.flatMap Filler.blanked ++ d.comment.elim [] fun c => c.written.map Json.blank)

/-- Neither a mark nor comments nor trailing commas. -/
structure IsStrict (d : Document) : Prop where
  marked : d.marked = false
  filled : ∀ p ∈ d.filled, (∀ f ∈ p.1, ∃ b h, f = .blank b h) ∧ p.2 ≠ .trailingComma
  last : ∀ f ∈ d.last, ∃ b h, f = .blank b h
  comment : d.comment = none

end Document

/-! ## Comments -/

theorem blankComments_outside {t : Bytes} (h : ∀ b ∈ t, b ≠ quote ∧ b ≠ slash) (s : Bytes) :
    blankComments (.plain .outside) (t ++ s) = t ++ blankComments (.plain .outside) s := by
  induction t with
  | nil => rfl
  | cons b t ih =>
      obtain ⟨⟨hquote, hslash⟩, ht⟩ := List.forall_mem_cons.mp h
      simp [blankComments, Quoting.after, hquote, hslash, ih ht]

theorem blankComments_quote (s : Bytes) :
    blankComments (.plain .outside) (quote :: s) = quote :: blankComments (.plain .inside) s :=
  rfl

theorem blankComments_slash_slash (s : Bytes) :
    blankComments (.plain .outside) (slash :: slash :: s) =
      space :: space :: blankComments .line s :=
  rfl

theorem blankComments_slash_star {s : Bytes} (h : closes s = true) :
    blankComments (.plain .outside) (slash :: star :: s) =
      space :: space :: blankComments .block s := by
  have hopen : blankComments (.plain .outside) (slash :: star :: s) =
      if closes s then space :: blankComments .opening (star :: s) else slash :: star :: s := rfl
  rw [hopen, if_pos h]
  rfl

theorem blankComments_body {body : Bytes} (h : IsBody body) (s : Bytes) :
    blankComments (.plain .inside) (body ++ quote :: s) =
      body ++ quote :: blankComments (.plain .outside) s := by
  induction h with
  | nil => rfl
  | escaped b _ ih => simp [blankComments, Quoting.after, ih]
  | cons hquote hbackslash _ ih => simp [blankComments, Quoting.after, hquote, hbackslash, ih]

theorem blankComments_quoted (body : Body) (s : Bytes) :
    blankComments (.plain .outside) (body.quoted ++ s) =
      body.quoted ++ blankComments (.plain .outside) s := by
  simp only [Body.quoted, List.cons_append, List.append_assoc, List.nil_append, blankComments_quote,
    blankComments_body body.isBody]

theorem blankComments_comma (s : Bytes) :
    blankComments (.plain .outside) (comma :: s) = comma :: blankComments (.plain .outside) s :=
  rfl

theorem Token.blankComments_bytes (t : Token) (s : Bytes) :
    blankComments (.plain .outside) (t.bytes ++ s) = t.bytes ++ blankComments (.plain .outside) s := by
  rcases t.quiet_or with hquiet | ⟨body, rfl⟩ | rfl
  · exact blankComments_outside (fun b hb => ⟨(hquiet b hb).ne_quote, (hquiet b hb).ne_slash⟩) s
  · exact blankComments_quoted body s
  · exact blankComments_comma s

theorem Lexeme.blankComments_bytes (l : Lexeme) (s : Bytes) :
    blankComments (.plain .outside) (l.bytes ++ s) = l.bytes ++ blankComments (.plain .outside) s := by
  cases l with
  | token t => exact t.blankComments_bytes s
  | trailingComma => exact blankComments_comma s

theorem blank_slash : blank slash = space := rfl

theorem blank_star : blank star = space := rfl

theorem blankComments_line {t : Bytes} (h : newline ∉ t) : blankComments .line t = t.map blank := by
  induction t with
  | nil => rfl
  | cons b t ih =>
      obtain ⟨hb, ht⟩ := List.ne_and_not_mem_of_not_mem_cons h
      simp [blankComments, blank, hb.symm, ih ht]

theorem blankComments_line_newline {t : Bytes} (h : newline ∉ t) (s : Bytes) :
    blankComments .line (t ++ newline :: s) =
      t.map blank ++ newline :: blankComments (.plain .outside) s := by
  induction t with
  | nil => simp [blankComments]
  | cons b t ih =>
      obtain ⟨hb, ht⟩ := List.ne_and_not_mem_of_not_mem_cons h
      simp [blankComments, blank, hb.symm, ih ht]

theorem closes_append (t s : Bytes) : closes (t ++ star :: slash :: s) = true := by
  induction t with
  | nil => simp [closes]
  | cons b t ih => simp [closes, ih]

/-- The slash in front of which a body ends is none of its own. -/
theorem head?_of_append_closer {body s : Bytes} (h : (body ++ star :: slash :: s).head? = some slash) :
    body.head? = some slash := by
  cases body with
  | nil => exact absurd (Option.some.inj h) (by decide)
  | cons b body => exact h

theorem blankComments_block {t : Bytes} (h : ¬ [star, slash] <:+: t) (s : Bytes) :
    blankComments .block (t ++ star :: slash :: s) =
      t.map blank ++ space :: space :: blankComments (.plain .outside) s := by
  induction t with
  | nil => simp [blankComments]
  | cons b t ih =>
      have ht : ¬ [star, slash] <:+: t := fun ht => h (ht.trans (List.suffix_cons b t).isInfix)
      have hb : ¬ (b = star ∧ (t ++ star :: slash :: s).head? = some slash) := by
        rintro ⟨rfl, hhead⟩
        obtain ⟨t, rfl⟩ := List.head?_eq_some_iff.mp (head?_of_append_closer hhead)
        exact h ⟨[], t, rfl⟩
      simp only [List.cons_append, blankComments, if_neg hb, ih ht, List.map_cons]

theorem LineComment.blankComments_written (c : LineComment) :
    blankComments (.plain .outside) c.written = c.written.map blank := by
  rw [LineComment.written, blankComments_slash_slash, blankComments_line c.newline_not_mem]
  rfl

theorem Filler.blankComments_written (f : Filler) (s : Bytes) :
    blankComments (.plain .outside) (f.written ++ s) = f.blanked ++ blankComments (.plain .outside) s := by
  cases f with
  | blank b h =>
      have hquiet := quiet_of_isBlank h
      exact blankComments_outside (by simpa [written] using ⟨hquiet.ne_quote, hquiet.ne_slash⟩) s
  | line c =>
      simp only [written, LineComment.written, List.cons_append, List.append_assoc, List.nil_append,
        blankComments_slash_slash, blankComments_line_newline c.newline_not_mem]
      simp [blanked, LineComment.written, blank_slash]
  | block c =>
      simp only [written, BlockComment.written, List.cons_append, List.append_assoc, List.nil_append,
        blankComments_slash_star (closes_append c.bytes s), blankComments_block c.not_infix]
      simp [blanked, BlockComment.written, blank_slash, blank_star]

theorem blankComments_fillers (gap : List Filler) (s : Bytes) :
    blankComments (.plain .outside) (gap.flatMap Filler.written ++ s) =
      gap.flatMap Filler.blanked ++ blankComments (.plain .outside) s := by
  induction gap with
  | nil => rfl
  | cons f gap ih =>
      rw [List.flatMap_cons, List.append_assoc, f.blankComments_written, ih, List.flatMap_cons,
        List.append_assoc]

theorem blankComments_filled (filled : List (List Filler × Lexeme)) (s : Bytes) :
    blankComments (.plain .outside)
        ((filled.flatMap fun p => p.1.flatMap Filler.written ++ p.2.bytes) ++ s) =
      (filled.flatMap fun p => p.1.flatMap Filler.blanked ++ p.2.bytes) ++
        blankComments (.plain .outside) s := by
  induction filled with
  | nil => rfl
  | cons p filled ih =>
      simp only [List.flatMap_cons, List.append_assoc]
      rw [blankComments_fillers, p.2.blankComments_bytes, ih]

/-! ## Trailing commas -/

theorem isBlank_map_blank (t : Bytes) : ∀ b ∈ t.map blank, isBlank b = true := by
  simp only [List.mem_map, forall_exists_index, and_imp, forall_apply_eq_imp_iff₂]
  intro b _
  unfold blank
  split
  · rename_i h
    rw [h]
    decide
  · decide

theorem Filler.isBlank_blanked (f : Filler) : ∀ b ∈ f.blanked, isBlank b = true := by
  cases f with
  | blank b h => simpa [blanked] using h
  | line c =>
      exact List.forall_mem_append.mpr ⟨isBlank_map_blank _, List.forall_mem_singleton.mpr (by decide)⟩
  | block c => exact isBlank_map_blank _

theorem isBlank_fillers (gap : List Filler) : ∀ b ∈ gap.flatMap Filler.blanked, isBlank b = true := by
  intro b hb
  obtain ⟨f, -, hf⟩ := List.mem_flatMap.mp hb
  exact f.isBlank_blanked b hf

theorem blankCommas_outside {t : Bytes} (h : ∀ b ∈ t, b ≠ quote ∧ b ≠ comma) (s : Bytes) :
    blankCommas .outside (t ++ s) = t ++ blankCommas .outside s := by
  induction t with
  | nil => rfl
  | cons b t ih =>
      obtain ⟨⟨hquote, hcomma⟩, ht⟩ := List.forall_mem_cons.mp h
      simp [blankCommas, Quoting.after, hquote, hcomma, ih ht]

theorem blankCommas_blanks {t : Bytes} (h : ∀ b ∈ t, isBlank b = true) (s : Bytes) :
    blankCommas .outside (t ++ s) = t ++ blankCommas .outside s := by
  refine blankCommas_outside (fun b hb => ?_) s
  have hquiet := quiet_of_isBlank (h b hb)
  exact ⟨hquiet.ne_quote, hquiet.ne_comma⟩

theorem blankCommas_quote (s : Bytes) :
    blankCommas .outside (quote :: s) = quote :: blankCommas .inside s :=
  rfl

theorem blankCommas_body {body : Bytes} (h : IsBody body) (s : Bytes) :
    blankCommas .inside (body ++ quote :: s) = body ++ quote :: blankCommas .outside s := by
  induction h with
  | nil => rfl
  | escaped b _ ih => simp [blankCommas, Quoting.after, ih]
  | cons hquote hbackslash _ ih => simp [blankCommas, Quoting.after, hquote, hbackslash, ih]

theorem blankCommas_quoted (body : Body) (s : Bytes) :
    blankCommas .outside (body.quoted ++ s) = body.quoted ++ blankCommas .outside s := by
  simp only [Body.quoted, List.cons_append, List.append_assoc, List.nil_append, blankCommas_quote,
    blankCommas_body body.isBody]

theorem blankCommas_comma (s : Bytes) :
    blankCommas .outside (comma :: s) =
      (if beforeClose s then space else comma) :: blankCommas .outside s := by
  have hcomma : blankCommas .outside (comma :: s) =
      (if Quoting.outside = .outside ∧ comma = comma ∧ beforeClose s then space else comma) ::
        blankCommas .outside s := rfl
  simpa using hcomma

/-- What a comma stands before: nothing, or the lexeme behind the blanks. -/
theorem beforeClose_blanks {t : Bytes} (h : ∀ b ∈ t, isBlank b = true) (s : Bytes) :
    beforeClose (t ++ s) = beforeClose s := by
  have hpassed : ∀ b ∈ t, (!isPassed b) = false := by
    intro b hb
    simp [isPassed, h b hb]
  have hfind : t.find? (fun b => !isPassed b) = none := by
    simpa using hpassed
  rw [beforeClose, beforeClose, List.find?_append, hfind, Option.none_or]

theorem Lexeme.beforeClose_bytes (l : Lexeme) (s : Bytes) : beforeClose (l.bytes ++ s) = l.isClose := by
  match l with
  | .trailingComma => rfl
  | .token (.mark m) => cases m <;> rfl
  | .token (.atom a) =>
      obtain ⟨b, rest, hbytes, hb⟩ := a.exists_bytes_eq
      have hpassed := isPassed_of_opensAtom hb
      have hlist : b ≠ closeList := byte_ne_of_opensAtom hb .closeList
      have hobject : b ≠ closeObject := byte_ne_of_opensAtom hb .closeObject
      simp [bytes, Token.bytes, hbytes, beforeClose, hpassed, hlist, hobject, isClose]

/-- A lexeme before which the right things stand. -/
theorem Lexeme.blankCommas_bytes (l : Lexeme) {s : Bytes}
    (hcomma : l = .token (.mark .comma) → beforeClose s = false)
    (htrailing : l = .trailingComma → beforeClose s = true) :
    blankCommas .outside (l.bytes ++ s) = l.blanked ++ blankCommas .outside s := by
  cases l with
  | trailingComma => simp [bytes, blanked, blankCommas_comma, htrailing rfl]
  | token t =>
      rcases t.quiet_or with hquiet | ⟨body, rfl⟩ | rfl
      · exact blankCommas_outside (fun b hb => ⟨(hquiet b hb).ne_quote, (hquiet b hb).ne_comma⟩) s
      · exact blankCommas_quoted body s
      · simp [bytes, blanked, Token.bytes, Mark.byte, blankCommas_comma, hcomma rfl]

/-- Where the lexemes fit and the last one is no trailing comma, just the trailing commas are blanked. -/
theorem blankCommas_filled {filled : List (List Filler × Lexeme)} {tail : Bytes}
    (hfits : (filled.map Prod.snd).IsChain Lexeme.Fits)
    (hlast : ∀ l ∈ (filled.map Prod.snd).getLast?, l ≠ .trailingComma)
    (htail : ∀ b ∈ tail, isBlank b = true) :
    blankCommas .outside ((filled.flatMap fun p => p.1.flatMap Filler.blanked ++ p.2.bytes) ++ tail) =
      (filled.flatMap fun p => p.1.flatMap Filler.blanked ++ p.2.blanked) ++ tail := by
  induction filled with
  | nil =>
      have h := blankCommas_blanks htail []
      simpa [blankCommas] using h
  | cons p filled ih =>
      cases filled with
      | nil =>
          have hbefore : beforeClose tail = false := by
            have h := beforeClose_blanks htail []
            rwa [List.append_nil] at h
          have hbytes := p.2.blankCommas_bytes (fun _ => hbefore) fun heq => absurd heq (hlast _ rfl)
          have hrest := ih List.isChain_nil nofun
          simp only [List.flatMap_cons, List.flatMap_nil, List.nil_append, List.append_assoc] at hrest ⊢
          rw [blankCommas_blanks (isBlank_fillers p.1), hbytes, hrest]
      | cons q filled =>
          obtain ⟨hpq, hq⟩ := List.isChain_cons_cons.mp hfits
          have hrest := ih hq (by simpa [List.getLast?_cons_cons] using hlast)
          generalize hs : ((q :: filled).flatMap fun p => p.1.flatMap Filler.blanked ++ p.2.bytes) ++ tail = s
            at hrest
          have hbefore : beforeClose s = q.2.isClose := by
            rw [← hs]
            simp only [List.flatMap_cons, List.append_assoc]
            rw [beforeClose_blanks (isBlank_fillers q.1), q.2.beforeClose_bytes]
          have hbytes := p.2.blankCommas_bytes (fun heq => hbefore.trans (hpq.comma heq))
            fun heq => hbefore.trans (hpq.trailing heq)
          rw [List.flatMap_cons, List.append_assoc, hs, List.append_assoc,
            blankCommas_blanks (isBlank_fillers p.1), hbytes, hrest]
          simp only [List.flatMap_cons, List.append_assoc]

/-! ## Documents -/

/-- The mark begins with a byte that no lexeme begins with. -/
theorem Lexeme.exists_bytes_eq (l : Lexeme) : ∃ b s, l.bytes = b :: s ∧ b ≠ 0xEF := by
  match l with
  | .trailingComma => exact ⟨_, _, rfl, by decide⟩
  | .token (.mark m) => exact ⟨_, _, rfl, by cases m <;> decide⟩
  | .token (.atom a) =>
      obtain ⟨b, s, hbytes, hb⟩ := a.exists_bytes_eq
      refine ⟨b, s, hbytes, ?_⟩
      rintro rfl
      exact absurd hb (by decide)

theorem Filler.exists_written_eq (f : Filler) : ∃ b s, f.written = b :: s ∧ b ≠ 0xEF := by
  cases f with
  | blank b h =>
      refine ⟨b, [], rfl, ?_⟩
      rintro rfl
      exact absurd h (by decide)
  | line c => exact ⟨_, _, rfl, by decide⟩
  | block c => exact ⟨_, _, rfl, by decide⟩

/-- A value does not end with a comma. -/
theorem Written.getLast?_ne_trailingComma (w : Written) : ∀ l ∈ w.lexemes.getLast?, l ≠ .trailingComma := by
  rintro l hl rfl
  obtain ⟨l', hl', hvalue⟩ := (Written.isValue_lexemes w).last
  rw [Option.mem_unique hl' hl] at hvalue
  simp [Lexeme.isAtom, Lexeme.isClose] at hvalue

namespace Document

theorem isBlank_tail (d : Document) :
    ∀ b ∈ d.last.flatMap Filler.blanked ++ d.comment.elim [] (fun c => c.written.map Json.blank),
      isBlank b = true := by
  refine List.forall_mem_append.mpr ⟨isBlank_fillers d.last, ?_⟩
  cases d.comment with
  | none => nofun
  | some c =>
      have h := (Filler.line c).isBlank_blanked
      exact (List.forall_mem_append.mp h).1

theorem fits (d : Document) : (d.filled.map Prod.snd).IsChain Lexeme.Fits :=
  d.lexemes_eq ▸ (Written.isValue_lexemes d.value).isChain

theorem last_ne_trailingComma (d : Document) :
    ∀ l ∈ (d.filled.map Prod.snd).getLast?, l ≠ .trailingComma :=
  d.lexemes_eq ▸ d.value.getLast?_ne_trailingComma

/-- A document does not begin as the mark does. -/
theorem exists_written_eq (d : Document) :
    ∃ b s, (d.filled.flatMap fun p => p.1.flatMap Filler.written ++ p.2.bytes) = b :: s ∧ b ≠ 0xEF := by
  obtain ⟨l, hl, -⟩ := (Written.isValue_lexemes d.value).head
  rw [← d.lexemes_eq] at hl
  cases hfilled : d.filled with
  | nil => simp [hfilled] at hl
  | cons p filled =>
      obtain ⟨gap, l⟩ := p
      cases gap with
      | nil =>
          obtain ⟨b, s, hbytes, hb⟩ := l.exists_bytes_eq
          exact ⟨b, _, by simp only [List.flatMap_cons, List.flatMap_nil, hbytes]; rfl, hb⟩
      | cons f gap =>
          obtain ⟨b, s, hwritten, hb⟩ := f.exists_written_eq
          exact ⟨b, _, by simp only [List.flatMap_cons, hwritten]; rfl, hb⟩

theorem withoutMark_written (d : Document) :
    withoutMark d.written =
      (d.filled.flatMap fun p => p.1.flatMap Filler.written ++ p.2.bytes) ++
        (d.last.flatMap Filler.written ++ d.comment.elim [] LineComment.written) := by
  obtain ⟨b, s, hfirst, hb⟩ := d.exists_written_eq
  cases hmarked : d.marked with
  | true =>
      simp only [written, hmarked, if_true]
      rfl
  | false =>
      have hne : ((0xEF : UInt8) == b) = false := beq_eq_false_iff_ne.mpr hb.symm
      simp [written, hmarked, hfirst, withoutMark, mark, List.isPrefixOf?, hne]

/-- The strict form of a document: the same text without its mark, with comments and trailing commas
blanked. -/
theorem plain_written (d : Document) : plain d.written = d.blanked := by
  have htail : blankComments (.plain .outside)
        (d.last.flatMap Filler.written ++ d.comment.elim [] LineComment.written) =
      d.last.flatMap Filler.blanked ++ d.comment.elim [] fun c => c.written.map Json.blank := by
    rw [blankComments_fillers]
    cases d.comment with
    | none => rfl
    | some c => rw [Option.elim_some, Option.elim_some, c.blankComments_written]
  rw [plain, withoutMark_written, blankComments_filled, htail,
    blankCommas_filled d.fits d.last_ne_trailingComma d.isBlank_tail, blanked]

/-- A strict document is its own strict form. -/
theorem IsStrict.blanked_eq {d : Document} (h : d.IsStrict) : d.blanked = d.written := by
  have hgap {gap : List Filler} (hgap : ∀ f ∈ gap, ∃ b hb, f = .blank b hb) :
      gap.flatMap Filler.blanked = gap.flatMap Filler.written := by
    refine List.flatMap_congr fun f hf => ?_
    obtain ⟨b, hb, rfl⟩ := hgap f hf
    rfl
  have hfilled : (d.filled.flatMap fun p => p.1.flatMap Filler.blanked ++ p.2.blanked) =
      d.filled.flatMap fun p => p.1.flatMap Filler.written ++ p.2.bytes := by
    refine List.flatMap_congr fun p hp => ?_
    obtain ⟨hblank, hcomma⟩ := h.filled p hp
    cases hlexeme : p.2 with
    | trailingComma => exact absurd hlexeme hcomma
    | token t => rw [hgap hblank, Lexeme.blanked, Lexeme.bytes]
  simp [blanked, written, h.marked, h.comment, hfilled, hgap h.last]

end Document

end ConfigChain.Json

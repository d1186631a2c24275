import ConfigChain.Proofs.Json.Document

/-! # What the bytes of a text belong to

Any bytes at all fall into strings, comments, and what is outside of both. A string or a block comment that is never
closed takes the rest of the text. `Lexed` says which stretches there are, one after the other, and `scan` finds them
from left to right: every text falls apart in exactly one way. -/

namespace ConfigChain.Json

/-! ## Stretches -/

/-- What a byte belongs to: a string, a comment, or neither. -/
inductive Kind where
  | code
  | text
  | comment
deriving DecidableEq, Repr

/-- Where a text ends: outside, or in a string or block comment that is never closed. A comment up to the end of its
line needs no closing. -/
inductive Ending where
  | closed
  | inText
  | inComment
deriving DecidableEq, Repr

/-- Bytes of one kind. -/
def Kind.throughout (kind : Kind) (s : Bytes) : List Kind := s.map fun _ => kind

/-- What may follow an opening quote that is never closed. -/
inductive IsOpenBody : Bytes → Prop where
  | nil : IsOpenBody []
  | backslash : IsOpenBody [backslash]
  | escaped (b : UInt8) {s : Bytes} (h : IsOpenBody s) : IsOpenBody (backslash :: b :: s)
  | cons {b : UInt8} {s : Bytes} (hquote : b ≠ quote) (hbackslash : b ≠ backslash) (h : IsOpenBody s) :
      IsOpenBody (b :: s)

/-- A text with the kinds of its bytes and its ending. A slash is outside of comments only if it opens none. -/
inductive Lexed : Bytes → List Kind → Ending → Prop where
  | nil : Lexed [] [] .closed
  | code {b : UInt8} {s : Bytes} {kinds : List Kind} {ending : Ending} (hquote : b ≠ quote)
      (hslash : b = slash → s.head? ≠ some slash ∧ s.head? ≠ some star) (h : Lexed s kinds ending) :
      Lexed (b :: s) (.code :: kinds) ending
  | text (body : Body) {s : Bytes} {kinds : List Kind} {ending : Ending} (h : Lexed s kinds ending) :
      Lexed (body.quoted ++ s) (Kind.text.throughout body.quoted ++ kinds) ending
  | openText {t : Bytes} (h : IsOpenBody t) : Lexed (quote :: t) (Kind.text.throughout (quote :: t)) .inText
  | line (c : LineComment) {s : Bytes} {kinds : List Kind} {ending : Ending} (hend : ∀ b ∈ s.head?, b = newline)
      (h : Lexed s kinds ending) : Lexed (c.written ++ s) (Kind.comment.throughout c.written ++ kinds) ending
  | block (c : BlockComment) {s : Bytes} {kinds : List Kind} {ending : Ending} (h : Lexed s kinds ending) :
      Lexed (c.written ++ s) (Kind.comment.throughout c.written ++ kinds) ending
  | openBlock {t : Bytes} (h : ¬ [star, slash] <:+: t) :
      Lexed (slash :: star :: t) (Kind.comment.throughout (slash :: star :: t)) .inComment

section

variable {s : Bytes} {kinds : List Kind} {ending : Ending}

@[simp] theorem Kind.throughout_nil (kind : Kind) : kind.throughout [] = [] := rfl

@[simp] theorem Kind.throughout_cons (kind : Kind) (b : UInt8) (s : Bytes) :
    kind.throughout (b :: s) = kind :: kind.throughout s := rfl

@[simp] theorem Kind.throughout_append (kind : Kind) (s t : Bytes) :
    kind.throughout (s ++ t) = kind.throughout s ++ kind.throughout t :=
  List.map_append

@[simp] theorem Kind.length_throughout (kind : Kind) (s : Bytes) : (kind.throughout s).length = s.length :=
  List.length_map _

theorem Lexed.length_eq (h : Lexed s kinds ending) : kinds.length = s.length := by
  induction h with
  | nil => rfl
  | code _ _ _ ih => rw [List.length_cons, List.length_cons, ih]
  | text _ _ ih => rw [List.length_append, List.length_append, Kind.length_throughout, ih]
  | openText _ => exact Kind.length_throughout _ _
  | line _ _ _ ih => rw [List.length_append, List.length_append, Kind.length_throughout, ih]
  | block _ _ ih => rw [List.length_append, List.length_append, Kind.length_throughout, ih]
  | openBlock _ => exact Kind.length_throughout _ _

/-! ## Every text falls apart -/

/-- A string is closed by the first quote that no backslash takes. -/
theorem exists_body_or_isOpenBody :
    ∀ t : Bytes, (∃ body s, IsBody body ∧ t = body ++ quote :: s) ∨ IsOpenBody t
  | [] => .inr .nil
  | [b] => by
      by_cases hquote : b = quote
      · exact .inl ⟨[], [], .nil, by rw [hquote]; rfl⟩
      · by_cases hbackslash : b = backslash
        · exact .inr (hbackslash ▸ .backslash)
        · exact .inr (.cons hquote hbackslash .nil)
  | b :: c :: t => by
      by_cases hquote : b = quote
      · exact .inl ⟨[], c :: t, .nil, by rw [hquote]; rfl⟩
      · by_cases hbackslash : b = backslash
        · subst hbackslash
          rcases exists_body_or_isOpenBody t with ⟨body, s, hbody, rfl⟩ | hopen
          · exact .inl ⟨backslash :: c :: body, s, .escaped c hbody, rfl⟩
          · exact .inr (.escaped c hopen)
        · rcases exists_body_or_isOpenBody (c :: t) with ⟨body, s, hbody, heq⟩ | hopen
          · exact .inl ⟨b :: body, s, .cons hquote hbackslash hbody, by rw [heq]; rfl⟩
          · exact .inr (.cons hquote hbackslash hopen)

theorem LineComment.newline_not_mem_written (c : LineComment) : newline ∉ c.written :=
  List.not_mem_cons_of_ne_of_not_mem (by decide)
    (List.not_mem_cons_of_ne_of_not_mem (by decide) c.newline_not_mem)

theorem prefix_closer_cons_iff (b : UInt8) (t : Bytes) :
    [star, slash] <+: b :: t ↔ b = star ∧ t.head? = some slash := by
  rw [List.cons_prefix_cons]
  refine and_congr eq_comm ?_
  cases t with
  | nil => simp
  | cons c t => simp [eq_comm]

theorem infix_closer_cons_iff (b : UInt8) (t : Bytes) :
    [star, slash] <:+: b :: t ↔ (b = star ∧ t.head? = some slash) ∨ [star, slash] <:+: t := by
  rw [List.infix_cons_iff, prefix_closer_cons_iff]

/-- A block comment is closed by the first star and slash. -/
theorem exists_block_or_not_infix (t : Bytes) :
    (∃ body s, ¬ [star, slash] <:+: body ∧ t = body ++ star :: slash :: s) ∨ ¬ [star, slash] <:+: t := by
  induction t with
  | nil => exact .inr (by simp)
  | cons b t ih =>
      by_cases hclose : b = star ∧ t.head? = some slash
      · obtain ⟨rfl, hhead⟩ := hclose
        obtain ⟨s, rfl⟩ := List.head?_eq_some_iff.mp hhead
        exact .inl ⟨[], s, by simp, rfl⟩
      · rcases ih with ⟨body, s, hbody, rfl⟩ | hopen
        · refine .inl ⟨b :: body, s, ?_, rfl⟩
          rw [infix_closer_cons_iff]
          rintro (⟨rfl, hhead⟩ | hinfix)
          · exact hclose ⟨rfl, by rw [List.head?_append, hhead]; rfl⟩
          · exact hbody hinfix
        · refine .inr ?_
          rw [infix_closer_cons_iff]
          exact not_or.mpr ⟨hclose, hopen⟩

theorem exists_line (t : Bytes) :
    ∃ body s, newline ∉ body ∧ t = body ++ s ∧ ∀ b ∈ s.head?, b = newline := by
  induction t with
  | nil => exact ⟨[], [], List.not_mem_nil, rfl, nofun⟩
  | cons b t ih =>
      by_cases hnewline : b = newline
      · exact ⟨[], b :: t, List.not_mem_nil, rfl, fun c hc => Option.some.inj hc ▸ hnewline⟩
      · obtain ⟨body, s, hbody, rfl, hs⟩ := ih
        exact ⟨b :: body, s, List.not_mem_cons_of_ne_of_not_mem (Ne.symm hnewline) hbody, rfl, hs⟩

theorem exists_lexed (s : Bytes) : ∃ kinds ending, Lexed s kinds ending := by
  induction hn : s.length using Nat.strong_induction_on generalizing s with
  | h n ih =>
      have rest {t : Bytes} (h : t.length < s.length) : ∃ kinds ending, Lexed t kinds ending :=
        ih t.length (hn ▸ h) t rfl
      cases s with
      | nil => exact ⟨_, _, .nil⟩
      | cons b t =>
          by_cases hquote : b = quote
          · subst hquote
            rcases exists_body_or_isOpenBody t with ⟨body, s, hbody, rfl⟩ | hopen
            · obtain ⟨kinds, ending, h⟩ := rest (t := s) (by simp; omega)
              have htext := Lexed.text ⟨body, hbody⟩ h
              rw [Body.quoted, List.cons_append, List.append_assoc, List.singleton_append] at htext
              exact ⟨_, _, htext⟩
            · exact ⟨_, _, .openText hopen⟩
          · by_cases hline : b = slash ∧ t.head? = some slash
            · obtain ⟨rfl, hhead⟩ := hline
              obtain ⟨u, rfl⟩ := List.head?_eq_some_iff.mp hhead
              obtain ⟨body, s, hbody, rfl, hs⟩ := exists_line u
              obtain ⟨kinds, ending, h⟩ := rest (t := s) (by simp; omega)
              exact ⟨_, _, .line ⟨body, hbody⟩ hs h⟩
            · by_cases hblock : b = slash ∧ t.head? = some star
              · obtain ⟨rfl, hhead⟩ := hblock
                obtain ⟨u, rfl⟩ := List.head?_eq_some_iff.mp hhead
                rcases exists_block_or_not_infix u with ⟨body, s, hbody, rfl⟩ | hopen
                · obtain ⟨kinds, ending, h⟩ := rest (t := s) (by simp; omega)
                  have hcomment := Lexed.block ⟨body, hbody⟩ h
                  simp only [BlockComment.written, List.cons_append, List.append_assoc, List.nil_append] at hcomment
                  exact ⟨_, _, hcomment⟩
                · exact ⟨_, _, .openBlock hopen⟩
              · obtain ⟨kinds, ending, h⟩ := rest (t := t) (by simp)
                exact ⟨_, _, .code hquote (fun hslash => ⟨fun h => hline ⟨hslash, h⟩, fun h => hblock ⟨hslash, h⟩⟩) h⟩

/-! ## In exactly one way -/

/-- Where the next byte stands. `next` is that byte, if there is one. -/
def Region.after : Region → UInt8 → Option UInt8 → Region
  | .plain .outside, b, next =>
    if b = slash ∧ next = some slash then .line
    else if b = slash ∧ next = some star then .opening
    else .plain (Quoting.outside.after b)
  | .plain q, b, _ => .plain (q.after b)
  | .line, b, _ => if b = newline then .plain .outside else .line
  | .opening, _, _ => .block
  | .block, b, next => if b = star ∧ next = some slash then .closing else .block
  | .closing, _, _ => .plain .outside

/-- What a byte belongs to, from where it stands and where the next one does: a byte that opens a string or a comment
belongs to it, and so does one that closes it, except for the end of a line. -/
def Region.kind : Region → Region → Kind
  | .plain .outside, .plain .outside => .code
  | .plain _, .plain _ => .text
  | .plain _, _ => .comment
  | .line, .plain _ => .code
  | _, _ => .comment

/-- Where a text ends that ends here. -/
def Region.atEnd : Region → Ending
  | .plain .outside | .line => .closed
  | .plain _ => .inText
  | _ => .inComment

/-- The kinds of bytes in front of a text of which the rest is known. -/
def prepend (front : List Kind) (rest : List Kind × Ending) : List Kind × Ending := (front ++ rest.1, rest.2)

/-- The kinds of the bytes of a text and its ending, from left to right. -/
def scan : Region → Bytes → List Kind × Ending
  | region, [] => ([], region.atEnd)
  | region, b :: s => prepend [region.kind (region.after b s.head?)] (scan (region.after b s.head?) s)

theorem prepend_prepend (front back : List Kind) (rest : List Kind × Ending) :
    prepend front (prepend back rest) = prepend (front ++ back) rest := by
  simp only [prepend, List.append_assoc]

theorem scan_quote_outside (s : Bytes) :
    scan (.plain .outside) (quote :: s) = prepend [.text] (scan (.plain .inside) s) :=
  rfl

theorem scan_quote_inside (s : Bytes) :
    scan (.plain .inside) (quote :: s) = prepend [.text] (scan (.plain .outside) s) :=
  rfl

theorem scan_backslash_inside (b : UInt8) (s : Bytes) :
    scan (.plain .inside) (backslash :: b :: s) = prepend [.text, .text] (scan (.plain .inside) s) :=
  rfl

theorem scan_slash_slash (s : Bytes) :
    scan (.plain .outside) (slash :: slash :: s) = prepend [.comment, .comment] (scan .line s) :=
  rfl

theorem scan_newline (s : Bytes) : scan .line (newline :: s) = scan (.plain .outside) (newline :: s) := rfl

theorem scan_slash_star (s : Bytes) :
    scan (.plain .outside) (slash :: star :: s) = prepend [.comment, .comment] (scan .block s) :=
  rfl

theorem scan_star_slash (s : Bytes) :
    scan .block (star :: slash :: s) = prepend [.comment, .comment] (scan (.plain .outside) s) :=
  rfl

theorem scan_code {b : UInt8} {s : Bytes} (hquote : b ≠ quote)
    (hslash : b = slash → s.head? ≠ some slash ∧ s.head? ≠ some star) :
    scan (.plain .outside) (b :: s) = prepend [.code] (scan (.plain .outside) s) := by
  have hnext : Region.after (.plain .outside) b s.head? = .plain .outside := by
    simp only [Region.after, Quoting.after, if_neg hquote]
    rw [if_neg fun h => (hslash h.1).1 h.2, if_neg fun h => (hslash h.1).2 h.2]
  rw [scan, hnext]
  rfl

theorem scan_inside {b : UInt8} (hquote : b ≠ quote) (hbackslash : b ≠ backslash) (s : Bytes) :
    scan (.plain .inside) (b :: s) = prepend [.text] (scan (.plain .inside) s) := by
  have hnext : Region.after (.plain .inside) b s.head? = .plain .inside := by
    simp [Region.after, Quoting.after, hquote, hbackslash]
  rw [scan, hnext]
  rfl

theorem scan_body {body : Bytes} (h : IsBody body) (s : Bytes) :
    scan (.plain .inside) (body ++ s) = prepend (Kind.text.throughout body) (scan (.plain .inside) s) := by
  induction h with
  | nil => rfl
  | escaped b _ ih =>
      rw [List.cons_append, List.cons_append, scan_backslash_inside, ih, prepend_prepend]
      rfl
  | cons hquote hbackslash _ ih =>
      rw [List.cons_append, scan_inside hquote hbackslash, ih, prepend_prepend]
      rfl

theorem scan_isOpenBody {t : Bytes} (h : IsOpenBody t) :
    scan (.plain .inside) t = (Kind.text.throughout t, .inText) := by
  induction h with
  | nil => rfl
  | backslash => rfl
  | escaped b _ ih =>
      rw [scan_backslash_inside, ih]
      rfl
  | cons hquote hbackslash _ ih =>
      rw [scan_inside hquote hbackslash, ih]
      rfl

theorem scan_line {t : Bytes} (h : newline ∉ t) {s : Bytes} (hs : ∀ b ∈ s.head?, b = newline) :
    scan .line (t ++ s) = prepend (Kind.comment.throughout t) (scan (.plain .outside) s) := by
  induction t with
  | nil =>
      cases s with
      | nil => rfl
      | cons b s =>
          rw [hs b rfl]
          exact scan_newline s
  | cons b t ih =>
      obtain ⟨hb, ht⟩ := List.ne_and_not_mem_of_not_mem_cons h
      have hnext : Region.after .line b (t ++ s).head? = .line := if_neg hb.symm
      rw [List.cons_append, scan, hnext, ih ht, prepend_prepend]
      rfl

theorem scan_block {t : Bytes} (h : ¬ [star, slash] <:+: t) (s : Bytes) :
    scan .block (t ++ star :: slash :: s) =
      prepend (Kind.comment.throughout (t ++ [star, slash])) (scan (.plain .outside) s) := by
  induction t with
  | nil => exact scan_star_slash s
  | cons b t ih =>
      rw [infix_closer_cons_iff, not_or] at h
      have hnext : Region.after .block b (t ++ star :: slash :: s).head? = .block :=
        if_neg fun hclose => h.1 ⟨hclose.1, head?_of_append_closer hclose.2⟩
      rw [List.cons_append, scan, hnext, ih h.2, prepend_prepend]
      rfl

theorem scan_openBlock {t : Bytes} (h : ¬ [star, slash] <:+: t) :
    scan .block t = (Kind.comment.throughout t, .inComment) := by
  induction t with
  | nil => rfl
  | cons b t ih =>
      rw [infix_closer_cons_iff, not_or] at h
      have hnext : Region.after .block b t.head? = .block := if_neg h.1
      rw [scan, hnext, ih h.2]
      rfl

theorem Lexed.execution (h : Lexed s kinds ending) : scan (.plain .outside) s = (kinds, ending) := by
  induction h with
  | nil => rfl
  | code hquote hslash _ ih =>
      rw [scan_code hquote hslash, ih]
      rfl
  | text body _ ih =>
      rw [Body.quoted, List.cons_append, List.append_assoc, List.singleton_append, scan_quote_outside,
        scan_body body.isBody, scan_quote_inside, ih]
      simp [prepend]
  | openText h =>
      rw [scan_quote_outside, scan_isOpenBody h]
      rfl
  | line c hend _ ih =>
      rw [LineComment.written, List.cons_append, List.cons_append, scan_slash_slash,
        scan_line c.newline_not_mem hend, ih]
      rfl
  | block c _ ih =>
      simp only [BlockComment.written, List.cons_append, List.append_assoc, List.nil_append, scan_slash_star]
      rw [scan_block c.not_infix, ih]
      rfl
  | openBlock h =>
      rw [scan_slash_star, scan_openBlock h]
      rfl

/-- `scan` finds the stretches. -/
theorem lexed_iff : Lexed s kinds ending ↔ scan (.plain .outside) s = (kinds, ending) := by
  refine ⟨Lexed.execution, fun h => ?_⟩
  obtain ⟨kinds', ending', hlexed⟩ := exists_lexed s
  obtain ⟨rfl, rfl⟩ := Prod.mk.inj (hlexed.execution.symm.trans h)
  exact hlexed

/-- There is one way only to see the stretches. -/
theorem Lexed.unique {kinds' : List Kind} {ending' : Ending} (h : Lexed s kinds ending)
    (h' : Lexed s kinds' ending') : kinds = kinds' ∧ ending = ending' :=
  Prod.mk.inj (h.execution.symm.trans h'.execution)

/-! ## Bytes that open nothing -/

theorem Lexed.quiet {t : Bytes} (ht : ∀ b ∈ t, b ≠ quote ∧ b ≠ slash) (h : Lexed s kinds ending) :
    Lexed (t ++ s) (Kind.code.throughout t ++ kinds) ending := by
  induction t with
  | nil => exact h
  | cons b t ih =>
      obtain ⟨⟨hquote, hslash⟩, ht⟩ := List.forall_mem_cons.mp ht
      exact .code hquote (fun hb => absurd hb hslash) (ih ht)

theorem Lexed.blanks {t : Bytes} (ht : ∀ b ∈ t, isBlank b = true) (h : Lexed s kinds ending) :
    Lexed (t ++ s) (Kind.code.throughout t ++ kinds) ending :=
  h.quiet fun b hb => ⟨(quiet_of_isBlank (ht b hb)).ne_quote, (quiet_of_isBlank (ht b hb)).ne_slash⟩

theorem append_withoutMark (s : Bytes) : s = withoutMark s ∨ s = mark ++ withoutMark s := by
  unfold withoutMark
  cases hprefix : mark.isPrefixOf? s with
  | none => exact .inl rfl
  | some t => exact .inr (List.isPrefixOf?_eq_some_iff_append_eq.mp hprefix).symm

/-- The mark is outside of strings and comments. -/
theorem Lexed.exists_withoutMark (h : Lexed s kinds ending) :
    ∃ front kinds', kinds = Kind.code.throughout front ++ kinds' ∧ Lexed (withoutMark s) kinds' ending := by
  rcases append_withoutMark s with hs | hs
  · exact ⟨[], kinds, rfl, hs ▸ h⟩
  · obtain ⟨kinds', ending', hrest⟩ := exists_lexed (withoutMark s)
    have hmark := hrest.quiet (t := mark) (List.all_iff_forall_prop.mp (by decide))
    rw [← hs] at hmark
    obtain ⟨rfl, rfl⟩ := h.unique hmark
    exact ⟨mark, kinds', rfl, hrest⟩

end

end ConfigChain.Json

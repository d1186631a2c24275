import ConfigChain.Proofs.Json.Blanking
import ConfigChain.Proofs.Json.Grammatical
import ConfigChain.Proofs.Json.Loose

/-! # Which commas are forgiven

What is read of a text without comments is a loose document: behind the blanked commas stand closing marks, and what is
left are the tokens of a value. So besides trailing commas, those that stand alone are forgiven, and no others. -/

namespace ConfigChain.Json

/-! ## Lexemes from tokens -/

/-- Lexemes with the tokens among them. A comma that is none of these stands before a closing mark. -/
inductive Forgiven : List Lexeme → List Token → Prop where
  | nil : Forgiven [] []
  | token (t : Token) {ls : List Lexeme} {ts : List Token} (h : Forgiven ls ts) :
      Forgiven (.token t :: ls) (t :: ts)
  | comma {m : Mark} (hm : Lexeme.isClose (.token (.mark m)) = true) {ls : List Lexeme} {ts : List Token}
      (h : Forgiven ls ts) : Forgiven (.trailingComma :: .token (.mark m) :: ls) (.mark m :: ts)

section

variable {ls : List Lexeme} {ts : List Token}

/-- What comes before a token that closes nothing. -/
theorem Forgiven.of_not_isClose {t : Token} (ht : Lexeme.isClose (.token t) = false) (h : Forgiven ls (t :: ts)) :
    ∃ rest, ls = .token t :: rest ∧ Forgiven rest ts := by
  cases h with
  | token _ h => exact ⟨_, rfl, h⟩
  | comma hm _ => exact absurd hm (by simp [ht])

/-- The end of a list or object. -/
theorem Forgiven.of_isClose {m : Mark} (h : Forgiven ls (.mark m :: ts)) :
    ∃ trailing rest, ls = Written.ending trailing m ++ rest ∧ Forgiven rest ts := by
  cases h with
  | token _ h => exact ⟨false, _, rfl, h⟩
  | comma _ h => exact ⟨true, _, rfl, h⟩

/-- The key of a member and its colon. -/
theorem Forgiven.of_key {key : Body} (h : Forgiven ls (.atom (.text key) :: .mark .colon :: ts)) :
    ∃ rest, ls = .token (.atom (.text key)) :: .token (.mark .colon) :: rest ∧ Forgiven rest ts := by
  obtain ⟨_, rfl, hcolon⟩ := h.of_not_isClose rfl
  obtain ⟨rest, rfl, hrest⟩ := hcolon.of_not_isClose rfl
  exact ⟨rest, rfl, hrest⟩

/-- A list or object without items, which may hold a comma. -/
theorem loosened_empty {o c : Lexeme} {m : Mark} (ho : o.isOpen = true) (hc : c = .token (.mark m))
    (hclose : c.isClose = true) (trailing : Bool) : Loosened [o, c] (o :: Written.ending trailing m) := by
  cases trailing with
  | false => exact hc ▸ .refl _
  | true => exact hc ▸ .lone ho (hc ▸ hclose) .nil

mutual

/-- Lexemes that begin with the tokens of a value begin with a value that is loosened. -/
theorem exists_loosened : ∀ (w : Written) {ls : List Lexeme} {ts : List Token}, Forgiven ls (w.tokens ++ ts) →
    ∃ (w' : Written) (front back : List Lexeme), ls = front ++ back ∧ Loosened w'.lexemes front ∧ Forgiven back ts
  | .atom a, _, _, h => by
      obtain ⟨back, rfl, hback⟩ := h.of_not_isClose rfl
      exact ⟨.atom a, _, back, rfl, .refl _, hback⟩
  | .list [] _, _, _, h => by
      obtain ⟨rest, rfl, hrest⟩ := h.of_not_isClose rfl
      obtain ⟨trailing, back, rfl, hback⟩ := hrest.of_isClose
      exact ⟨.list [] false, _ :: Written.ending trailing .closeList, back, rfl, loosened_empty rfl rfl rfl trailing,
        hback⟩
  | .list (item :: items) _, _, _, h => by
      rw [Written.tokens_list_cons, List.cons_append, List.append_assoc] at h
      obtain ⟨rest, rfl, hrest⟩ := h.of_not_isClose rfl
      obtain ⟨item', front, _, rfl, hitem, hback⟩ := exists_loosened item hrest
      obtain ⟨trailing, items', front', back, rfl, hitems, hback⟩ := exists_loosened_items items hback
      exact ⟨.list (item' :: items') trailing, _ :: (front ++ front'), back, by simp, .cons _ (hitem.append hitems),
        hback⟩
  | .object [] _, _, _, h => by
      obtain ⟨rest, rfl, hrest⟩ := h.of_not_isClose rfl
      obtain ⟨trailing, back, rfl, hback⟩ := hrest.of_isClose
      exact ⟨.object [] false, _ :: Written.ending trailing .closeObject, back, rfl,
        loosened_empty rfl rfl rfl trailing, hback⟩
  | .object ((key, value) :: members) _, _, _, h => by
      simp only [Written.tokens_object_cons, List.cons_append, List.append_assoc] at h
      obtain ⟨_, rfl, hmember⟩ := h.of_not_isClose rfl
      obtain ⟨_, rfl, hrest⟩ := hmember.of_key
      obtain ⟨value', front, _, rfl, hvalue, hback⟩ := exists_loosened value hrest
      obtain ⟨trailing, members', front', back, rfl, hmembers, hback⟩ := exists_loosened_members members hback
      exact ⟨.object ((key, value') :: members') trailing, _ :: _ :: _ :: (front ++ front'), back, by simp,
        .cons _ (.cons _ (.cons _ (hvalue.append hmembers))), hback⟩

theorem exists_loosened_items : ∀ (items : List Written) {ls : List Lexeme} {ts : List Token},
    Forgiven ls (Written.itemTokens items ++ ts) →
      ∃ (trailing : Bool) (items' : List Written) (front back : List Lexeme), ls = front ++ back ∧
        Loosened (Written.moreItems trailing items') front ∧ Forgiven back ts
  | [], _, _, h => by
      obtain ⟨trailing, back, rfl, hback⟩ := h.of_isClose
      exact ⟨trailing, [], _, back, rfl, .refl _, hback⟩
  | item :: items, _, _, h => by
      simp only [Written.itemTokens_cons, List.cons_append, List.append_assoc] at h
      obtain ⟨rest, rfl, hrest⟩ := h.of_not_isClose rfl
      obtain ⟨item', front, _, rfl, hitem, hback⟩ := exists_loosened item hrest
      obtain ⟨trailing, items', front', back, rfl, hitems, hback⟩ := exists_loosened_items items hback
      exact ⟨trailing, item' :: items', _ :: (front ++ front'), back, by simp, .cons _ (hitem.append hitems), hback⟩

theorem exists_loosened_members : ∀ (members : List (Body × Written)) {ls : List Lexeme} {ts : List Token},
    Forgiven ls (Written.memberTokens members ++ ts) →
      ∃ (trailing : Bool) (members' : List (Body × Written)) (front back : List Lexeme), ls = front ++ back ∧
        Loosened (Written.moreMembers trailing members') front ∧ Forgiven back ts
  | [], _, _, h => by
      obtain ⟨trailing, back, rfl, hback⟩ := h.of_isClose
      exact ⟨trailing, [], _, back, rfl, .refl _, hback⟩
  | (key, value) :: members, _, _, h => by
      simp only [Written.memberTokens_cons, List.cons_append, List.append_assoc] at h
      obtain ⟨_, rfl, hmember⟩ := h.of_not_isClose rfl
      obtain ⟨_, rfl, hrest⟩ := hmember.of_key
      obtain ⟨value', front, _, rfl, hvalue, hback⟩ := exists_loosened value hrest
      obtain ⟨trailing, members', front', back, rfl, hmembers, hback⟩ := exists_loosened_members members hback
      exact ⟨trailing, (key, value') :: members', _ :: _ :: _ :: (front ++ front'), back, by simp,
        .cons _ (.cons _ (.cons _ (hvalue.append hmembers))), hback⟩

end

end

/-! ## What blanking commas comes from -/

theorem blankCommas_eq_cons {q : Quoting} {b : UInt8} {s u : Bytes} (h : blankCommas q s = b :: u) :
    ∃ c t, s = c :: t ∧ blankCommas (q.after c) t = u ∧
      (c = b ∨ q = .outside ∧ c = comma ∧ b = space ∧ beforeClose t = true) := by
  cases s with
  | nil => cases h
  | cons c t =>
      obtain ⟨hb, hu⟩ := List.cons.inj h
      refine ⟨c, t, rfl, hu, ?_⟩
      split at hb
      · rename_i hcomma
        exact .inr ⟨hcomma.1, hcomma.2.1, hb.symm, hcomma.2.2⟩
      · exact .inl hb

theorem blankCommas_eq_append {s t u : Bytes} (ht : ∀ b ∈ t, b ≠ quote ∧ b ≠ space)
    (h : blankCommas .outside s = t ++ u) : ∃ s', s = t ++ s' ∧ blankCommas .outside s' = u := by
  induction t generalizing s with
  | nil => exact ⟨s, rfl, h⟩
  | cons b t ih =>
      obtain ⟨⟨hquote, hspace⟩, htail⟩ := List.forall_mem_cons.mp ht
      obtain ⟨c, s, rfl, hrest, rfl | ⟨-, -, hb, -⟩⟩ := blankCommas_eq_cons h
      · have houtside : Quoting.outside.after c = .outside := if_neg hquote
        obtain ⟨s', rfl, hs'⟩ := ih htail (houtside ▸ hrest)
        exact ⟨s', rfl, hs'⟩
      · exact absurd hb hspace

theorem blankCommas_inside_eq_cons {q : Quoting} (hq : q ≠ .outside) {b : UInt8} {s u : Bytes}
    (h : blankCommas q s = b :: u) : ∃ t, s = b :: t ∧ blankCommas (q.after b) t = u := by
  obtain ⟨c, t, rfl, hrest, rfl | ⟨houtside, -⟩⟩ := blankCommas_eq_cons h
  · exact ⟨t, rfl, hrest⟩
  · exact absurd houtside hq

theorem blankCommas_inside_eq_append {body : Bytes} (hbody : IsBody body) {s u : Bytes}
    (h : blankCommas .inside s = body ++ quote :: u) :
    ∃ s', s = body ++ quote :: s' ∧ blankCommas .outside s' = u := by
  induction hbody generalizing s with
  | nil => exact blankCommas_inside_eq_cons (q := .inside) nofun h
  | escaped b _ ih =>
      obtain ⟨_, rfl, hescaped⟩ := blankCommas_inside_eq_cons (q := .inside) nofun h
      obtain ⟨_, rfl, hrest⟩ := blankCommas_inside_eq_cons (q := .escaped) nofun hescaped
      obtain ⟨s', rfl, hs'⟩ := ih hrest
      exact ⟨s', rfl, hs'⟩
  | @cons b _ hquote hbackslash _ ih =>
      obtain ⟨_, rfl, hrest⟩ := blankCommas_inside_eq_cons (q := .inside) nofun h
      have hinside : Quoting.inside.after b = .inside := by simp [Quoting.after, hquote, hbackslash]
      obtain ⟨s', rfl, hs'⟩ := ih (hinside ▸ hrest)
      exact ⟨s', rfl, hs'⟩

/-- No token but a string holds a quote or a space. -/
theorem Token.solid_or (t : Token) :
    (∀ b ∈ t.bytes, b ≠ quote ∧ b ≠ space) ∨ ∃ body, t = .atom (.text body) := by
  match t with
  | .mark m => exact .inl (List.all_iff_forall_prop.mp (by cases m <;> decide))
  | .atom .null => exact .inl (List.all_iff_forall_prop.mp (by decide))
  | .atom (.bool b) => exact .inl (List.all_iff_forall_prop.mp (by cases b <;> decide))
  | .atom (.number n) =>
      refine .inl fun b hb => ⟨?_, ?_⟩ <;> rintro rfl <;> exact absurd (n.isNumeric _ hb) (by decide)
  | .atom (.text body) => exact .inr ⟨body, rfl⟩

theorem Token.blankCommas_eq_append (t : Token) {s u : Bytes} (h : blankCommas .outside s = t.bytes ++ u) :
    ∃ s', s = t.bytes ++ s' ∧ blankCommas .outside s' = u := by
  rcases t.solid_or with hsolid | ⟨body, rfl⟩
  · exact Json.blankCommas_eq_append hsolid h
  · simp only [Token.bytes, Atom.bytes, Body.quoted, List.cons_append, List.append_assoc, List.nil_append] at h ⊢
    obtain ⟨c, t, rfl, hrest, rfl | ⟨-, -, hspace, -⟩⟩ := blankCommas_eq_cons h
    · obtain ⟨s', rfl, hs'⟩ := blankCommas_inside_eq_append body.isBody hrest
      exact ⟨s', rfl, hs'⟩
    · exact absurd hspace (by decide)

/-- A comma sees the next lexeme. -/
theorem Begins.exists_close {s : Bytes} {ls : List Lexeme} (h : Begins Lexeme.bytes s ls [])
    (hclose : beforeClose s = true) :
    ∃ m rest, ls = .token (.mark m) :: rest ∧ Lexeme.isClose (.token (.mark m)) = true := by
  generalize hr : ([] : Bytes) = r at h
  induction h with
  | refl _ =>
      subst hr
      cases hclose
  | @blank b s _ _ hb _ ih =>
      have hblanks : beforeClose ([b] ++ s) = beforeClose s :=
        beforeClose_blanks (List.forall_mem_singleton.mpr hb) s
      exact ih (hblanks.symm.trans hclose) hr
  | word l _ _ =>
      rw [l.beforeClose_bytes] at hclose
      obtain ⟨m, rfl⟩ := Lexeme.exists_mark_of_isClose hclose
      exact ⟨m, _, rfl, hclose⟩

/-- A text with blanked commas that consists of tokens comes from one of the same tokens and some more commas. -/
theorem exists_forgiven {u : Bytes} {ts : List Token} (h : Begins Token.bytes u ts []) {s : Bytes}
    (hs : blankCommas .outside s = u) : ∃ ls, Forgiven ls ts ∧ Begins Lexeme.bytes s ls [] := by
  generalize hr : ([] : Bytes) = r at h
  induction h generalizing s with
  | refl u =>
      subst hr
      cases s with
      | nil => exact ⟨[], .nil, .refl []⟩
      | cons b s => cases hs
  | @blank b u _ _ hb _ ih =>
      -- The blank was there before, or it was a comma.
      obtain ⟨c, s, rfl, hrest, hc⟩ := blankCommas_eq_cons hs
      have hquote : c ≠ quote := by
        rcases hc with rfl | ⟨-, rfl, -⟩
        · exact (quiet_of_isBlank hb).ne_quote
        · decide
      have houtside : Quoting.outside.after c = .outside := if_neg hquote
      obtain ⟨ls, hls, hbegins⟩ := ih (houtside ▸ hrest) hr
      rcases hc with rfl | ⟨-, rfl, -, hclose⟩
      · exact ⟨ls, hls, .blank hb hbegins⟩
      · obtain ⟨m, rest, rfl, hm⟩ := Begins.exists_close (hr ▸ hbegins) hclose
        -- The mark that the comma saw is the next lexeme, so there is no other comma in between.
        cases hls with
        | token _ hls => exact ⟨_, .comma hm hls, .word Lexeme.trailingComma hbegins⟩
  | word t _ ih =>
      obtain ⟨s, rfl, hrest⟩ := t.blankCommas_eq_append hs
      obtain ⟨ls, hls, hbegins⟩ := ih hrest hr
      exact ⟨.token t :: ls, .token t hls, .word (Lexeme.token t) hbegins⟩

/-! ## What is read is loose -/

theorem Begins.exists_filled {s : Bytes} {ls : List Lexeme} (h : Begins Lexeme.bytes s ls []) :
    ∃ (filled : List (List Filler × Lexeme)) (last : List Filler), filled.map Prod.snd = ls ∧
      (∀ p ∈ filled, AreBlanks p.1) ∧ AreBlanks last ∧
      (filled.flatMap fun p => p.1.flatMap Filler.written ++ p.2.bytes) ++ last.flatMap Filler.written = s := by
  generalize hr : ([] : Bytes) = r at h
  induction h with
  | refl _ => exact ⟨[], [], rfl, nofun, nofun, hr⟩
  | @blank b _ _ _ hb _ ih =>
      have hblank : ∀ f ∈ [Filler.blank b hb], ∃ b h, f = .blank b h := List.forall_mem_singleton.mpr ⟨b, hb, rfl⟩
      obtain ⟨filled, last, rfl, hfilled, hlast, rfl⟩ := ih hr
      cases filled with
      | nil => exact ⟨[], .blank b hb :: last, rfl, nofun, List.forall_mem_append.mpr ⟨hblank, hlast⟩, rfl⟩
      | cons p filled =>
          obtain ⟨hfirst, hrest⟩ := List.forall_mem_cons.mp hfilled
          refine ⟨(.blank b hb :: p.1, p.2) :: filled, last, rfl, List.forall_mem_cons.mpr ⟨?_, hrest⟩, hlast, rfl⟩
          exact List.forall_mem_append.mpr ⟨hblank, hfirst⟩
  | word l _ ih =>
      obtain ⟨filled, last, rfl, hfilled, hlast, rfl⟩ := ih hr
      refine ⟨([], l) :: filled, last, rfl, List.forall_mem_cons.mpr ⟨nofun, hfilled⟩, hlast, ?_⟩
      simp

section

variable {s : Bytes} {kinds : List Kind} {ending : Ending}

theorem Lexed.blankComments_eq (h : Lexed s kinds ending) (hfree : .comment ∉ kinds) :
    blankComments (.plain .outside) s = s := by
  induction h with
  | nil => rfl
  | code hquote hslash _ ih => rw [blankComments_code hquote hslash, ih (List.not_mem_of_not_mem_cons hfree)]
  | text body _ ih => rw [blankComments_quoted, ih fun hmem => hfree (List.mem_append_right _ hmem)]
  | openText h => rw [blankComments_quote, blankComments_openBody h]
  | line _ _ _ _ => exact absurd (List.mem_append_left _ List.mem_cons_self) hfree
  | block _ _ _ => exact absurd (List.mem_append_left _ List.mem_cons_self) hfree
  | openBlock _ => exact absurd List.mem_cons_self hfree

theorem Grammatical.exists_loose {α : Type} {reader : Reader α} (h : Grammatical reader) {a : α}
    (hs : Lexed s kinds ending) (hfree : .comment ∉ kinds) (hread : reader.relaxed s = .ok a) :
    ∃ d : Loose, d.IsBare ∧ d.written = withoutMark s := by
  obtain ⟨front, kinds', rfl, hmark⟩ := hs.exists_withoutMark
  have hplain : blankCommas .outside (withoutMark s) = plain s := by
    rw [plain, hmark.blankComments_eq fun hmem => hfree (List.mem_append_right _ hmem)]
  obtain ⟨w, hw⟩ := h.whole hread
  obtain ⟨ls, hls, hbegins⟩ := exists_forgiven hw hplain
  obtain ⟨w', loose, back, rfl, hloose, hback⟩ := exists_loosened w ((List.append_nil w.tokens).symm ▸ hls)
  cases hback
  rw [List.append_nil] at hbegins
  obtain ⟨filled, last, rfl, hfilled, hlast, hwritten⟩ := hbegins.exists_filled
  exact ⟨⟨w', filled, hloose, last⟩, ⟨hfilled, hlast⟩, hwritten⟩

end

theorem eq_ok_iff_of_toOption_eq {ε α : Type} {x y : Except ε α} (h : x.toOption = y.toOption) (a : α) :
    x = .ok a ↔ y = .ok a := by
  cases x <;> cases y <;> simp_all [Except.toOption]

/-- A text without comments is read as a value if it is a loose document of it, and only then. The commas that have been
blanked are those of the document that are no tokens, and all of them are trailing commas of a document if no one stands
directly behind an opening mark, and only then. -/
theorem parseRelaxed_eq_ok_iff {text : Bytes} {kinds : List Kind} {ending : Ending}
    (hlexed : Lexed text kinds ending) (hfree : .comment ∉ kinds) (v : Value) :
    (Value.parseRelaxed text = .ok v ↔
      ∃ d : Loose, d.IsBare ∧ d.written = withoutMark text ∧ Value.parse d.value.strict = .ok v) ∧
    ∀ d : Loose, d.written = withoutMark text → plain text = d.blanked ∧
      ((d.filled.map Prod.snd).IsChain Lexeme.Trails ↔
        ∃ d' : Document, d'.written = text ∧ d'.filled = d.filled ∧ d'.last = d.last ∧ d'.comment = none) := by
  have hread (d : Loose) (hd : d.written = withoutMark text) :
      Value.parseRelaxed text = .ok v ↔ Value.parse d.value.strict = .ok v :=
    eq_ok_iff_of_toOption_eq (d.relaxed_eq (blind_value lexical_strict greatestDepth) hd) v
  refine ⟨⟨fun hv => ?_, fun ⟨d, _, hd, hv⟩ => (hread d hd).mpr hv⟩, fun d hd => ?_⟩
  · obtain ⟨d, hbare, hd⟩ := (grammatical_value grammatical_strict greatestDepth).exists_loose hlexed hfree hv
    exact ⟨d, hbare, hd, (hread d hd).mp hv⟩
  · exact ⟨Loose.plain_eq hd, Loose.isChain_trails_iff hd⟩

/-- A list with nothing but a comma. -/
def lone : Loose where
  value := .list [] false
  filled := [([], .token (.mark .openList)), ([], .trailingComma), ([], .token (.mark .closeList))]
  loosened := .lone rfl rfl .nil
  last := []

theorem parseRelaxed_eq_ok_iff_lone :
    Lexed [openList, comma, closeList] [.code, .code, .code] .closed ∧ .comment ∉ [Kind.code, .code, .code] ∧
      lone.IsBare ∧ lone.written = [openList, comma, closeList] ∧ lone.blanked = [openList, space, closeList] ∧
      Value.parseRelaxed [openList, comma, closeList] = .ok (.list []) ∧
      plain [openList, comma, closeList] = lone.blanked := by
  have hlexed : Lexed [openList, comma, closeList] [.code, .code, .code] .closed := lexed_iff.mpr (by decide)
  have hfree : .comment ∉ [Kind.code, .code, .code] := by decide
  have hbare : lone.IsBare := ⟨by simp [lone, AreBlanks], nofun⟩
  obtain ⟨hread, hloose⟩ := parseRelaxed_eq_ok_iff hlexed hfree (.list [])
  exact ⟨hlexed, hfree, hbare, rfl, rfl, hread.mpr ⟨lone, hbare, rfl, rfl⟩, (hloose lone rfl).1⟩

/-- The list with nothing but a comma is read as the empty one, though it is no document. -/
theorem parseRelaxed_lone_comma :
    Lexed [openList, comma, closeList] [.code, .code, .code] .closed ∧ .comment ∉ [Kind.code, .code, .code] ∧
      Value.parseRelaxed [openList, comma, closeList] = .ok (.list []) ∧
      plain [openList, comma, closeList] = [openList, space, closeList] ∧
      ¬ ∃ d : Document, d.written = [openList, comma, closeList] := by
  refine ⟨lexed_iff.mpr (by decide), by decide, rfl, rfl, ?_⟩
  rintro ⟨d, hd⟩
  exact d.written_ne_lone_comma (m := .openList) (.inl rfl) [closeList] hd

end ConfigChain.Json

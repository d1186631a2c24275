import ConfigChain.Proofs.Json.Blanking
import ConfigChain.Proofs.Json.Grammatical

/-! # What is never closed is reported

A text that ends in a string or a block comment still does so after both passes, though these may have rewritten what
comes after the opening quote or slash. A value of strict JSON never ends so, so no reader of values takes the text. -/

namespace ConfigChain.Json

section

variable {s r : Bytes} {kinds : List Kind} {ending : Ending}

/-! ## Values are closed -/

theorem Lexed.token (t : Token) (h : Lexed s kinds ending) : ∃ kinds', Lexed (t.bytes ++ s) kinds' ending := by
  rcases t.quiet_or with hquiet | ⟨body, rfl⟩ | rfl
  · exact ⟨_, h.quiet fun b hb => ⟨(hquiet b hb).ne_quote, (hquiet b hb).ne_slash⟩⟩
  · exact ⟨_, .text body h⟩
  · exact ⟨_, .code (by decide) nofun h⟩

/-- The tokens in front of a text do not change its ending. -/
theorem Begins.lexed {ts : List Token} (h : Begins Token.bytes s ts r) (hr : Lexed r kinds ending) :
    ∃ kinds', Lexed s kinds' ending := by
  induction h with
  | refl _ => exact ⟨kinds, hr⟩
  | blank hb _ ih =>
      obtain ⟨kinds', hs⟩ := ih hr
      exact ⟨_, hs.blanks (List.forall_mem_singleton.mpr hb)⟩
  | word t _ ih =>
      obtain ⟨kinds', hs⟩ := ih hr
      exact hs.token t

/-! ## Both passes leave the ending -/

theorem blanked_eq_iff {b c : UInt8} {p : Prop} [Decidable p] (hp : p → b ≠ c) (hc : c ≠ space) :
    (if p then space else b) = c ↔ b = c := by
  split
  · exact iff_of_false hc.symm (hp ‹p›)
  · exact Iff.rfl

theorem head?_blankCommas (q : Quoting) (s : Bytes) :
    (blankCommas q s).head? = some slash ↔ s.head? = some slash := by
  cases s with
  | nil => simp [blankCommas]
  | cons b s =>
      simp only [blankCommas, List.head?_cons, Option.some.injEq]
      refine blanked_eq_iff (fun h => ?_) (by decide)
      rw [h.2.1]
      decide

/-- The second pass may rewrite what an opened block comment holds, but closes it nowhere. -/
theorem infix_closer_blankCommas_iff (q : Quoting) (s : Bytes) :
    [star, slash] <:+: blankCommas q s ↔ [star, slash] <:+: s := by
  induction s generalizing q with
  | nil => rfl
  | cons b s ih =>
      rw [blankCommas, infix_closer_cons_iff, infix_closer_cons_iff, ih, head?_blankCommas,
        blanked_eq_iff (fun h => ?_) (by decide)]
      rw [h.2.1]
      decide

theorem Lexed.head?_cleaned (h : Lexed s kinds ending) :
    (cleaned s).head? = s.head? ∨ (cleaned s).head? = some space := by
  rw [List.head?_eq_getElem?, List.head?_eq_getElem?]
  exact h.blanks_cleaned.same_or_space 0

theorem Lexed.lexed_cleaned (h : Lexed s kinds ending) : ∃ kinds', Lexed (cleaned s) kinds' ending := by
  induction h with
  | nil => exact ⟨[], .nil⟩
  | @code b s kinds ending hquote hslash h ih =>
      obtain ⟨kinds', hcleaned⟩ := ih
      -- A slash that opens no comment opens none afterwards: what follows it is the same or a space.
      have hhead {c : UInt8} (hc : c ≠ space) (hs : s.head? ≠ some c) : (cleaned s).head? ≠ some c := by
        rcases h.head?_cleaned with heq | heq
        · rwa [heq]
        · rw [heq]
          exact fun hspace => hc (Option.some.inj hspace).symm
      rw [cleaned_code hquote hslash]
      split
      · exact ⟨_, .code (by decide) nofun hcleaned⟩
      · refine ⟨_, .code hquote (fun hb => ?_) hcleaned⟩
        exact ⟨hhead (by decide) (hslash hb).1, hhead (by decide) (hslash hb).2⟩
  | text body _ ih =>
      obtain ⟨kinds', hcleaned⟩ := ih
      rw [cleaned_quoted]
      exact ⟨_, .text body hcleaned⟩
  | openText h =>
      rw [cleaned_openText h]
      exact ⟨_, .openText h⟩
  | line c hend _ ih =>
      obtain ⟨kinds', hcleaned⟩ := ih
      rw [cleaned_line c hend]
      exact ⟨_, hcleaned.blanks (isBlank_map_blank _)⟩
  | block c _ ih =>
      obtain ⟨kinds', hcleaned⟩ := ih
      rw [cleaned_block]
      exact ⟨_, hcleaned.blanks (isBlank_map_blank _)⟩
  | openBlock h =>
      rw [cleaned_openBlock h]
      exact ⟨_, .openBlock ((infix_closer_blankCommas_iff _ _).not.mpr h)⟩

/-! ## No reader takes them -/

theorem Grammatical.closed_of_relaxed {α : Type} {reader : Reader α} (h : Grammatical reader) {a : α}
    (hs : Lexed s kinds ending) (hread : reader.relaxed s = .ok a) : ending = .closed := by
  obtain ⟨w, hw⟩ := h.whole hread
  obtain ⟨_, hclosed⟩ := hw.lexed .nil
  obtain ⟨_, _, -, hmark⟩ := hs.exists_withoutMark
  obtain ⟨_, hcleaned⟩ := hmark.lexed_cleaned
  exact (hcleaned.unique hclosed).2

end

/-- A text that ends in a string or a block comment is read by no reader of values, and so not by those for values of
any shape and for declarations. -/
theorem relaxed_error_of_unclosed {text : Bytes} {kinds : List Kind} {ending : Ending}
    (hlexed : Lexed text kinds ending) (hending : ending ≠ .closed) :
    (∀ {α : Type} (reader : Reader α), Grammatical reader → ∃ fault, reader.relaxed text = .error fault) ∧
      (∃ fault, Value.parseRelaxed text = .error fault) ∧ ∃ fault, Declaration.parse text = .error fault := by
  have hreaders {α : Type} (reader : Reader α) (h : Grammatical reader) :
      ∃ fault, reader.relaxed text = .error fault := by
    cases hread : reader.relaxed text with
    | error fault => exact ⟨fault, rfl⟩
    | ok a => exact absurd (h.closed_of_relaxed hlexed hread) hending
  exact ⟨hreaders, hreaders _ (grammatical_value grammatical_strict greatestDepth),
    hreaders _ grammatical_declaration⟩

/-- A list and an opened comment in which the second pass blanks a comma and sees a string. -/
theorem relaxed_error_of_unclosed_comment :
    let text := Utf8.encode "[1]/*,]\"".toList
    let kinds := Kind.code.throughout [openList, 0x31, closeList] ++
      Kind.comment.throughout [slash, star, comma, closeList, quote]
    Lexed text kinds .inComment ∧ Ending.inComment ≠ .closed ∧ plain text = Utf8.encode "[1]/* ]\"".toList ∧
      Grammatical skip ∧ (∃ fault, skip.relaxed text = .error fault) ∧
      (∃ fault, Value.parseRelaxed text = .error fault) ∧ ∃ fault, Declaration.parse text = .error fault := by
  intro text kinds
  have hlexed : Lexed text kinds .inComment := lexed_iff.mpr (by decide)
  have hending : Ending.inComment ≠ .closed := nofun
  obtain ⟨hreaders, hvalue, hdeclaration⟩ := relaxed_error_of_unclosed hlexed hending
  exact ⟨hlexed, hending, by decide, grammatical_skip, hreaders skip grammatical_skip, hvalue, hdeclaration⟩

end ConfigChain.Json

import ConfigChain.Proofs.Json.Document
import ConfigChain.Proofs.Json.Expected

/-! # Relaxed JSON is read as its value

What is left of a document without its comments and trailing commas spells the tokens of its value, and so
does the value in strict JSON. Readers that do not see blanks read the same from both. -/

namespace ConfigChain.Json

/-! ## What spells the tokens of a value -/

theorem ends_nil : Ends [] := nofun

theorem ends_of_isBlank {b : UInt8} (h : isBlank b = true) (s : Bytes) : Ends (b :: s) := by
  rintro _ ⟨⟩
  rw [Bool.eq_false_iff]
  intro hnumeric
  simp only [isBlank, Bool.or_eq_true, decide_eq_true_eq] at h
  rcases h with ((rfl | rfl) | rfl) | rfl <;> exact absurd hnumeric (by decide)

theorem ends_blanks {gap : Bytes} (h : ∀ b ∈ gap, isBlank b = true) {s : Bytes} (hs : Ends s) :
    Ends (gap ++ s) := by
  cases gap with
  | nil => exact hs
  | cons b gap => exact ends_of_isBlank (h b List.mem_cons_self) _

theorem Mark.ends (m : Mark) (s : Bytes) : Ends (m.byte :: s) := by
  rintro _ ⟨⟩
  cases m <;> decide

theorem Lexeme.ends_blanked {l : Lexeme} (h : l.isAtom = false) (s : Bytes) : Ends (l.blanked ++ s) := by
  match l with
  | .trailingComma => exact ends_of_isBlank (by decide) s
  | .token (.mark m) => exact m.ends s
  | .token (.atom a) => cases h

theorem Spells.blanks {ts : List Token} {gap s : Bytes} (hgap : ∀ b ∈ gap, isBlank b = true)
    (h : Spells ts s) : Spells ts (gap ++ s) := by
  induction gap with
  | nil => exact h
  | cons b gap ih =>
      obtain ⟨hb, hgap⟩ := List.forall_mem_cons.mp hgap
      exact .blank hb (ih hgap)

theorem ends_filled {filled : List (List Filler × Lexeme)} {tail : Bytes}
    (hfirst : ∀ l ∈ (filled.map Prod.snd).head?, l.isAtom = false) (htail : ∀ b ∈ tail, isBlank b = true) :
    Ends ((filled.flatMap fun p => p.1.flatMap Filler.blanked ++ p.2.blanked) ++ tail) := by
  cases filled with
  | nil => simpa using ends_blanks htail ends_nil
  | cons p filled =>
      simp only [List.flatMap_cons, List.append_assoc]
      exact ends_blanks (isBlank_fillers p.1) (Lexeme.ends_blanked (hfirst p.2 rfl) _)

theorem spells_filled {filled : List (List Filler × Lexeme)} {tail : Bytes}
    (hfits : (filled.map Prod.snd).IsChain Lexeme.Fits) (htail : ∀ b ∈ tail, isBlank b = true) :
    Spells ((filled.map Prod.snd).filterMap Lexeme.token?)
      ((filled.flatMap fun p => p.1.flatMap Filler.blanked ++ p.2.blanked) ++ tail) := by
  induction filled with
  | nil => simpa using Spells.blanks htail .nil
  | cons p filled ih =>
      obtain ⟨hfirst, hrest⟩ := List.isChain_cons.mp hfits
      have h := ih hrest
      simp only [List.flatMap_cons, List.append_assoc, List.map_cons, List.filterMap_cons]
      refine Spells.blanks (isBlank_fillers p.1) ?_
      cases hlexeme : p.2 with
      | trailingComma => exact .blank (by decide) h
      | token t =>
          refine .token t (fun n hn => ends_filled (fun l hl => ?_) htail) h
          exact (hfirst l hl).atom (by rw [hlexeme, hn]; rfl)

theorem Document.spells_blanked (d : Document) : Spells d.value.tokens d.blanked := by
  have h := spells_filled d.fits d.isBlank_tail
  rwa [d.lexemes_eq] at h

theorem Lexeme.exists_mark_of_isClose {l : Lexeme} (h : l.isClose = true) : ∃ m, l = .token (.mark m) := by
  match l with
  | .token (.mark m) => exact ⟨m, rfl⟩
  | .token (.atom a) => cases h
  | .trailingComma => cases h

theorem Lexeme.exists_mark_of_isAtom {t : Token} (h : (Lexeme.token t).isAtom = false) :
    ∃ m, t = .mark m := by
  cases t with
  | mark m => exact ⟨m, rfl⟩
  | atom a => cases h

/-- A trailing comma hides no value: behind it is a closing mark. -/
theorem exists_mark_of_first {ls : List Lexeme} (h : ls.IsChain Lexeme.Fits)
    (hfirst : ∀ l ∈ ls.head?, l.isAtom = false) {t : Token}
    (ht : t ∈ (ls.filterMap Lexeme.token?).head?) : ∃ m, t = .mark m := by
  match ls with
  | [] => cases ht
  | .token _ :: _ =>
      cases ht
      exact Lexeme.exists_mark_of_isAtom (hfirst _ rfl)
  | [.trailingComma] => cases ht
  | .trailingComma :: l :: ls =>
      obtain ⟨m, rfl⟩ := Lexeme.exists_mark_of_isClose ((List.isChain_cons_cons.mp h).1.trailing rfl)
      cases ht
      exact ⟨m, rfl⟩

/-- Without the trailing commas there are still no two values at once. -/
theorem isChain_tokens {ls : List Lexeme} (h : ls.IsChain Lexeme.Fits) :
    (ls.filterMap Lexeme.token?).IsChain fun t next => ∀ a, t = .atom a → ∃ m, next = .mark m := by
  induction ls with
  | nil => exact List.isChain_nil
  | cons l ls ih =>
      obtain ⟨hfirst, hrest⟩ := List.isChain_cons.mp h
      cases l with
      | trailingComma => exact ih hrest
      | token t =>
          refine List.isChain_cons.mpr ⟨?_, ih hrest⟩
          rintro next hnext a rfl
          exact exists_mark_of_first hrest (fun l hl => (hfirst l hl).atom rfl) hnext

theorem spells_flatMap {ts : List Token}
    (h : ts.IsChain fun t next => ∀ a, t = .atom a → ∃ m, next = .mark m) :
    Spells ts (ts.flatMap Token.bytes) := by
  induction ts with
  | nil => exact .nil
  | cons t ts ih =>
      obtain ⟨hfirst, hrest⟩ := List.isChain_cons.mp h
      refine .token t (fun n hn => ?_) (ih hrest)
      cases ts with
      | nil => exact ends_nil
      | cons next ts =>
          obtain ⟨m, rfl⟩ := hfirst next rfl _ hn
          exact m.ends _

theorem Written.spells_strict (w : Written) : Spells w.tokens w.strict :=
  spells_flatMap (isChain_tokens w.isValue_lexemes.isChain)

/-! ## Documents are read as their values -/

theorem Blind.relaxed_eq {α : Type} {reader : Reader α} (h : Blind reader) (d : Document) :
    (reader.relaxed d.written).toOption = (reader.whole d.value.strict).toOption := by
  rw [Reader.relaxed, d.plain_written]
  exact h.whole_eq d.spells_blanked d.value.spells_strict

/-- A document is taken to the same text without its mark in which the comments, but for the line ends in
them, and the trailing commas are blank, and so to itself if it is strict. From the result every reader that
does not see blanks reads what it reads from the value in strict JSON; so do the readers for values of any
shape and for declarations. -/
theorem relaxed_document (d : Document) :
    plain d.written = d.blanked ∧ (d.IsStrict → plain d.written = d.written) ∧
      (∀ {α : Type} (reader : Reader α), Blind reader →
        (reader.relaxed d.written).toOption = (reader.whole d.value.strict).toOption) ∧
      (Value.parseRelaxed d.written).toOption = (Value.parse d.value.strict).toOption ∧
      (Declaration.parse d.written).toOption = (declarationRecord.reader.whole d.value.strict).toOption := by
  refine ⟨d.plain_written, fun h => d.plain_written.trans h.blanked_eq, fun _ h => h.relaxed_eq d, ?_, ?_⟩
  · exact (blind_value lexical_strict greatestDepth).relaxed_eq d
  · exact blind_declaration.relaxed_eq d

theorem isBody_of_plain {s : Bytes} (h : ∀ b ∈ s, b ≠ quote ∧ b ≠ backslash) : IsBody s := by
  induction s with
  | nil => exact .nil
  | cons b s ih =>
      obtain ⟨⟨hquote, hbackslash⟩, hs⟩ := List.forall_mem_cons.mp h
      exact .cons hquote hbackslash (ih hs)

/-- A declaration with a mark in front, a comment of each kind and a trailing comma. -/
def commented : Document :=
  let key : Body := ⟨Utf8.encode "extends".toList, isBody_of_plain (List.all_iff_forall_prop.mp (by decide))⟩
  let value : Body := ⟨Utf8.encode "./b".toList, isBody_of_plain (List.all_iff_forall_prop.mp (by decide))⟩
  { marked := true
    value := .object [(key, .atom (.text value))] true
    filled := [
      ([], .token (.mark .openObject)),
      ([], .token (.atom (.text key))),
      ([], .token (.mark .colon)),
      ([.block ⟨[comma, closeList], by decide⟩], .token (.atom (.text value))),
      ([], .trailingComma),
      ([.line ⟨[quote], by decide⟩], .token (.mark .closeObject))]
    lexemes_eq := rfl
    last := []
    comment := none }

/-- Strict JSON. -/
def spaced : Document where
  marked := false
  value := .atom .null
  filled := [([.blank newline (by decide)], .token (.atom .null))]
  lexemes_eq := rfl
  last := [.blank space (by decide)]
  comment := none

theorem relaxed_document_commented :
    commented.written = mark ++ Utf8.encode "\x7b\"extends\":/*,]*/\"./b\",//\"\n\x7d".toList ∧
      plain commented.written = Utf8.encode "\x7b\"extends\":      \"./b\"    \n\x7d".toList ∧
      (Declaration.parse commented.written).toOption = some { reference := some "./b" } ∧
      spaced.IsStrict ∧ plain spaced.written = spaced.written ∧ Blind (strict.value greatestDepth) ∧
      ((strict.value greatestDepth).relaxed spaced.written).toOption =
        (Value.parse spaced.value.strict).toOption := by
  obtain ⟨hplain, -, -, -, hdeclaration⟩ := relaxed_document commented
  obtain ⟨-, hspaced, hreaders, -⟩ := relaxed_document spaced
  have hblank : ∀ f ∈ [Filler.blank newline (by decide)], ∃ b h, f = .blank b h :=
    List.forall_mem_singleton.mpr ⟨_, _, rfl⟩
  have hstrict : spaced.IsStrict :=
    ⟨rfl, List.forall_mem_singleton.mpr ⟨hblank, nofun⟩, List.forall_mem_singleton.mpr ⟨_, _, rfl⟩, rfl⟩
  have hblind : Blind (strict.value greatestDepth) := blind_value lexical_strict greatestDepth
  refine ⟨by decide, hplain.trans (by decide), hdeclaration.trans ?_, hstrict, hspaced hstrict, hblind,
    hreaders _ hblind⟩
  decide +kernel

end ConfigChain.Json

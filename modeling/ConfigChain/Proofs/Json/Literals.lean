import ConfigChain.Proofs.Json.Lexing

/-! # Readers of one token find one

What a reader of strings, numbers or words takes from the front of a text is a string, number or word as the grammar
of JSON has it, down to the last byte. -/

namespace ConfigChain.Json

/-! ## Strings -/

/-- Bytes inside a string after which it may go on in any way. -/
def Continues (front : Bytes) : Prop := ∀ {body : Bytes}, IsBody body → IsBody (front ++ body)

theorem continues_of_bare {front : Bytes} (h : ∀ b ∈ front, b ≠ quote ∧ b ≠ backslash) : Continues front := by
  intro body hbody
  induction front with
  | nil => exact hbody
  | cons b front ih =>
      obtain ⟨⟨hquote, hbackslash⟩, hfront⟩ := List.forall_mem_cons.mp h
      exact .cons hquote hbackslash (ih hfront)

theorem exists_continues_of_fourHex {s r : Bytes} {n : Nat} (h : fourHex s = .ok (n, r)) :
    ∃ front, s = front ++ r ∧ Continues front := by
  obtain ⟨a, b, c, d, rfl, hhex⟩ := fourHex_eq_ok h
  refine ⟨[a, b, c, d], rfl, continues_of_bare fun x hx => ?_⟩
  obtain ⟨k, hk⟩ := hhex x hx
  exact ⟨ne_quote_of_hexValue? hk, ne_backslash_of_hexValue? hk⟩

theorem exists_continues_of_codeUnits {s r bytes : Bytes} (h : codeUnits s = .ok (bytes, r)) :
    ∃ front, s = front ++ r ∧ Continues front := by
  unfold codeUnits at h
  split at h
  · cases h
  · rename_i n t hfour
    obtain ⟨high, rfl, hhigh⟩ := exists_continues_of_fourHex hfour
    split at h
    · cases h
    · split at h
      · obtain ⟨u, low, rfl, hlow, -⟩ := pairEnd_eq_ok h
        obtain ⟨front, rfl, hfront⟩ := exists_continues_of_fourHex hlow
        refine ⟨high ++ backslash :: letterU :: front, by simp, fun hbody => ?_⟩
        rw [List.append_assoc]
        exact hhigh (.escaped letterU (hfront hbody))
      · cases h
        exact ⟨high, rfl, hhigh⟩

/-- An escape is the byte that the backslash takes and, if that asks for them, its digits. -/
theorem exists_continues_of_escape {s r bytes : Bytes} (h : escape s = .ok (bytes, r)) :
    ∃ b front, s = b :: (front ++ r) ∧ Continues front := by
  cases s with
  | nil => cases h
  | cons b s =>
      simp only [escape] at h
      split at h
      · cases h
        exact ⟨b, [], rfl, id⟩
      · split at h
        · obtain ⟨front, rfl, hfront⟩ := exists_continues_of_codeUnits h
          exact ⟨b, front, rfl, hfront⟩
        · cases h

theorem exists_continues_of_skipEscape {s r : Bytes} (h : skipEscape s = .ok r) :
    ∃ b front, s = b :: (front ++ r) ∧ Continues front := by
  cases s with
  | nil => cases h
  | cons b s =>
      simp only [skipEscape] at h
      split at h
      · cases h
        exact ⟨b, [], rfl, id⟩
      · split at h
        · split at h
          · cases h
          · rename_i n t hfour
            cases h
            obtain ⟨front, rfl, hfront⟩ := exists_continues_of_fourHex hfour
            exact ⟨b, front, rfl, hfront⟩
        · cases h

/-- A string is read up to a quote that no backslash takes. -/
theorem exists_isBody_of_stringBody {s r bytes : Bytes} (h : stringBody s = .ok (bytes, r)) :
    ∃ body, IsBody body ∧ s = body ++ quote :: r := by
  fun_induction stringBody s generalizing bytes with
  | case1 => cases h
  | case2 s =>
      cases h
      exact ⟨[], .nil, rfl⟩
  | case3 => cases h
  | case4 s front t hescape _ ih =>
      obtain ⟨_, hrest, -⟩ := Reading.map_eq_ok h
      obtain ⟨body, hbody, rfl⟩ := ih hrest
      obtain ⟨b, front, rfl, hfront⟩ := exists_continues_of_escape hescape
      exact ⟨backslash :: b :: (front ++ body), .escaped b (hfront hbody), by simp⟩
  | case5 => cases h
  | case6 b s hquote hbackslash _ ih =>
      obtain ⟨_, hrest, -⟩ := Reading.map_eq_ok h
      obtain ⟨body, hbody, rfl⟩ := ih hrest
      exact ⟨b :: body, .cons hquote hbackslash hbody, rfl⟩

theorem exists_isBody_of_skipBody {s r : Bytes} (h : skipBody s = .ok r) :
    ∃ body, IsBody body ∧ s = body ++ quote :: r := by
  fun_induction skipBody s with
  | case1 => cases h
  | case2 s =>
      cases h
      exact ⟨[], .nil, rfl⟩
  | case3 => cases h
  | case4 s t hescape _ ih =>
      obtain ⟨body, hbody, rfl⟩ := ih h
      obtain ⟨b, front, rfl, hfront⟩ := exists_continues_of_skipEscape hescape
      exact ⟨backslash :: b :: (front ++ body), .escaped b (hfront hbody), by simp⟩
  | case5 => cases h
  | case6 b s hquote hbackslash _ ih =>
      obtain ⟨body, hbody, rfl⟩ := ih h
      exact ⟨b :: body, .cons hquote hbackslash hbody, rfl⟩

theorem exists_quoted_of_afterQuote {α : Type} {body : Bytes → Reading α} {s r : Bytes} {a : α}
    (hbody : ∀ {t}, body t = .ok (a, r) → ∃ front, IsBody front ∧ t = front ++ quote :: r)
    (h : afterQuote body s = .ok (a, r)) : ∃ body : Body, s = body.quoted ++ r := by
  cases s with
  | nil => cases h
  | cons b s =>
      simp only [afterQuote] at h
      split at h
      · rename_i hb
        obtain ⟨front, hfront, rfl⟩ := hbody h
        exact ⟨⟨front, hfront⟩, by simp [Body.quoted, hb]⟩
      · cases h

theorem string_eq_ok {s r : Bytes} {a : String} (h : string.read s = .ok (a, r)) :
    ∃ body : Body, s = body.quoted ++ r := by
  refine exists_quoted_of_afterQuote (fun hread => ?_) h
  obtain ⟨bytes, hbytes⟩ := spelled_eq_ok hread
  exact exists_isBody_of_stringBody hbytes

theorem skippedString_eq_ok {s r : Bytes} {a : Unit} (h : skippedString.read s = .ok (a, r)) :
    ∃ body : Body, s = body.quoted ++ r := by
  refine exists_quoted_of_afterQuote (fun {t} hread => ?_) h
  cases hskip : skipBody t with
  | error stop => simp [hskip] at hread
  | ok rest =>
      rw [hskip] at hread
      cases hread
      exact exists_isBody_of_skipBody hskip

/-! ## Numbers -/

/-- The digits that come first, if at least one does. -/
def Digits.ofCons {d : UInt8} (hd : Json.isDigit d = true) (s : Bytes) : Digits where
  bytes := d :: s.takeWhile Json.isDigit
  ne_nil := List.cons_ne_nil _ _
  isDigit := List.forall_mem_cons.mpr ⟨hd, fun _ => List.mem_takeWhile_imp⟩

theorem Digits.ofCons_append {d : UInt8} (hd : Json.isDigit d = true) (s : Bytes) :
    (ofCons hd s).bytes ++ afterDigits s = d :: s := by
  simp [ofCons, afterDigits]

namespace NumberText

theorem exists_of_readWhole {e : Cause} {s r : Bytes} {ds : List Nat} (h : Numeral.readWhole e s = .ok (ds, r)) :
    ∃ whole : Digits, (whole.bytes.head? = some 0x30 → whole.bytes = [0x30]) ∧ s = whole.bytes ++ r := by
  cases s with
  | nil => cases h
  | cons b s =>
      simp only [Numeral.readWhole] at h
      split at h
      · rename_i hb
        split at h
        · cases h
        · cases h
          exact ⟨⟨[b], List.cons_ne_nil _ _, by simp [hb]; decide⟩, by simp [hb], rfl⟩
      · rename_i hb
        split at h
        · rename_i hdigit
          cases h
          exact ⟨.ofCons hdigit s, fun hzero => absurd (Option.some.inj hzero) hb,
            (Digits.ofCons_append hdigit s).symm⟩
        · cases h

theorem exists_of_readFraction {e : Cause} {s r : Bytes} {ds : List Nat}
    (h : Numeral.readFraction e s = .ok (ds, r)) :
    ∃ fraction : Option Digits, s = (fraction.elim [] fun ds => point :: ds.bytes) ++ r := by
  cases s with
  | nil =>
      cases h
      exact ⟨none, rfl⟩
  | cons b s =>
      simp only [Numeral.readFraction] at h
      split at h
      · rename_i hb
        split at h
        · cases h
        · rename_i d ds hdigits
          cases h
          refine ⟨some ⟨s.takeWhile isDigit, fun hnil => ?_, fun _ => List.mem_takeWhile_imp⟩, ?_⟩
          · simp [digits, hnil] at hdigits
          · simp [hb, afterDigits]
      · cases h
        exact ⟨none, rfl⟩

theorem exists_of_dropSign (s : Bytes) :
    ∃ sign : Option Bool, s = (sign.map fun negative => if negative then minus else plus).toList ++
      Numeral.dropSign s := by
  unfold Numeral.dropSign
  split
  · rename_i hsign
    rcases hsign with hplus | hminus
    · obtain ⟨t, rfl⟩ := List.head?_eq_some_iff.mp hplus
      exact ⟨some false, rfl⟩
    · obtain ⟨t, rfl⟩ := List.head?_eq_some_iff.mp hminus
      exact ⟨some true, rfl⟩
  · exact ⟨none, rfl⟩

theorem exists_of_readExponent {e : Cause} {s r : Bytes} {x : Option (Bool × List Nat)}
    (h : Numeral.readExponent e s = .ok (x, r)) :
    ∃ exponent : Option ExponentText, s = exponent.elim [] ExponentText.bytes ++ r := by
  cases s with
  | nil =>
      cases h
      exact ⟨none, rfl⟩
  | cons b s =>
      simp only [Numeral.readExponent] at h
      split at h
      · rename_i hb
        split at h
        · cases h
        · rename_i d t hsign
          split at h
          · rename_i hdigit
            cases h
            obtain ⟨sign, hs⟩ := exists_of_dropSign s
            have hletter : b = if decide (b = capitalE) then capitalE else letterE := by
              rcases hb with rfl | rfl <;> rfl
            refine ⟨some ⟨b = capitalE, sign, .ofCons hdigit t⟩, ?_⟩
            rw [Option.elim_some, ExponentText.bytes, ← hletter, List.cons_append, List.append_assoc,
              Digits.ofCons_append, ← hsign, ← hs]
          · cases h
      · cases h
        exact ⟨none, rfl⟩

theorem exists_of_read {e : Cause} {s r : Bytes} {m : Numeral} (h : Numeral.read e s = .ok (m, r)) :
    ∃ n : NumberText, s = n.bytes ++ r := by
  simp only [Numeral.read] at h
  split at h
  · cases h
  · rename_i ds t hwhole
    split at h
    · cases h
    · rename_i hfraction
      split at h
      · cases h
      · rename_i hexponent
        cases h
        obtain ⟨whole, hleading, hs⟩ := exists_of_readWhole hwhole
        obtain ⟨fraction, rfl⟩ := exists_of_readFraction hfraction
        obtain ⟨exponent, rfl⟩ := exists_of_readExponent hexponent
        refine ⟨⟨s.head? == some minus, whole, hleading, fraction, exponent⟩, ?_⟩
        simp only [bytes, afterWhole, List.append_assoc, ← hs]
        split
        · rename_i hminus
          obtain ⟨t, rfl⟩ := List.head?_eq_some_iff.mp (beq_iff_eq.mp hminus)
          rfl
        · rfl

end NumberText

theorem number_eq_ok {s r : Bytes} {a : Number} (h : number.read s = .ok (a, r)) :
    ∃ n : NumberText, s = n.bytes ++ r := by
  simp only [number, readNumber] at h
  split at h
  · cases h
  · rename_i hread
    split at h
    · cases h
      exact NumberText.exists_of_read hread
    · cases h

theorem skippedNumber_eq_ok {s r : Bytes} {a : Unit} (h : skippedNumber.read s = .ok (a, r)) :
    ∃ n : NumberText, s = n.bytes ++ r := by
  obtain ⟨_, hread, -⟩ := Reading.map_eq_ok h
  exact NumberText.exists_of_read hread

/-! ## Words -/

theorem word_eq_ok {w s r : Bytes} (h : word w s = .ok r) : s = w ++ r := by
  induction w generalizing s with
  | nil => exact Except.ok.inj h
  | cons b w ih =>
      cases s with
      | nil => cases h
      | cons c s =>
          simp only [word] at h
          split at h
          · rename_i hb
            rw [hb, ih h, List.cons_append]
          · cases h

theorem wordThen_eq_ok {α : Type} {w s r : Bytes} {a b : α} (h : wordThen w a s = .ok (b, r)) : s = w ++ r := by
  unfold wordThen at h
  split at h
  · cases h
  · rename_i hword
    cases h
    exact word_eq_ok hword

end ConfigChain.Json

import ConfigChain.Proofs.Json.Token
import Mathlib.Data.List.TakeWhile

/-! # Reading one token

A reader of strings or numbers takes just its token from a text, and what follows the token has no say in
what it reads. -/

namespace ConfigChain.Json

/-! ## The inside of strings -/

theorem IsBody.tail {b : UInt8} {s : Bytes} (h : IsBody (b :: s)) (hb : b ≠ backslash) : IsBody s := by
  cases h with
  | escaped _ _ => exact absurd rfl hb
  | cons _ _ h => exact h

/-- A reader that takes a part of a string from its inside, whatever follows the string. -/
def Inside {α : Type} (read : Bytes → Reading α) (body : Bytes) : Prop :=
  ∀ r a rest, read (body ++ quote :: r) = .ok (a, rest) →
    ∃ left, IsBody left ∧ rest = left ++ quote :: r ∧
      ∀ r', read (body ++ quote :: r') = .ok (a, left ++ quote :: r')

theorem ne_quote_of_hexValue? {b : UInt8} {n : Nat} (h : hexValue? b = some n) : b ≠ quote := by
  rintro rfl
  have hnone : hexValue? quote = none := by decide
  rw [hnone] at h
  cases h

theorem ne_backslash_of_hexValue? {b : UInt8} {n : Nat} (h : hexValue? b = some n) : b ≠ backslash := by
  rintro rfl
  have hnone : hexValue? backslash = none := by decide
  rw [hnone] at h
  cases h

theorem fourHex_eq_ok {s r : Bytes} {n : Nat} (h : fourHex s = .ok (n, r)) :
    ∃ a b c d, s = a :: b :: c :: d :: r ∧ ∀ x ∈ [a, b, c, d], ∃ k, hexValue? x = some k := by
  unfold fourHex at h
  split at h
  · rename_i a b c d t
    split at h
    · rename_i ha hb hc hd
      simp only [Except.ok.injEq, Prod.mk.injEq] at h
      obtain ⟨-, rfl⟩ := h
      exact ⟨a, b, c, d, rfl, by simp [ha, hb, hc, hd]⟩
    · cases h
  · cases h

/-- Four digits end before the string does. -/
theorem inside_fourHex {body : Bytes} (h : IsBody body) : Inside fourHex body := by
  intro r n rest hread
  obtain ⟨a, b, c, d, heq, hhex⟩ := fourHex_eq_ok hread
  have hquote : quote ∉ [a, b, c, d] := fun hmem => by
    obtain ⟨k, hk⟩ := hhex quote hmem
    exact absurd rfl (ne_quote_of_hexValue? hk)
  have hbackslash : ∀ x ∈ [a, b, c, d], x ≠ backslash := fun x hx => by
    obtain ⟨k, hk⟩ := hhex x hx
    exact ne_backslash_of_hexValue? hk
  simp only [List.forall_mem_cons] at hbackslash
  obtain ⟨ha, hb, hc, hd, -⟩ := hbackslash
  match body, heq with
  | [], heq => simp_all
  | [_], heq => simp_all
  | [_, _], heq => simp_all
  | [_, _, _], heq => simp_all
  | _ :: _ :: _ :: _ :: left, heq =>
      simp only [List.cons_append, List.cons.injEq] at heq
      obtain ⟨rfl, rfl, rfl, rfl, hrest⟩ := heq
      refine ⟨left, (((h.tail ha).tail hb).tail hc).tail hd, hrest.symm, fun r' => ?_⟩
      simp only [List.cons_append, fourHex] at hread ⊢
      split at hread
      · simp only [Except.ok.injEq, Prod.mk.injEq] at hread
        rw [hread.1]
      · cases hread

theorem pairEnd_eq_ok {s r bytes : Bytes} {high : Nat} (h : pairEnd high s = .ok (bytes, r)) :
    ∃ t low, s = backslash :: letterU :: t ∧ fourHex t = .ok (low, r) ∧ closesPair low = true ∧
      bytes = String.utf8EncodeChar (Char.ofNat (pairValue high low)) := by
  unfold pairEnd at h
  split at h
  · cases h
  · split at h
    · cases h
    · rename_i hbackslash
      split at h
      · cases h
      · split at h
        · cases h
        · rename_i hu
          split at h
          · cases h
          · rename_i low r' hfour
            split at h
            · rename_i hcloses
              simp only [Except.ok.injEq, Prod.mk.injEq] at h
              obtain ⟨rfl, rfl⟩ := h
              exact ⟨_, low, by rw [not_not.mp hbackslash, not_not.mp hu], hfour, hcloses, rfl⟩
            · cases h

theorem pairEnd_of_fourHex {t r : Bytes} {high low : Nat} (hfour : fourHex t = .ok (low, r))
    (hcloses : closesPair low = true) :
    pairEnd high (backslash :: letterU :: t) =
      .ok (String.utf8EncodeChar (Char.ofNat (pairValue high low)), r) := by
  simp only [pairEnd, hfour, hcloses, ne_eq, not_true, if_false, if_true]

theorem inside_pairEnd {body : Bytes} (h : IsBody body) (high : Nat) : Inside (pairEnd high) body := by
  intro r bytes rest hread
  obtain ⟨t, low, heq, hfour, hcloses, hbytes⟩ := pairEnd_eq_ok hread
  cases h with
  | nil => exact absurd (List.cons.inj heq).1 (by decide)
  | cons _ hbackslash _ => exact absurd (List.cons.inj heq).1 hbackslash
  | @escaped b s h =>
      simp only [List.cons_append, List.cons.injEq, true_and] at heq
      obtain ⟨rfl, rfl⟩ := heq
      obtain ⟨left, hleft, hrest, hall⟩ := inside_fourHex h r low rest hfour
      exact ⟨left, hleft, hrest, fun r' => hbytes ▸ pairEnd_of_fourHex (hall r') hcloses⟩

theorem inside_codeUnits {body : Bytes} (h : IsBody body) : Inside codeUnits body := by
  intro r bytes rest hread
  unfold codeUnits at hread
  split at hread
  · cases hread
  · rename_i n r' hfour
    obtain ⟨left, hleft, rfl, hall⟩ := inside_fourHex h r n r' hfour
    split at hread
    · cases hread
    · rename_i hcloses
      split at hread
      · rename_i hopens
        obtain ⟨left', hleft', hrest, hall'⟩ := inside_pairEnd hleft n r bytes rest hread
        refine ⟨left', hleft', hrest, fun r'' => ?_⟩
        simp only [codeUnits, hall r'', hcloses, hopens, if_true]
        exact hall' r''
      · rename_i hopens
        simp only [Except.ok.injEq, Prod.mk.injEq] at hread
        obtain ⟨rfl, rfl⟩ := hread
        refine ⟨left, hleft, rfl, fun r'' => ?_⟩
        simp [codeUnits, hall r'', hcloses, hopens]

/-- An escape, whatever byte it is that the backslash takes. -/
theorem escape_cons {b : UInt8} {body : Bytes} (h : IsBody body) {r bytes rest : Bytes}
    (hread : escape (b :: (body ++ quote :: r)) = .ok (bytes, rest)) :
    ∃ left, IsBody left ∧ rest = left ++ quote :: r ∧
      ∀ r', escape (b :: (body ++ quote :: r')) = .ok (bytes, left ++ quote :: r') := by
  simp only [escape] at hread ⊢
  cases hbyte : escapedByte? b with
  | some c =>
      simp only [hbyte, Except.ok.injEq, Prod.mk.injEq] at hread ⊢
      obtain ⟨rfl, rfl⟩ := hread
      exact ⟨body, h, rfl, fun _ => ⟨rfl, rfl⟩⟩
  | none =>
      simp only [hbyte] at hread ⊢
      by_cases hu : b = letterU
      · simp only [hu, if_true] at hread ⊢
        exact inside_codeUnits h r bytes rest hread
      · simp [hu] at hread

theorem skipEscape_cons {b : UInt8} {body : Bytes} (h : IsBody body) {r rest : Bytes}
    (hread : skipEscape (b :: (body ++ quote :: r)) = .ok rest) :
    ∃ left, IsBody left ∧ rest = left ++ quote :: r ∧
      ∀ r', skipEscape (b :: (body ++ quote :: r')) = .ok (left ++ quote :: r') := by
  simp only [skipEscape] at hread ⊢
  by_cases hbyte : (escapedByte? b).isSome = true
  · simp only [hbyte, if_true, Except.ok.injEq] at hread ⊢
    exact ⟨body, h, hread.symm, fun _ => rfl⟩
  · simp only [hbyte] at hread ⊢
    by_cases hu : b = letterU
    · simp only [hu, if_true] at hread ⊢
      cases hfour : fourHex (body ++ quote :: r) with
      | error stop => simp [hfour] at hread
      | ok found =>
          obtain ⟨n, r'⟩ := found
          obtain ⟨left, hleft, rfl, hall⟩ := inside_fourHex h r n r' hfour
          refine ⟨left, hleft, ?_, fun r'' => ?_⟩
          · simpa [hfour] using hread.symm
          · simp [hall r'']
    · simp [hu] at hread

/-! ## Strings -/

theorem stringBody_quote (s : Bytes) : stringBody (quote :: s) = .ok ([], s) := by
  rw [stringBody, if_pos rfl]

theorem stringBody_backslash (s : Bytes) :
    stringBody (backslash :: s) =
      match escape s with
      | .error stop => .error stop
      | .ok (bytes, r) => (stringBody r).map (bytes ++ ·) := by
  rw [stringBody, if_neg (by decide), if_pos rfl]
  split <;> rename_i h <;> rw [h]

theorem stringBody_byte {b : UInt8} (hquote : b ≠ quote) (hbackslash : b ≠ backslash) (s : Bytes) :
    stringBody (b :: s) =
      if b < 0x20 then .error (.here .controlCharacter s) else (stringBody s).map (b :: ·) := by
  rw [stringBody, if_neg hquote, if_neg hbackslash]

/-- A string ends with its closing quote. -/
theorem stringBody_append {body : Bytes} (h : IsBody body) {r bytes rest : Bytes}
    (hread : stringBody (body ++ quote :: r) = .ok (bytes, rest)) :
    rest = r ∧ ∀ r', stringBody (body ++ quote :: r') = .ok (bytes, r') := by
  induction hn : body.length using Nat.strong_induction_on generalizing body bytes rest with
  | h n ih =>
      cases h with
      | nil =>
          rw [List.nil_append, stringBody_quote] at hread
          cases hread
          exact ⟨rfl, stringBody_quote⟩
      | @escaped b s h =>
          simp only [List.cons_append, stringBody_backslash] at hread ⊢
          cases hescape : escape (b :: (s ++ quote :: r)) with
          | error stop => simp [hescape] at hread
          | ok found =>
              obtain ⟨front, r₁⟩ := found
              obtain ⟨left, hleft, rfl, hall⟩ := escape_cons h hescape
              rw [hescape] at hread
              obtain ⟨back, hback, rfl⟩ := Reading.map_eq_ok hread
              have hlength := length_escape_lt hescape
              simp only [List.length_append, List.length_cons] at hlength hn
              obtain ⟨rfl, hrest⟩ := ih left.length (by omega) hleft hback rfl
              exact ⟨rfl, fun r' => by simp [hall r', hrest r', Reading.map]⟩
      | @cons b s hquote hbackslash h =>
          simp only [List.cons_append, stringBody_byte hquote hbackslash] at hread ⊢
          split at hread
          · cases hread
          · rename_i hcontrol
            obtain ⟨back, hback, rfl⟩ := Reading.map_eq_ok hread
            obtain ⟨rfl, hrest⟩ := ih s.length (by simp [← hn]) h hback rfl
            exact ⟨rfl, fun r' => by simp [hcontrol, hrest r', Reading.map]⟩

theorem skipBody_quote (s : Bytes) : skipBody (quote :: s) = .ok s := by
  rw [skipBody, if_pos rfl]

theorem skipBody_backslash (s : Bytes) :
    skipBody (backslash :: s) =
      match skipEscape s with
      | .error stop => .error stop
      | .ok r => skipBody r := by
  rw [skipBody, if_neg (by decide), if_pos rfl]
  split <;> rename_i h <;> rw [h]

theorem skipBody_byte {b : UInt8} (hquote : b ≠ quote) (hbackslash : b ≠ backslash) (s : Bytes) :
    skipBody (b :: s) =
      if b < 0x20 then .error (.here .controlCharacter (b :: s)) else skipBody s := by
  rw [skipBody, if_neg hquote, if_neg hbackslash]

theorem skipBody_append {body : Bytes} (h : IsBody body) {r rest : Bytes}
    (hread : skipBody (body ++ quote :: r) = .ok rest) :
    rest = r ∧ ∀ r', skipBody (body ++ quote :: r') = .ok r' := by
  induction hn : body.length using Nat.strong_induction_on generalizing body with
  | h n ih =>
      cases h with
      | nil =>
          rw [List.nil_append, skipBody_quote] at hread
          cases hread
          exact ⟨rfl, skipBody_quote⟩
      | @escaped b s h =>
          simp only [List.cons_append, skipBody_backslash] at hread ⊢
          cases hescape : skipEscape (b :: (s ++ quote :: r)) with
          | error stop => simp [hescape] at hread
          | ok r₁ =>
              obtain ⟨left, hleft, rfl, hall⟩ := skipEscape_cons h hescape
              rw [hescape] at hread
              have hlength := length_skipEscape_lt hescape
              simp only [List.length_append, List.length_cons] at hlength hn
              obtain ⟨rfl, hrest⟩ := ih left.length (by omega) hleft hread rfl
              exact ⟨rfl, fun r' => by simp [hall r', hrest r']⟩
      | @cons b s hquote hbackslash h =>
          simp only [List.cons_append, skipBody_byte hquote hbackslash] at hread ⊢
          split at hread
          · cases hread
          · rename_i hcontrol
            obtain ⟨rfl, hrest⟩ := ih s.length (by simp [← hn]) h hread rfl
            exact ⟨rfl, fun r' => by simp [hcontrol, hrest r']⟩

/-! ## Numbers -/

/-- What follows begins with no digit. -/
def NoDigit (s : Bytes) : Prop := ∀ b ∈ s.head?, isDigit b = false

theorem takeWhile_append_of_all {p : UInt8 → Bool} {t s : Bytes} (ht : ∀ b ∈ t, p b = true)
    (hs : ∀ b ∈ s.head?, p b = false) : (t ++ s).takeWhile p = t ∧ (t ++ s).dropWhile p = s := by
  rw [List.takeWhile_append_of_pos ht, List.dropWhile_append_of_pos ht]
  cases s with
  | nil => simp
  | cons b s => simp [hs b rfl]

theorem Digits.digits_append (ds : Digits) {s : Bytes} (hs : NoDigit s) :
    digits (ds.bytes ++ s) = ds.bytes.map digitValue ∧ afterDigits (ds.bytes ++ s) = s := by
  obtain ⟨htake, hdrop⟩ := takeWhile_append_of_all ds.isDigit hs
  exact ⟨congrArg _ htake, hdrop⟩

/-- What follows does not go on with a number. -/
def Ends (s : Bytes) : Prop := ∀ b ∈ s.head?, isNumeric b = false

theorem Ends.noDigit {s : Bytes} (h : Ends s) : NoDigit s := by
  intro b hb
  rw [Bool.eq_false_iff]
  exact fun hdigit => absurd (isNumeric_of_isDigit hdigit) (by simp [h b hb])

namespace NumberText

theorem readWhole_append (n : NumberText) (e : Cause) {s : Bytes} (hs : NoDigit s) :
    Numeral.readWhole e (n.whole.bytes ++ s) = .ok (n.whole.bytes.map digitValue, s) := by
  obtain ⟨d, ds, hds⟩ := List.exists_cons_of_ne_nil n.whole.ne_nil
  by_cases hzero : d = 0x30
  · subst hzero
    have hwhole := n.leading (by simp [hds])
    have hnext : s.head?.any isDigit = false := by
      cases hhead : s.head? with
      | none => rfl
      | some b => simpa using hs b hhead
    simp only [hwhole, List.cons_append, List.nil_append, Numeral.readWhole, hnext]
    rfl
  · have hdigits := n.whole.digits_append hs
    have hd : isDigit d = true := n.whole.isDigit d (by simp [hds])
    simp only [hds, digits, afterDigits, List.cons_append, List.takeWhile_cons_of_pos hd,
      List.dropWhile_cons_of_pos hd, List.map_cons, List.cons.injEq, true_and] at hdigits
    simp only [hds, List.cons_append, Numeral.readWhole, if_neg hzero, hd, if_true, digits, afterDigits,
      hdigits, List.map_cons]

theorem readFraction_append (fraction : Option Digits) (e : Cause) {s : Bytes} (hs : NoDigit s)
    (hpoint : s.head? ≠ some point) :
    Numeral.readFraction e ((fraction.elim [] fun ds => point :: ds.bytes) ++ s) =
      .ok (fraction.elim [] fun ds => ds.bytes.map digitValue, s) := by
  cases fraction with
  | none =>
      cases s with
      | nil => rfl
      | cons b s =>
          have hb : b ≠ point := fun heq => hpoint (by rw [heq]; rfl)
          simp [Numeral.readFraction, hb]
  | some ds =>
      obtain ⟨htake, hdrop⟩ := ds.digits_append hs
      obtain ⟨d, rest, hds⟩ := List.exists_cons_of_ne_nil ds.ne_nil
      simp only [Option.elim_some, List.cons_append, Numeral.readFraction, if_true, htake, hdrop]
      simp [hds]

/-- A sign is dropped, a digit is not. -/
theorem dropSign_append (sign : Option Bool) {d : UInt8} (hd : isDigit d = true) (s : Bytes) :
    let written := (sign.map fun negative => if negative then minus else plus).toList ++ d :: s
    Numeral.dropSign written = d :: s ∧ (written.head? == some minus) = (sign == some true) := by
  intro written
  cases sign with
  | none =>
      have hplus : d ≠ plus := by
        rintro rfl
        exact absurd hd (by decide)
      have hminus : d ≠ minus := by
        rintro rfl
        exact absurd hd (by decide)
      simp [written, Numeral.dropSign, hplus, hminus]
  | some negative =>
      cases negative with
      | true => exact ⟨rfl, rfl⟩
      | false => exact ⟨rfl, rfl⟩

theorem readExponent_append (exponent : Option ExponentText) :
    ∃ x, ∀ e s, Ends s →
      Numeral.readExponent e ((exponent.elim [] ExponentText.bytes) ++ s) = .ok (x, s) := by
  cases exponent with
  | none =>
      refine ⟨none, fun e s hs => ?_⟩
      cases s with
      | nil => rfl
      | cons b s =>
          have hb : ¬ (b = letterE ∨ b = capitalE) := by
            have h := hs b rfl
            rintro (rfl | rfl) <;> exact absurd h (by decide)
          simp [Numeral.readExponent, hb]
  | some x =>
      obtain ⟨d, rest, hds⟩ := List.exists_cons_of_ne_nil x.digits.ne_nil
      have hd : isDigit d = true := x.digits.isDigit d (by simp [hds])
      refine ⟨some (x.sign == some true, x.digits.bytes.map digitValue), fun e s hs => ?_⟩
      obtain ⟨htake, hdrop⟩ := x.digits.digits_append hs.noDigit
      simp only [hds, digits, afterDigits, List.cons_append, List.takeWhile_cons_of_pos hd,
        List.dropWhile_cons_of_pos hd, List.map_cons, List.cons.injEq, true_and] at htake hdrop
      have hmark : (if x.capital then capitalE else letterE) = letterE ∨
          (if x.capital then capitalE else letterE) = capitalE := by
        cases x.capital <;> simp
      simp only [Option.elim_some, ExponentText.bytes, List.cons_append, Numeral.readExponent, hmark, if_true]
      obtain ⟨hrest, hsign⟩ := dropSign_append x.sign hd (rest ++ s)
      rw [hds, List.append_assoc, List.cons_append]
      simp only [hrest, hsign, hd, if_true, digits, afterDigits, htake, hdrop, List.map_cons]

theorem noDigit_exponent (exponent : Option ExponentText) {s : Bytes} (hs : Ends s) :
    NoDigit (exponent.elim [] ExponentText.bytes ++ s) ∧
      (exponent.elim [] ExponentText.bytes ++ s).head? ≠ some point := by
  cases exponent with
  | none =>
      refine ⟨hs.noDigit, fun hhead => ?_⟩
      exact absurd (hs point hhead) (by decide)
  | some x =>
      simp only [Option.elim_some, ExponentText.bytes, List.cons_append]
      refine ⟨?_, ?_⟩
      · rintro _ ⟨⟩
        cases x.capital <;> decide
      · intro hhead
        have hmark := Option.some.inj hhead
        cases hcapital : x.capital <;> rw [hcapital] at hmark <;> exact absurd hmark (by decide)

/-- The sign of a number is its first byte. -/
theorem head?_bytes (n : NumberText) (s : Bytes) : ((n.bytes ++ s).head? == some minus) = n.negative := by
  cases hnegative : n.negative with
  | true => simp [bytes, hnegative]
  | false =>
      obtain ⟨d, ds, hds⟩ := List.exists_cons_of_ne_nil n.whole.ne_nil
      have hd : d ≠ minus := by
        rintro rfl
        exact absurd (n.whole.isDigit minus (by simp [hds])) (by decide)
      simp [bytes, hnegative, hds, hd]

/-- The number that is written, whatever follows it. -/
theorem read_append (n : NumberText) :
    ∃ m, ∀ e s, Ends s → Numeral.read e (n.bytes ++ s) = .ok (m, s) := by
  obtain ⟨x, hx⟩ := readExponent_append n.exponent
  refine ⟨⟨n.negative, n.whole.bytes.map digitValue, n.fraction.elim [] fun ds => ds.bytes.map digitValue, x⟩,
    fun e s hs => ?_⟩
  obtain ⟨hexponent, hpoint⟩ := noDigit_exponent n.exponent hs
  have hfraction : NoDigit ((n.fraction.elim [] fun ds => point :: ds.bytes) ++
      (n.exponent.elim [] ExponentText.bytes ++ s)) := by
    cases n.fraction with
    | none => exact hexponent
    | some ds =>
        rintro _ ⟨⟩
        decide
  have hdrop : (if n.negative then (n.bytes ++ s).drop 1 else n.bytes ++ s) =
      n.whole.bytes ++ ((n.fraction.elim [] fun ds => point :: ds.bytes) ++
        (n.exponent.elim [] ExponentText.bytes ++ s)) := by
    cases hnegative : n.negative <;> simp [bytes, afterWhole, hnegative]
  simp only [Numeral.read, n.head?_bytes s, hdrop, n.readWhole_append e hfraction,
    readFraction_append n.fraction e hexponent hpoint, hx e s hs]

end NumberText

/-! ## Tokens -/

/-- Only numbers depend on what follows them. -/
def Token.Ends (t : Token) (s : Bytes) : Prop := ∀ n, t = .atom (.number n) → Json.Ends s

/-- A reader that, if it succeeds on a token, takes just the token, whatever follows. -/
def Takes {α : Type} (read : Bytes → Reading α) (t : Token) : Prop :=
  ∀ r a rest, t.Ends r → read (t.bytes ++ r) = .ok (a, rest) →
    rest = r ∧ ∀ r', t.Ends r' → read (t.bytes ++ r') = .ok (a, r')

theorem Takes.map {α β : Type} {reader : Reader α} {t : Token} (h : Takes reader.read t) (f : α → β) :
    Takes (reader.map f).read t := by
  intro r b rest hends hread
  obtain ⟨a, ha, rfl⟩ := Reading.map_eq_ok hread
  obtain ⟨rfl, hall⟩ := h r a rest hends ha
  refine ⟨rfl, fun r' hends' => ?_⟩
  simp [Reader.map, hall r' hends', Reading.map]

theorem afterQuote_quoted {α : Type} (body : Body) (read : Bytes → Reading α) (r : Bytes) :
    afterQuote read (body.quoted ++ r) = read (body.bytes ++ quote :: r) := by
  simp [Body.quoted, afterQuote]

theorem spelled_ok {bytes r rest : Bytes} {a : String} (h : spelled (.ok (bytes, r)) = .ok (a, rest)) :
    rest = r ∧ ∀ r', spelled (.ok (bytes, r')) = .ok (a, r') := by
  simp only [spelled] at h ⊢
  split at h
  · rename_i cs heq
    simp only [Except.ok.injEq, Prod.mk.injEq] at h
    obtain ⟨rfl, rfl⟩ := h
    exact ⟨rfl, fun _ => rfl⟩
  · cases h

theorem takes_string (body : Body) : Takes string.read (.atom (.text body)) := by
  intro r a rest _ hread
  simp only [string, Token.bytes, Atom.bytes, afterQuote_quoted] at hread ⊢
  cases hbody : stringBody (body.bytes ++ quote :: r) with
  | error stop => simp [hbody, spelled] at hread
  | ok found =>
      obtain ⟨bytes, r₁⟩ := found
      obtain ⟨rfl, hall⟩ := stringBody_append body.isBody hbody
      rw [hbody] at hread
      obtain ⟨rfl, hspelled⟩ := spelled_ok hread
      exact ⟨rfl, fun r' _ => by rw [hall r', hspelled r']⟩

theorem takes_skippedString (body : Body) : Takes skippedString.read (.atom (.text body)) := by
  intro r a rest _ hread
  simp only [skippedString, Token.bytes, Atom.bytes, afterQuote_quoted] at hread ⊢
  cases hbody : skipBody (body.bytes ++ quote :: r) with
  | error stop => simp [hbody] at hread
  | ok r₁ =>
      obtain ⟨rfl, hall⟩ := skipBody_append body.isBody hbody
      simp only [hbody, Except.ok.injEq, Prod.mk.injEq, true_and] at hread
      exact ⟨hread.symm, fun r' _ => by simp [hall r']⟩

theorem takes_number (n : NumberText) : Takes number.read (.atom (.number n)) := by
  intro r a rest hends hread
  obtain ⟨m, hm⟩ := n.read_append
  simp only [number, readNumber, Token.bytes, Atom.bytes, hm _ _ (hends n rfl)] at hread ⊢
  cases hnumber : m.number? with
  | error unread => simp [hnumber] at hread
  | ok x =>
      simp only [hnumber, Except.ok.injEq, Prod.mk.injEq] at hread
      obtain ⟨rfl, rfl⟩ := hread
      exact ⟨rfl, fun r' hends' => by simp [hm _ _ (hends' n rfl), hnumber]⟩

theorem takes_skippedNumber (n : NumberText) : Takes skippedNumber.read (.atom (.number n)) := by
  intro r a rest hends hread
  obtain ⟨m, hm⟩ := n.read_append
  simp only [skippedNumber, Token.bytes, Atom.bytes, hm _ _ (hends n rfl), Reading.map, Except.ok.injEq,
    Prod.mk.injEq, true_and] at hread ⊢
  exact ⟨hread.symm, fun r' hends' => by simp [hm _ _ (hends' n rfl)]⟩

theorem word_append (w r : Bytes) : word w (w ++ r) = .ok r := by
  induction w with
  | nil => rfl
  | cons b w ih => simp [word, ih]

theorem wordThen_append {α : Type} (w : Bytes) (a : α) (r : Bytes) : wordThen w a (w ++ r) = .ok (a, r) := by
  rw [wordThen, word_append]

end ConfigChain.Json

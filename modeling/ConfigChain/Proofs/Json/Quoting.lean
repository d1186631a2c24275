import ConfigChain.Proofs.Json.Shapes
import ConfigChain.Proofs.Text.Encoding

/-! # Quoted texts

Every text can be written between quotes. Its quotes and backslashes get a backslash in front, and the control
characters, which may not stand in a string, are written by their codes. -/

namespace ConfigChain.Json

/-! ## Control characters -/

/-- A hexadecimal digit. -/
def hexDigit (n : Nat) : UInt8 := .ofNat (if n < 10 then 0x30 + n else 0x57 + n)

theorem hexValue?_hexDigit : ∀ n < 16, hexValue? (hexDigit n) = some n := by decide

/-- The four digits of the code of a byte. -/
def codeDigits (b : UInt8) : Bytes := [0x30, 0x30, hexDigit (b.toNat / 16), hexDigit (b.toNat % 16)]

theorem fourHex_codeDigits (b : UInt8) (s : Bytes) : fourHex (codeDigits b ++ s) = .ok (b.toNat, s) := by
  have hbyte : b.toNat < 256 := b.toNat_lt
  have hzero : hexValue? 0x30 = some 0 := hexValue?_hexDigit 0 (by decide)
  have hhigh := hexValue?_hexDigit (b.toNat / 16) (by omega)
  have hlow := hexValue?_hexDigit (b.toNat % 16) (Nat.mod_lt _ (by decide))
  have hcode : ((0 * 16 + 0) * 16 + b.toNat / 16) * 16 + b.toNat % 16 = b.toNat := by omega
  simp only [codeDigits, fourHex, List.cons_append, List.nil_append, hzero, hhigh, hlow, hcode]

/-- A control character takes one byte. -/
theorem utf8EncodeChar_of_lt {b : UInt8} (h : b < 0x20) : String.utf8EncodeChar (Char.ofNat b.toNat) = [b] := by
  have hall : ∀ n < 32, String.utf8EncodeChar (Char.ofNat n) = [UInt8.ofNat n] := by decide
  rw [hall b.toNat h, UInt8.ofNat_toNat]

theorem codeUnits_codeDigits {b : UInt8} (h : b < 0x20) (s : Bytes) : codeUnits (codeDigits b ++ s) = .ok ([b], s) := by
  have hbyte : b.toNat < 32 := h
  have hcloses : closesPair b.toNat = false := by
    simp only [closesPair, Bool.and_eq_false_iff, decide_eq_false_iff_not]
    omega
  have hopens : opensPair b.toNat = false := by
    simp only [opensPair, Bool.and_eq_false_iff, decide_eq_false_iff_not]
    omega
  simp only [codeUnits, fourHex_codeDigits, hcloses, hopens, utf8EncodeChar_of_lt h, Bool.false_eq_true, if_false]

/-! ## Escapes -/

/-- A byte as it may stand between quotes. -/
def escaped (b : UInt8) : Bytes :=
  if b = quote ∨ b = backslash then [backslash, b]
  else if b < 0x20 then backslash :: letterU :: codeDigits b
  else [b]

/-- A byte that is written as it is stands for itself. -/
theorem stringBody_bare {b : UInt8} (hquote : b ≠ quote) (hbackslash : b ≠ backslash) (hb : ¬ b < 0x20) (s : Bytes) :
    stringBody (b :: s) = (stringBody s).map (b :: ·) := by
  rw [stringBody_byte hquote hbackslash, if_neg hb]

theorem escape_marked {b : UInt8} (hb : b = quote ∨ b = backslash) (s : Bytes) : escape (b :: s) = .ok ([b], s) := by
  rcases hb with rfl | rfl <;> rfl

theorem escape_code {b : UInt8} (hb : b < 0x20) (s : Bytes) :
    escape (letterU :: (codeDigits b ++ s)) = .ok ([b], s) := by
  have hnone : escapedByte? letterU = none := by decide
  simp only [escape, hnone, if_true, codeUnits_codeDigits hb]

/-- What stands for a byte is read as this byte. -/
theorem stringBody_escaped (b : UInt8) (s : Bytes) :
    stringBody (escaped b ++ s) = (stringBody s).map (b :: ·) := by
  unfold escaped
  split
  · rename_i hb
    rw [List.cons_append, List.cons_append, List.nil_append, stringBody_backslash, escape_marked hb]
    rfl
  · rename_i hb
    obtain ⟨hquote, hbackslash⟩ := not_or.mp hb
    split
    · rename_i hcontrol
      rw [List.cons_append, List.cons_append, stringBody_backslash, escape_code hcontrol]
      rfl
    · rename_i hcontrol
      exact stringBody_bare hquote hbackslash hcontrol s

theorem stringBody_flatMap_escaped (bytes s : Bytes) :
    stringBody (bytes.flatMap escaped ++ quote :: s) = .ok (bytes, s) := by
  induction bytes with
  | nil => exact stringBody_quote s
  | cons b bytes ih =>
      rw [List.flatMap_cons, List.append_assoc, stringBody_escaped, ih]
      rfl

/-! ## Texts -/

theorem string_flatMap_escaped (cs : List Char) (s : Bytes) :
    string.read (quote :: ((Utf8.encode cs).flatMap escaped ++ quote :: s)) = .ok (String.ofList cs, s) := by
  simp only [string, afterQuote, if_true, stringBody_flatMap_escaped, spelled, Utf8.decode_encode]

/-- Every text is what the inside of some string spells. -/
theorem Body.exists_text?_eq (t : String) : ∃ body : Body, body.text? = some t := by
  have hread := string_flatMap_escaped t.toList []
  obtain ⟨body, hbody⟩ := string_eq_ok hread
  rw [hbody, String.ofList_toList] at hread
  exact ⟨body, Body.text?_of_read hread⟩

end ConfigChain.Json
